import CryptoPrimes.Proofs.Prime.ErrorBound

/-!
# The strong test is the textbook test of its witnesses

The textbook writes `val a - 1 = 2 ^ s * d` with `d` odd and asks of each witness
`v` whether `v ^ d` is one or some `v ^ (2 ^ j * d)` with `j < s` is minus one,
modulo `val a`.  The witnesses of a run are what is drawn from its byte source
(`Witnesses`), and every end of the run is described by them (`Verdicts`):

* it accepts after `k` witnesses that are all strong;
* it rejects at the first draw that the source refuses or whose witness is not
  strong, behind fewer than `k` strong ones, and leaves the source there;
* it has no answer where a draw uses up its bound on rejected blocks.

A source has one sequence of draws, and one of these ends lies on it
(`exists_ending`).  So each description is exact in both directions.
-/

namespace CryptoPrimes.Prime

open Limbs

variable {w : Width} {σ : Type} [ByteSource σ] {a : Limbs w} {fuel k : Nat}
  {source middle rest : σ} {v : Nat} {vs : List Nat}

/-! ## Witnesses -/

/-- What a witness is made of: a draw below `val a - 3`. -/
def witnessDraw (fuel : Nat) (a : Limbs w) (source : σ) : Checked (Option (Limbs w) × σ) :=
  sampleBelow fuel a.length (ofNat a.length (val a - 3)) source

/-- The next draw gives the witness `v`, two more than the number drawn. -/
def NextWitness (fuel : Nat) (a : Limbs w) (source : σ) (v : Nat) (next : σ) : Prop :=
  ∃ x, witnessDraw fuel a source = .ok (some x, next) ∧ v = val x + 2

/-- The next draws give the witnesses `vs` and leave the source in the state
`rest`. -/
def Witnesses (fuel : Nat) (a : Limbs w) : σ → List Nat → σ → Prop
  | source, [], rest => rest = source
  | source, v :: vs, rest =>
    ∃ next, NextWitness fuel a source v next ∧ Witnesses fuel a next vs rest

theorem witnessDraw_eq (fuel : Nat) (a : Limbs w) (source : σ) :
    witnessDraw fuel a source =
      sampleBelow fuel (ofNat a.length (val a - 3) : Limbs w).length
        (ofNat a.length (val a - 3)) source := by
  rw [length_ofNat]
  rfl

/-- Witnesses are from two up to the number less two. -/
theorem NextWitness.range (hlarge : 3 < val a) (h : NextWitness fuel a source v rest) :
    2 ≤ v ∧ v ≤ val a - 2 := by
  obtain ⟨x, hdraw, rfl⟩ := h
  have hbound : val (ofNat a.length (val a - 3) : Limbs w) = val a - 3 :=
    val_ofNat_of_lt (by have := val_lt a; omega)
  rw [witnessDraw_eq] at hdraw
  rcases sampleBelow_cases fuel (ofNat a.length (val a - 3)) source with
    hfault | ⟨_, hrefused⟩ | ⟨y, _, hserved, -, hlt⟩
  · exact nomatch hdraw.symm.trans hfault
  · exact nomatch hdraw.symm.trans hrefused
  · obtain rfl : x = y := by cases hdraw.symm.trans hserved; rfl
    omega

theorem Witnesses.range (hlarge : 3 < val a) (h : Witnesses fuel a source vs rest) :
    ∀ v ∈ vs, 2 ≤ v ∧ v ≤ val a - 2 := by
  induction vs generalizing source with
  | nil => exact fun v hv => absurd hv List.not_mem_nil
  | cons v vs ih =>
      obtain ⟨next, hv, hvs⟩ := h
      exact List.forall_mem_cons.mpr ⟨hv.range hlarge, ih hvs⟩

/-! ## Verdicts -/

/-- The ends of a test with `k` witnesses, by what is drawn and by which numbers
are strong witnesses. -/
structure Verdicts (fuel : Nat) (a : Limbs w) (k : Nat) (source : σ) (strong : Nat → Prop)
    (out : Checked (Bool × σ)) : Prop where
  accepts : ∀ rest, out = .ok (true, rest) ↔
    ∃ vs, vs.length = k ∧ Witnesses fuel a source vs rest ∧ ∀ v ∈ vs, strong v
  rejects : ∀ rest, out = .ok (false, rest) ↔
    ∃ vs middle, vs.length < k ∧ Witnesses fuel a source vs middle ∧ (∀ v ∈ vs, strong v) ∧
      (witnessDraw fuel a middle = .ok (none, rest) ∨
        ∃ v, NextWitness fuel a middle v rest ∧ ¬ strong v)
  unanswered : ∀ fault, out = .error fault ↔ fault = .outOfFuel ∧
    ∃ vs middle, vs.length < k ∧ Witnesses fuel a source vs middle ∧ (∀ v ∈ vs, strong v) ∧
      witnessDraw fuel a middle = .error .outOfFuel

section Rounds

variable {strong : Nat → Bool}

/-- A round by its draw. -/
theorem roundsOutcome_succ (strong : Nat → Bool) (k : Nat) (source : σ) :
    roundsOutcome strong fuel (ofNat a.length (val a - 3) : Limbs w) (k + 1) source =
      match witnessDraw fuel a source with
      | .error fault => .error fault
      | .ok (none, source) => .ok (false, source)
      | .ok (some x, source) =>
        if strong (val x + 2) then
          roundsOutcome strong fuel (ofNat a.length (val a - 3) : Limbs w) k source
        else .ok (false, source) := by
  rw [witnessDraw_eq]
  rfl

/-- Strong witnesses are passed. -/
theorem roundsOutcome_of_witnesses (h : Witnesses fuel a source vs middle)
    (hstrong : ∀ v ∈ vs, strong v = true) (k : Nat) :
    roundsOutcome strong fuel (ofNat a.length (val a - 3) : Limbs w) (k + vs.length) source =
      roundsOutcome strong fuel (ofNat a.length (val a - 3) : Limbs w) k middle := by
  induction vs generalizing source with
  | nil =>
      obtain rfl : middle = source := h
      rfl
  | cons v vs ih =>
      obtain ⟨next, ⟨x, hdraw, rfl⟩, hrest⟩ := h
      obtain ⟨hx, hvs⟩ := List.forall_mem_cons.mp hstrong
      rw [List.length_cons, ← Nat.add_assoc, roundsOutcome_succ, hdraw]
      dsimp only
      rw [if_pos hx, ih hrest hvs]

/-- What the rounds end with where no further witness is passed. -/
inductive Ending (fuel : Nat) (a : Limbs w) (strong : Nat → Bool) :
    Nat → σ → Checked (Bool × σ) → Prop
  | accepted (source : σ) : Ending fuel a strong 0 source (.ok (true, source))
  | refused {k : Nat} {source rest : σ} (h : witnessDraw fuel a source = .ok (none, rest)) :
      Ending fuel a strong (k + 1) source (.ok (false, rest))
  | failed {k : Nat} {source rest : σ} {v : Nat} (h : NextWitness fuel a source v rest)
      (hv : strong v = false) : Ending fuel a strong (k + 1) source (.ok (false, rest))
  | starved {k : Nat} {source : σ} (h : witnessDraw fuel a source = .error .outOfFuel) :
      Ending fuel a strong (k + 1) source (.error .outOfFuel)

theorem Ending.outcome {out : Checked (Bool × σ)} (h : Ending fuel a strong k source out) :
    roundsOutcome strong fuel (ofNat a.length (val a - 3) : Limbs w) k source = out := by
  cases h with
  | accepted => rfl
  | refused h => rw [roundsOutcome_succ, h]
  | failed h hv =>
      obtain ⟨x, hdraw, rfl⟩ := h
      rw [roundsOutcome_succ, hdraw]
      dsimp only
      rw [if_neg (by rw [hv]; exact Bool.false_ne_true)]
  | starved h => rw [roundsOutcome_succ, h]

/-- Every run passes some strong witnesses and then ends. -/
theorem exists_ending (fuel : Nat) (a : Limbs w) (strong : Nat → Bool) (k : Nat) (source : σ) :
    ∃ vs middle left out, k = left + vs.length ∧ Witnesses fuel a source vs middle ∧
      (∀ v ∈ vs, strong v = true) ∧ Ending fuel a strong left middle out := by
  induction k generalizing source with
  | zero => exact ⟨[], source, 0, _, rfl, rfl, fun v hv => absurd hv List.not_mem_nil, .accepted _⟩
  | succ k ih =>
      have hends {out : Checked (Bool × σ)} (h : Ending fuel a strong (k + 1) source out) :
          ∃ vs middle left out, k + 1 = left + vs.length ∧ Witnesses fuel a source vs middle ∧
            (∀ v ∈ vs, strong v = true) ∧ Ending fuel a strong left middle out :=
        ⟨[], source, k + 1, out, rfl, rfl, fun v hv => absurd hv List.not_mem_nil, h⟩
      have hcases := sampleBelow_cases fuel (ofNat a.length (val a - 3) : Limbs w) source
      rw [← witnessDraw_eq] at hcases
      rcases hcases with hstarved | ⟨rest, hrefused⟩ | ⟨x, next, hdraw, -⟩
      · exact hends (.starved hstarved)
      · exact hends (.refused hrefused)
      · cases hx : strong (val x + 2) with
        | false => exact hends (.failed ⟨x, hdraw, rfl⟩ hx)
        | true =>
            obtain ⟨vs, middle, left, out, hk, hvs, hstrong, hend⟩ := ih next
            refine ⟨(val x + 2) :: vs, middle, left, out, ?_, ⟨next, ⟨x, hdraw, rfl⟩, hvs⟩,
              List.forall_mem_cons.mpr ⟨hx, hstrong⟩, hend⟩
            rw [List.length_cons, hk, Nat.add_assoc]

theorem outcome_of_ending {out : Checked (Bool × σ)} (hvs : Witnesses fuel a source vs middle)
    (hstrong : ∀ v ∈ vs, strong v = true) (hend : Ending fuel a strong k middle out) :
    roundsOutcome strong fuel (ofNat a.length (val a - 3) : Limbs w) (k + vs.length) source =
      out :=
  (roundsOutcome_of_witnesses hvs hstrong k).trans hend.outcome

/-- The outcome of the rounds is described in both directions: the run has one of the
endings, and each of them determines it. -/
theorem verdicts_roundsOutcome (fuel : Nat) (a : Limbs w) (strong : Nat → Bool) (k : Nat)
    (source : σ) :
    Verdicts fuel a k source (fun v => strong v = true)
      (roundsOutcome strong fuel (ofNat a.length (val a - 3) : Limbs w) k source) := by
  obtain ⟨vs, middle, left, out, rfl, hvs, hstrong, hend⟩ := exists_ending fuel a strong k source
  have hout := outcome_of_ending hvs hstrong hend
  constructor
  · intro rest
    constructor
    · intro h
      obtain rfl := hout.symm.trans h
      cases hend
      exact ⟨vs, (Nat.zero_add _).symm, hvs, hstrong⟩
    · rintro ⟨us, hlength, hus, hpassed⟩
      rw [← hlength, ← Nat.zero_add us.length]
      exact outcome_of_ending hus hpassed (.accepted rest)
  · intro rest
    constructor
    · intro h
      obtain rfl := hout.symm.trans h
      cases hend with
      | refused hdraw => exact ⟨vs, middle, by omega, hvs, hstrong, .inl hdraw⟩
      | failed hdraw hv =>
          exact ⟨vs, middle, by omega, hvs, hstrong, .inr ⟨_, hdraw, ne_true_of_eq_false hv⟩⟩
    · rintro ⟨us, last, hlength, hus, hpassed, hstop⟩
      obtain ⟨more, hmore⟩ := Nat.exists_eq_add_of_lt hlength
      have hsplit : left + vs.length = more + 1 + us.length := by omega
      rw [hsplit]
      rcases hstop with hdraw | ⟨v, hdraw, hv⟩
      · exact outcome_of_ending hus hpassed (.refused hdraw)
      · exact outcome_of_ending hus hpassed (.failed hdraw (eq_false_of_ne_true hv))
  · intro fault
    constructor
    · intro h
      obtain rfl := hout.symm.trans h
      cases hend with
      | starved hdraw => exact ⟨rfl, vs, middle, by omega, hvs, hstrong, hdraw⟩
    · rintro ⟨rfl, us, last, hlength, hus, hpassed, hdraw⟩
      obtain ⟨more, hmore⟩ := Nat.exists_eq_add_of_lt hlength
      have hsplit : left + vs.length = more + 1 + us.length := by omega
      rw [hsplit]
      exact outcome_of_ending hus hpassed (.starved hdraw)

end Rounds

/-! ## The test -/

/-- A number has one odd part. -/
theorem two_pow_mul_odd_unique {s t d e : Nat} (h : 2 ^ s * d = 2 ^ t * e) (hd : d % 2 = 1)
    (he : e % 2 = 1) : s = t ∧ d = e := by
  induction s generalizing t with
  | zero =>
      cases t with
      | zero => exact ⟨rfl, by simpa using h⟩
      | succ t =>
          rw [Nat.pow_zero, Nat.one_mul, Nat.pow_succ', Nat.mul_assoc] at h
          omega
  | succ s ih =>
      cases t with
      | zero =>
          rw [Nat.pow_zero, Nat.one_mul, Nat.pow_succ', Nat.mul_assoc] at h
          omega
      | succ t =>
          rw [Nat.pow_succ', Nat.pow_succ', Nat.mul_assoc, Nat.mul_assoc] at h
          obtain ⟨rfl, hde⟩ := ih (Nat.eq_of_mul_eq_mul_left Nat.two_pos h)
          exact ⟨rfl, hde⟩

/-- What the textbook says about a test of `a` with `k` witnesses.  Where nothing
has to be drawn, any scratch is enough and comes back as it was. -/
structure IsTextbookTest (fuel : Nat) (a : Limbs w) (k : Nat) (source : σ)
    (test : Work w (Bool × σ)) : Prop where
  oneWord : wordLen a ≤ 1 → ∀ scratch : Limbs w,
    test scratch = .ok ((SingleWord.isPrime (val a), source), scratch)
  even : 2 ≤ wordLen a → val a % 2 = 0 → ∀ scratch : Limbs w,
    test scratch = .ok ((false, source), scratch)
  witnesses : 2 ≤ wordLen a → ∀ vs rest, Witnesses fuel a source vs rest →
    ∀ v ∈ vs, 2 ≤ v ∧ v ≤ val a - 2
  odd : 2 ≤ wordLen a → val a % 2 = 1 → ∀ s d, 2 ^ s * d = val a - 1 → d % 2 = 1 →
    ∀ scratch : Limbs w, roundsDepth a.length ≤ scratch.length →
      Verdicts fuel a k source (fun v => IsStrongTo (val a) v s d) ((test scratch).map Prod.fst)

/-- A test that ends as the rounds do is the textbook test. -/
theorem isTextbookTest_of_rounds {test : Work w (Bool × σ)}
    (honeWord : wordLen a ≤ 1 → ∀ scratch : Limbs w,
      test scratch = .ok ((SingleWord.isPrime (a.headD 0).toNat, source), scratch))
    (heven : 2 ≤ wordLen a → isOdd a = false → ∀ scratch : Limbs w,
      test scratch = .ok ((false, source), scratch))
    (hodd : 2 ≤ wordLen a → val a % 2 = 1 → Work.Computes test (roundsDepth a.length)
      (roundsOutcome (isStrongBase a) fuel (Candidate.ofOdd a).bound k source)) :
    IsTextbookTest fuel a k source test where
  oneWord hshort scratch := by
    rw [val_eq_headD hshort]
    exact honeWord hshort scratch
  even hwords hparity scratch := by
    have hnot : isOdd a = false := by
      rw [← Bool.not_eq_true, isOdd_iff]
      omega
    exact heven hwords hnot scratch
  witnesses hwords vs rest h := h.range (by have := nine_lt_of_two_words hwords; omega)
  odd hwords hparity s d hsplit hd scratch hdepth := by
    have hlarge := nine_lt_of_two_words hwords
    obtain ⟨hsplit', hd', -⟩ := ofOdd_split hparity (by omega)
    obtain ⟨rfl, rfl⟩ := two_pow_mul_odd_unique (hsplit.trans hsplit'.symm) hd hd'
    have hverdicts := verdicts_roundsOutcome fuel a (isStrongBase a) k source
    rw [← bound_eq_ofNat hparity hwords, ← (hodd hwords hparity).fst_eq hdepth] at hverdicts
    simpa only [isStrongBase, decide_eq_true_iff] using hverdicts

theorem strongTest_isTextbookTest (fuel : Nat) (a : Limbs w) (k : Nat) (source : σ) :
    IsTextbookTest fuel a k source (strongTest fuel a k source) := by
  apply isTextbookTest_of_rounds
  · intro hshort scratch
    rw [strongTest, if_pos hshort]
    rfl
  · intro hwords hparity scratch
    rw [strongTest, if_neg (by omega), hparity]
    rfl
  · exact fun hwords hparity => strongTest_computes hparity hwords fuel k source

end CryptoPrimes.Prime
