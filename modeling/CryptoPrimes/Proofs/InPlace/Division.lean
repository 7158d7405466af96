import CryptoPrimes.InPlace.Division
import CryptoPrimes.Proofs.InPlace.Modular
import CryptoPrimes.Proofs.Trapping.Division

/-!
# Long division in place follows its form on values

The shifted divisor is copied over all of its buffer at once.  The buffer of the
dividend is filled in two steps: its front is copied over, and only the shift
says what its top word is to be.  In between two runs may differ in the top word
and in nothing else (`Below`).

With the quotient cleared first, the rest is division on values; `divRem_divides`
is what that says of the words a caller gets.
-/

namespace CryptoPrimes.InPlace

open Limbs CryptoPrimes.Modular Trapping

variable {w : Width} {a b q r x y : Limbs w} {n : Nat}

/-! ## Filling a buffer in two steps -/

/-- One number of `n` words, each with some word on top of it. -/
def Below (n : Nat) (x y : Limbs w) : Prop :=
  ∃ (body : Limbs w) (top top' : Word w),
    body.length = n ∧ x = body ++ [top] ∧ y = body ++ [top']

theorem Below.length (h : Below n x y) : x.length = n + 1 ∧ y.length = n + 1 := by
  obtain ⟨body, top, top', rfl, rfl, rfl⟩ := h
  exact ⟨List.length_append, List.length_append⟩

/-- Copying over a whole buffer forgets what it held. -/
theorem follows_write_whole (hx : x.length = n) (hy : y.length = n) (source : Limbs w) :
    Checked.Follows Eq (write x 0 n source) (write y 0 n source) := by
  by_cases hsource : source.length = n
  · rw [write_whole hx hsource, write_whole hy hsource]
    exact .result rfl
  · rw [write_mismatch ⟨Nat.zero_le _, hx.ge⟩ hsource,
      write_mismatch ⟨Nat.zero_le _, hy.ge⟩ hsource]
    exact .fault _ _

/-- Copying over all words but the top one. -/
theorem follows_write_front (hx : x.length = n + 1) (hy : y.length = n + 1) (source : Limbs w) :
    Checked.Follows (Below n) (write x 0 n source) (write y 0 n source) := by
  by_cases hsource : source.length = n
  · obtain ⟨top, htop⟩ : ∃ top, x.drop n = [top] :=
      List.length_eq_one_iff.mp (by rw [List.length_drop]; omega)
    obtain ⟨top', htop'⟩ : ∃ top, y.drop n = [top] :=
      List.length_eq_one_iff.mp (by rw [List.length_drop]; omega)
    rw [write_front hsource (by omega), write_front hsource (by omega), htop, htop']
    exact .result ⟨source, top, top', hsource, rfl, rfl⟩
  · rw [write_mismatch ⟨Nat.zero_le _, by omega⟩ hsource,
      write_mismatch ⟨Nat.zero_le _, by omega⟩ hsource]
    exact .fault _ _

theorem Below.slice_eq (h : Below n x y) : slice x 0 n = slice y 0 n := by
  obtain ⟨body, top, top', rfl, rfl, rfl⟩ := h
  rw [slice_front (by simp), slice_front (by simp), List.take_left, List.take_left]

/-- The top word comes last. -/
theorem Below.setWord_eq (h : Below n x y) (z : Word w) : setWord x n z = setWord y n z := by
  obtain ⟨body, top, top', rfl, rfl, rfl⟩ := h
  rw [setWord_append rfl, setWord_append rfl]

/-! ## The three ways of a division -/

/-- One quotient and one remainder, the latter in `n` words. -/
def SameParts {α : Type} (n : Nat) (p p' : α × Limbs w) : Prop := p = p' ∧ p.2.length = n

theorem follows_divideLong (quotient : Option (Limbs w)) :
    Work.Follows (wordLen a + 1 + wordLen b) (SameParts r.length) (divideLong quotient r a b)
      (Trapping.divideLong quotient r.length a b) := by
  unfold divideLong Trapping.divideLong
  rw [cleared_eq_zeros]
  refine .lift_bind (follows_checkedSize _) ?_
  rintro _ _ ⟨rfl, rfl, -⟩
  refine .withBuffer fun u u' hu hu' => ?_
  refine @Work.Follows.withBuffer _ _ _ _ 0 _ _ _ fun v v' hv hv' => ?_
  refine .same_bind fun _ => .same_bind fun top => .same_bind fun divisor => ?_
  refine .lift_bind (follows_write_whole hv hv' divisor) ?_
  rintro v _ rfl
  refine .same_bind fun normal => .same_bind fun dividend => ?_
  refine .lift_bind (follows_write_front hu hu' dividend) fun u u' hbelow => ?_
  rw [hbelow.slice_eq]
  refine .same_bind fun _ => .same_bind fun shifted => ?_
  refine .lift_bind (follows_write_front hbelow.length.1 hbelow.length.2 shifted.1)
    fun u u' hbelow => ?_
  rw [hbelow.setWord_eq]
  refine .same_bind fun u => .same_bind fun _ => .same_bind fun _ => .same_bind fun d => ?_
  refine .same_bind fun _ => .same_bind fun rem => ?_
  refine .lift_bind (follows_write _ _ _ (length_zeros _)) ?_
  rintro r _ ⟨rfl, hr⟩
  exact Work.follows_pure ⟨rfl, hr⟩

/-- The dividend is copied to the quotient's words, and its quotient over it. -/
theorem follows_divideWord (quotient : Option (Limbs w)) {x : Word w} (hx : x ≠ 0) :
    Checked.Follows (SameParts r.length) (divideWord quotient r a x)
      (Trapping.divideWord quotient r.length a x) := by
  unfold divideWord Trapping.divideWord
  dsimp only
  rw [cleared_eq_zeros, slice_significant, Checked.ok_bind, Checked.ok_bind]
  -- the remainder goes to cleared words in the end
  have hrem {q : Option (Limbs w)} (rem : Word w) :
      Checked.Follows (SameParts r.length)
        (setWord (zeros r.length) 0 rem >>= fun r => pure (q, r))
        (setWord (zeros r.length) 0 rem >>= fun r => pure (q, r)) := by
    refine (follows_setWord 0 rem (length_zeros _)).bind ?_
    rintro r _ ⟨rfl, hr⟩
    exact .result ⟨rfl, hr⟩
  cases quotient with
  | none => exact .same_bind fun rem => hrem rem
  | some q =>
      have hdiv : divWordChecked (trim a) x = .ok (divWord (trim a) x) := by
        rw [divWordChecked, Checked.require_of hx]
        rfl
      dsimp only
      rw [hdiv, Checked.ok_bind]
      by_cases hroom : wordLen a ≤ q.length
      · have htrim := length_trim a
        have hlength := (length_divWord (trim a) x).trans htrim
        have hcopied : (trim a ++ q.drop (wordLen a)).take (wordLen a) = trim a :=
          List.take_left' htrim
        have hrest : (trim a ++ q.drop (wordLen a)).drop (wordLen a) = q.drop (wordLen a) :=
          List.drop_left' htrim
        have hle : wordLen a ≤ (trim a ++ q.drop (wordLen a)).length := by
          rw [List.length_append]
          omega
        rw [write_front htrim hroom, Checked.ok_bind, slice_front hle, Checked.ok_bind, hcopied,
          hdiv, Checked.ok_bind, write_front hlength hle, hrest, write_front hlength hroom]
        exact hrem _
      · rw [write_outside fun h => hroom h.2, write_outside fun h => hroom h.2]
        exact .fault _ _

theorem follows_divide (quotient : Option (Limbs w)) :
    Work.Follows (divRemDepth a.length b.length) (SameParts r.length) (divide quotient r a b)
      (Trapping.divide (quotient.map cleared) r.length a b) := by
  have hdepth : wordLen a + 1 + wordLen b ≤ divRemDepth a.length b.length := by
    have := wordLen_le_length a
    have := wordLen_le_length b
    unfold divRemDepth
    omega
  unfold divide Trapping.divide
  rw [cleared_eq_zeros]
  dsimp only
  refine .same_bind fun _ => .same_bind fun _ => .same_bind fun order => ?_
  split
  · refine .same_bind fun _ => .lift_bind (follows_write _ _ _ (length_zeros _)) ?_
    rintro r _ ⟨rfl, hr⟩
    exact Work.follows_pure ⟨rfl, hr⟩
  · split
    · next hone =>
      rw [wordAt_zero (by rintro rfl; cases hone), Work.ok_bind, Work.ok_bind]
      exact Work.follows_lift (follows_divideWord _ (headD_ne_zero hone))
    · exact (follows_divideLong _).mono hdepth

theorem follows_divRem {qRoom rRoom : Nat} (hq : q.length = qRoom) (hr : r.length = rRoom) :
    Work.Follows (divRemDepth a.length b.length) (SameParts rRoom) (divRem q r a b)
      (Trapping.divRem qRoom rRoom a b) := by
  subst hq hr
  unfold divRem Trapping.divRem
  rw [← cleared_eq_zeros]
  refine (follows_divide (some q)).bind ?_
  rintro d _ ⟨rfl, hlength⟩
  exact Work.follows_pure ⟨rfl, hlength⟩

theorem follows_modReduce {rRoom : Nat} (hr : r.length = rRoom) :
    Work.Follows (divRemDepth a.length b.length) Eq (modReduce r a b)
      (Trapping.modReduce rRoom a b) := by
  subst hr
  unfold modReduce Trapping.modReduce
  refine (follows_divide none).bind ?_
  rintro d _ ⟨rfl, -⟩
  exact Work.follows_pure rfl

/-! ## What a caller gets -/

/-- Quotient and remainder of `a` by `b`, with zero words above the quotient. -/
structure IsDivision (a b q r : Limbs w) : Prop where
  restores : val a = val q * val b + val r
  below : val r < val b
  cleared : ∀ n, val a / val b < 2 ^ (w.bits * n) → ∀ x ∈ q.drop n, x = 0

theorem isDivision_of_val (hb : val b ≠ 0) (hq : val q = val a / val b)
    (hr : val r = val a % val b) : IsDivision a b q r where
  restores := by rw [hq, hr, Nat.div_add_mod']
  below := hr.trans_lt (Nat.mod_lt _ (Nat.pos_of_ne_zero hb))
  cleared n hn := by
    rcases Nat.le_total n q.length with hle | hle
    · have hzero : isZero (q.drop n) = true := by
        rw [isZero_iff, val_drop q hle, hq, Nat.div_eq_of_lt hn]
      simpa [isZero] using hzero
    · rw [List.drop_eq_nil_of_le hle]
      exact fun x hx => absurd hx List.not_mem_nil

/-- The division in place ends with quotient and remainder whatever was in their
words and in the scratch, and the reduction alone with the same remainder. -/
theorem divRem_divides (w : Width) (q r r₂ a b : Limbs w) (hb : val b ≠ 0)
    (hr : r.length = b.length) (hr₂ : r₂.length = b.length)
    (hq : val b ≤ val a → wordLen a - wordLen b + 1 ≤ q.length) (scratch : Limbs w)
    (hdepth : divRemDepth a.length b.length ≤ scratch.length)
    (hsize : scratch.length < sizeLimit) :
    ∃ q' r' rest rest' : Limbs w, divRem q r a b scratch = .ok ((q', r'), rest) ∧
      modReduce r₂ a b scratch = .ok (r', rest') ∧
      q'.length = q.length ∧ r'.length = b.length ∧ IsDivision a b q' r' := by
  have hwords : wordLen b ≠ 0 := mt (wordLen_eq_zero_iff b).mp hb
  have hroom (hle : val b ≤ val a) : wordLen a + 1 ≤ q.length + wordLen b := by
    have := hq hle
    omega
  have hwordsize : a.length + 1 < sizeLimit := by
    unfold divRemDepth at hdepth
    omega
  -- on values, quotient and remainder are known
  obtain ⟨q', r', hplain, hqlen, hqval, hrlen, hrval⟩ := divRem_fits hb hroom
  obtain ⟨s, hplain', hslen, hsval⟩ := modReduce_computes (a := a) hb
  obtain rfl : s = r' := val_inj (hslen.trans hrlen.symm) (hsval.trans hrval.symm)
  -- the trapping forms end in no other way, and are followed in place
  obtain ⟨_, _, hagree, -⟩ := divRem_agree hwords hroom hwordsize
  obtain ⟨_, hagree'⟩ := modReduce_agree (a := a) hwords hwordsize
  have htrap := hagree.trapping
  have htrap' := hagree'.trapping
  rw [hagree.plain.unique hplain] at htrap
  rw [hagree'.plain.unique hplain'] at htrap'
  obtain ⟨rest, hrun, -, -⟩ :=
    ((follows_divRem rfl hr).imp fun _ _ h => h.1).computes htrap scratch hdepth
  obtain ⟨rest', hrun', -, -⟩ := (follows_modReduce hr₂).computes htrap' scratch hdepth
  exact ⟨q', s, rest, rest', hrun, hrun', hqlen, hrlen, isDivision_of_val hb hqval hrval⟩

/-- The estimate is one too large here, and the divisor is added back. -/
theorem divRem_divides_addBack :
    val ([1, 0, 0x20000000] : Limbs .w32) ≠ 0 ∧
      ∃ q' r' rest rest' : Limbs .w32,
        divRem [9] [7, 7, 7] [3, 0, 0x80000000] [1, 0, 0x20000000] (zeros 7) =
          .ok ((q', r'), rest) ∧
        modReduce [5, 5, 5] [3, 0, 0x80000000] [1, 0, 0x20000000] (zeros 7) = .ok (r', rest') ∧
        q'.length = 1 ∧ r'.length = 3 ∧
        IsDivision [3, 0, 0x80000000] [1, 0, 0x20000000] q' r' :=
  ⟨by decide, divRem_divides .w32 [9] [7, 7, 7] [5, 5, 5] [3, 0, 0x80000000] [1, 0, 0x20000000]
    (by decide) rfl rfl (by decide) (zeros 7) (by decide) (by decide)⟩

example : (divRem [9] [7, 7, 7] ([3, 0, 0x80000000] : Limbs .w32) [1, 0, 0x20000000]
    (List.replicate 7 6)).map Prod.fst = .ok ([3], [0, 0, 0x20000000]) := by rfl

end CryptoPrimes.InPlace
