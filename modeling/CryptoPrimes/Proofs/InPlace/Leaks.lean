import CryptoPrimes.Proofs.InPlace.Extend
import CryptoPrimes.Proofs.Trapping.Depths

/-!
# Old words do not leak

Scratch is handed from routine to routine as it was left, and the words of a
result hold something before they are written.  None of that shows: a routine in
place, run twice on words that differ as they may, gives the result of the plain
routine both times, and leaves the words beyond its declared depth alone.

The state of a byte source is part of a result, and a source may keep all it has
served in its state.  So the octets that are drawn are the same as well.  A draw
that runs out of attempts does so in both runs.
-/

namespace CryptoPrimes.InPlace

open Limbs CryptoPrimes.Modular Trapping

variable {w : Width} {α β : Type} {depth : Nat}

/-! ## Two runs -/

/-- A run from `scratch` has ended with `result`, and has left as many words,
unchanged from `depth` on. -/
def Ends (depth : Nat) (scratch : Limbs w) (result : α) (run : Checked (α × Limbs w)) : Prop :=
  ∃ rest, run = .ok (result, rest) ∧ rest.length = scratch.length ∧
    rest.drop depth = scratch.drop depth

/-- Two runs on scratches of one length, of at least `depth` words, end with one
result or stop with one fault. -/
def RunAlike (work work' : Work w α) (depth : Nat) : Prop :=
  ∀ scratch scratch' : Limbs w, scratch.length = scratch'.length → depth ≤ scratch.length →
    (∃ result, Ends depth scratch result (work scratch) ∧
      Ends depth scratch' result (work' scratch')) ∨
    ∃ fault, work scratch = .error fault ∧ work' scratch' = .error fault

/-- Two runs on any scratches of at least `depth` words end with one result, that
of the plain routine. -/
def GiveSame (plain work work' : Work w α) (depth : Nat) : Prop :=
  ∃ result, Work.Computes plain depth (.ok result) ∧
    ∀ scratch scratch' : Limbs w, depth ≤ scratch.length → depth ≤ scratch'.length →
      Ends depth scratch result (work scratch) ∧ Ends depth scratch' result (work' scratch')

/-- The same of a routine that draws, unless the draws run out in both runs. -/
def DrawSame (plain work : Work w α) (depth : Nat) : Prop :=
  GiveSame plain work work depth ∨
    Work.Computes plain depth (.error .outOfFuel) ∧
      ∀ scratch : Limbs w, depth ≤ scratch.length → work scratch = .error .outOfFuel

/-- The same of a search, which also reports the same events. -/
def SearchSame (plain search : Search w α) (depth : Nat) : Prop :=
  ∃ events,
    (∃ result, Search.Computes plain depth events (.ok result) ∧
      ∀ scratch scratch' : Limbs w, depth ≤ scratch.length → depth ≤ scratch'.length →
        (search.run scratch).events = events ∧ (search.run scratch').events = events ∧
        Ends depth scratch result (search.run scratch).outcome ∧
        Ends depth scratch' result (search.run scratch').outcome) ∨
    Search.Computes plain depth events (.error .outOfFuel) ∧
      ∀ scratch : Limbs w, depth ≤ scratch.length →
        search.run scratch = ⟨events, .error .outOfFuel⟩

/-! ## From one model to two runs -/

section

variable {plain trapping work work' : Work w α} {out : Checked α} {result : α}

theorem giveSame_of_computes (hplain : Work.Computes plain depth (.ok result))
    (h : Work.Computes work depth (.ok result)) (h' : Work.Computes work' depth (.ok result)) :
    GiveSame plain work work' depth :=
  ⟨result, hplain, fun scratch scratch' hdepth hdepth' =>
    ⟨h scratch hdepth, h' scratch' hdepth'⟩⟩

variable {R : α → α → Prop} (hR : ∀ a b, R a b → a = b)

include hR

/-- Two computations that follow one model. -/
theorem runAlike_of_follows (h : Work.Follows depth R work trapping)
    (h' : Work.Follows depth R work' trapping) : RunAlike work work' depth := by
  intro scratch scratch' hlength hdepth
  have hrun := h scratch scratch rfl hdepth
  have hrun' := h' scratch' scratch hlength.symm (hlength ▸ hdepth)
  cases hmodel : trapping scratch with
  | error fault =>
      rw [hmodel] at hrun hrun'
      exact .inr ⟨fault, hrun, hrun'⟩
  | ok p =>
      rw [hmodel] at hrun hrun'
      obtain ⟨⟨a, rest⟩, hend, hab, -, hkeep, hframe⟩ := hrun
      obtain ⟨⟨a', rest'⟩, hend', hab', -, hkeep', hframe'⟩ := hrun'
      obtain rfl : a = p.1 := hR _ _ hab
      obtain rfl : a' = p.1 := hR _ _ hab'
      exact .inl ⟨p.1, ⟨rest, hend, hkeep, hframe⟩, ⟨rest', hend', hkeep', hframe'⟩⟩

/-- Two computations that follow a model with the result of the plain routine. -/
theorem giveSame_of_follows (hagree : Work.Agree plain trapping depth (.ok result))
    (h : Work.Follows depth R work trapping) (h' : Work.Follows depth R work' trapping) :
    GiveSame plain work work' depth :=
  giveSame_of_computes hagree.plain ((h.imp hR).computes hagree.trapping)
    ((h'.imp hR).computes hagree.trapping)

end

theorem drawSame_of_follows {plain trapping work : Work w α} {out : Checked α}
    (hagree : Work.Agree plain trapping depth out) (hfuel : OnlyFuel out)
    (h : Work.Follows depth Eq work trapping) : DrawSame plain work depth := by
  have hcomputes := h.computes hagree.trapping
  cases out with
  | ok result => exact .inl (giveSame_of_computes hagree.plain hcomputes hcomputes)
  | error fault =>
      obtain rfl := hfuel fault rfl
      exact .inr ⟨hagree.plain, hcomputes⟩

theorem ends_of_computes {search : Search w α} {events : List Event} {result : α}
    (h : Search.Computes search depth events (.ok result)) {scratch : Limbs w}
    (hdepth : depth ≤ scratch.length) : Ends depth scratch result (search.run scratch).outcome := by
  obtain ⟨rest, hsearch, hlength, hframe⟩ := h ⟨scratch, []⟩ hdepth
  refine ⟨rest, ?_, hlength, hframe⟩
  unfold Search.run
  rw [hsearch]

theorem searchSame_of_follows {plain trapping search : Search w α} {events : List Event}
    {out : Checked α} (hagree : Search.Agree plain trapping depth events out)
    (hfuel : OnlyFuel out) (h : Search.Follows depth Eq search trapping) :
    SearchSame plain search depth := by
  have hcomputes := h.computes hagree.trapping
  refine ⟨events, ?_⟩
  cases out with
  | ok result =>
      refine .inl ⟨result, hagree.plain, fun scratch scratch' hdepth hdepth' => ?_⟩
      exact ⟨(hcomputes.run hdepth).1, (hcomputes.run hdepth').1,
        ends_of_computes hcomputes hdepth, ends_of_computes hcomputes hdepth'⟩
  | error fault =>
      obtain rfl := hfuel fault rfl
      refine .inr ⟨hagree.plain, fun scratch hdepth => ?_⟩
      obtain ⟨hevents, houtcome⟩ := hcomputes.run hdepth
      rw [← hevents, ← Checked.map_eq_error houtcome]

/-! ## All routines -/

/-- What is promised of every routine in place with a declared depth.  Numbers are
no longer than a memory of `sizeLimit` bits can hold. -/
structure NeverLeaks (w : Width) : Prop where
  montMul : ∀ a b m r r' : Limbs w, val m % 2 = 1 → a.length = m.length → b.length = m.length →
    r.length = m.length → r'.length = m.length → w.bits * m.length < sizeLimit →
    GiveSame (Modular.montMul a b m (m.headD 0).negInverse)
      (montMul r a b m (m.headD 0).negInverse) (montMul r' a b m (m.headD 0).negInverse)
      (Modular.montMulDepth m.length)
  mulMod : ∀ a b m r r' : Limbs w, val m % 2 = 1 → a.length = m.length → b.length = m.length →
    r.length = m.length → r'.length = m.length → w.bits * m.length < sizeLimit →
    GiveSame (Modular.mulMod a b m) (mulMod r a b m) (mulMod r' a b m)
      (Modular.mulModDepth m.length)
  sqrMod : ∀ a m r r' : Limbs w, val m % 2 = 1 → a.length = m.length →
    r.length = m.length → r'.length = m.length → w.bits * m.length < sizeLimit →
    GiveSame (Modular.sqrMod a m) (sqrMod r a m) (sqrMod r' a m) (Modular.mulModDepth m.length)
  powerMont : ∀ a e m one r r' : Limbs w, val m % 2 = 1 → a.length = m.length →
    one.length = m.length → r.length = m.length → r'.length = m.length →
    w.bits * m.length < sizeLimit →
    GiveSame (Modular.powerMont a e m (m.headD 0).negInverse one)
      (powerMont r a e m (m.headD 0).negInverse one)
      (powerMont r' a e m (m.headD 0).negInverse one) (Modular.powerMontDepth m.length)
  powerMod : ∀ a e m r r' : Limbs w, val m % 2 = 1 → a.length ≤ m.length →
    r.length = m.length → r'.length = m.length → w.bits * m.length < sizeLimit →
    GiveSame (Modular.powerMod a e m) (powerMod r a e m) (powerMod r' a e m)
      (Modular.powerModDepth m.length)
  /-- The quotient needs its words only if it is not zero. -/
  divRem : ∀ a b q q' r r' : Limbs w, val b ≠ 0 → q.length = q'.length →
    (val b ≤ val a → wordLen a - wordLen b + 1 ≤ q.length) → r.length = b.length →
    r'.length = b.length → w.bits * a.length < sizeLimit →
    GiveSame (Limbs.divRem q.length b.length a b) (divRem q r a b) (divRem q' r' a b)
      (divRemDepth a.length b.length)
  /-- A quotient may also have fewer words, and then need not fit. -/
  divRemAnyRoom : ∀ a b q q' r r' : Limbs w, q.length = q'.length → r.length = r'.length →
    RunAlike (InPlace.divRem q r a b) (InPlace.divRem q' r' a b)
      (divRemDepth a.length b.length)
  modReduce : ∀ a m r r' : Limbs w, val m ≠ 0 → r.length = m.length → r'.length = m.length →
    w.bits * a.length < sizeLimit →
    GiveSame (Limbs.modReduce m.length a m) (modReduce r a m) (modReduce r' a m)
      (divRemDepth a.length m.length)
  strongTest : ∀ (σ : Type) [ByteSource σ] (fuel : Nat) (a : Limbs w) (rounds : Nat)
    (source : σ), w.bits * a.length < sizeLimit →
    DrawSame (Prime.strongTest fuel a rounds source) (strongTest fuel a rounds source)
      (Prime.roundsDepth a.length)
  isPrime : ∀ (fuel : Nat) (a : Limbs w), w.bits * a.length < sizeLimit →
    DrawSame (Prime.isPrime fuel a) (isPrime fuel a) (Prime.isPrimeDepth a.length)
  isSafePrime : ∀ (fuel : Nat) (a : Limbs w), w.bits * a.length < sizeLimit →
    DrawSame (Prime.isSafePrime fuel a) (isSafePrime fuel a) (Prime.isSafePrimeDepth a.length)
  /-- The number is copied to the scratch and divided there. -/
  isSmooth : ∀ (k : Nat) (a : Limbs w), k ≤ FactorBase.size →
    GiveSame (Prime.isSmooth k a) (Trapping.isSmooth k a) (Trapping.isSmooth k a)
      (Prime.isSmoothDepth a.length)
  nextPrime : ∀ (fuel : Nat) (out start : Limbs w) (trials k bitLimit : Nat),
    k ≤ FactorBase.size → trials < sizeLimit → w.bits * out.length < sizeLimit →
    SearchSame (Prime.nextPrime fuel out start trials k bitLimit)
      (nextPrime fuel out start trials k bitLimit) (Prime.nextPrimeDepth out.length k)
  extendPrime : ∀ (σ : Type) [ByteSource σ] (fuel : Nat) (p : Limbs w) (bits : Nat)
    (q : Limbs w) (trials k : Nat) (source : σ), k ≤ FactorBase.size →
    w.bits * p.length < sizeLimit → w.bits * q.length < sizeLimit →
    SearchSame (Prime.extendPrime fuel p bits q trials k source)
      (extendPrime fuel p bits q trials k source)
      (Prime.extendPrimeDepth p.length q.length)

/-- Whatever scratch and result words held before, the result is the same. -/
theorem scratch_never_leaks (w : Width) : NeverLeaks w where
  montMul a b m r r' hodd ha hb hr hr' hbits := by
    obtain ⟨c, h, -⟩ := montMul_agree hodd (isNegInverse_of_odd hodd) ha hb hbits
    exact giveSame_of_follows (fun _ _ h => h.1) h (follows_montMul hr) (follows_montMul hr')
  mulMod a b m r r' hodd ha hb hr hr' hbits := by
    obtain ⟨c, h, -⟩ := mulMod_agree hodd ha hb hbits
    exact giveSame_of_follows (fun _ _ h => h.1) h (follows_mulMod hr) (follows_mulMod hr')
  sqrMod a m r r' hodd ha hr hr' hbits := by
    obtain ⟨c, h, -⟩ := mulMod_agree hodd ha ha hbits
    exact giveSame_of_follows (fun _ _ h => h.1) h (follows_mulMod hr) (follows_mulMod hr')
  powerMont a e m one r r' hodd ha hone hr hr' hbits := by
    obtain ⟨c, h, -⟩ := powerMont_agree hodd (isNegInverse_of_odd hodd) ha hone hbits e
    exact giveSame_of_follows (fun _ _ h => h.1) h (follows_powerMont hr) (follows_powerMont hr')
  powerMod a e m r r' hodd ha hr hr' hbits := by
    obtain ⟨c, h, -⟩ := powerMod_agree hodd ha hbits e
    exact giveSame_of_follows (fun _ _ h => h.1) h (follows_powerMod hr) (follows_powerMod hr')
  divRem a b q q' r r' hb hq hroom hr hr' hbits := by
    have hroom' (hle : val b ≤ val a) : wordLen a + 1 ≤ q.length + wordLen b := by
      have := hroom hle
      omega
    obtain ⟨quotient, rem, h, -⟩ := divRem_agree (mt (wordLen_eq_zero_iff b).mp hb) hroom'
      (words_lt hbits (by omega))
    exact giveSame_of_follows (fun _ _ h => h.1) h (follows_divRem rfl hr)
      (follows_divRem hq.symm hr')
  divRemAnyRoom a b q q' r r' hq hr :=
    runAlike_of_follows (fun _ _ h => h.1) (follows_divRem rfl rfl) (follows_divRem hq.symm hr.symm)
  modReduce a m r r' hm hr hr' hbits := by
    obtain ⟨rem, h⟩ := modReduce_agree (a := a) (mt (wordLen_eq_zero_iff m).mp hm)
      (words_lt hbits (by omega))
    exact giveSame_of_follows (fun _ _ h => h) h (follows_modReduce hr) (follows_modReduce hr')
  strongTest σ _ fuel a rounds source hbits := by
    obtain ⟨out, h, hfuel⟩ := @strongTestFrom_agree w σ _ _ _ a faithful_ask hbits fuel rounds
      source trivial
    exact drawSame_of_follows h hfuel (follows_strongTestFrom ask fuel a rounds source)
  isPrime fuel a hbits :=
    drawSame_of_follows (isPrime_agree hbits fuel) (onlyFuel_primeOutcome fuel a)
      (follows_isPrime fuel a)
  isSafePrime fuel a hbits := by
    obtain ⟨out, h, hfuel⟩ := isSafePrime_agree hbits fuel
    exact drawSame_of_follows h hfuel (follows_isSafePrime fuel a)
  isSmooth k a hk := by
    obtain ⟨answer, h⟩ := isSmooth_agree hk a
    exact giveSame_of_computes h.plain h.trapping h.trapping
  nextPrime fuel out start trials k bitLimit hk htrials hbits := by
    obtain ⟨events, result, h, hfuel⟩ := nextPrime_agree start fuel bitLimit hk hbits htrials
    exact searchSame_of_follows h hfuel (follows_nextPrime fuel start trials k bitLimit hbits)
  extendPrime σ _ fuel p bits q trials k source hk hp hq := by
    obtain ⟨events, result, h, hfuel⟩ := extendPrime_agree fuel trials source hk hp hq
    exact searchSame_of_follows h hfuel (follows_extendPrime fuel p bits q trials source)

/-- On numbers of one word: a product modulo seven, seven divided by three, the
search from eight, and the search for a prime of five bits that is 1 modulo 6. -/
theorem scratch_never_leaks_one_word :
    GiveSame (Modular.montMul [2] [5] ([7] : Limbs .w64) (Word.negInverse 7))
        (montMul [1] [2] [5] [7] (Word.negInverse 7)) (montMul [9] [2] [5] [7] (Word.negInverse 7))
        3 ∧
      GiveSame (Limbs.divRem 1 1 ([7] : Limbs .w64) [3]) (divRem [4] [6] [7] [3])
        (divRem [5] [8] [7] [3]) 3 ∧
      SearchSame (Prime.nextPrime 1 ([0] : Limbs .w64) [8] 5 10 64)
        (nextPrime 1 [0] [8] 5 10 64) 22 ∧
      SearchSame (Prime.extendPrime 1 ([0] : Limbs .w32) 5 [3] 5 10 (Finite.mk [9]))
        (extendPrime 1 [0] 5 [3] 5 10 (Finite.mk [9])) 28 := by
  refine ⟨?_, ?_, ?_, ?_⟩
  · exact (scratch_never_leaks .w64).montMul [2] [5] [7] [1] [9] (by decide) rfl rfl rfl rfl
      (by decide)
  · exact (scratch_never_leaks .w64).divRem [7] [3] [4] [5] [6] [8] (by decide) rfl (by decide)
      rfl rfl (by decide)
  · exact (scratch_never_leaks .w64).nextPrime 1 [0] [8] 5 10 64 (by decide) (by decide)
      (by decide)
  · exact (scratch_never_leaks .w32).extendPrime Finite 1 [0] 5 [3] 5 10 (Finite.mk [9])
      (by decide) (by decide) (by decide)

end CryptoPrimes.InPlace
