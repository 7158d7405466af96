import CryptoPrimes.Prime.Params
import CryptoPrimes.Proofs.Prime.Extend

/-!
# Searches behind their checks

A search run through parameters either refuses, with an error that names the
cause, or is the raw search.  `ChecksFirst` states what that means: which error
comes when, that a refusal reports nothing and returns the result, the source
and the scratch as they were given, and that the rest is the raw search with
nothing added.

`behindChecks_checksFirst` proves it of any search that can only run out of fuel
once its checks are passed.  A search that finds what it should is such
(`nextPrimeBy_checksFirst`, `extendPrimeBy_checksFirst`), and the words it needs can be
counted whenever the parameters are valid and the bits of the operands can be
(`nextPrimeDepth_lt`, `extendPrimeDepth_lt`).
-/

namespace CryptoPrimes.Prime

open Limbs

variable {w : Width}

variable {σ : Type}

/-! ## Sizes -/

theorem fullWidth_eq {n : Nat} (h : w.bits * n < sizeLimit) :
    SearchParams.fullWidth w n = n * w.bits := by
  rw [Nat.mul_comm] at h
  exact Nat.min_eq_left (by omega)

theorem nextPrimeDepth_lt {n k : Nat} (hk : k ≤ FactorBase.size)
    (hn : w.bits * n < sizeLimit) : nextPrimeDepth n k < sizeLimit := by
  have hlt := length_lt_of_bits hn
  simp only [nextPrimeDepth, isPrimeDepth, roundsDepth, Modular.powerMontDepth,
    Modular.montMulDepth, FactorBase.size, sizeLimit] at *
  omega

theorem extendPrimeDepth_lt {n nq : Nat} (hn : w.bits * n < sizeLimit)
    (hq : w.bits * nq < sizeLimit) : extendPrimeDepth n nq < sizeLimit := by
  have hltn := length_lt_of_bits hn
  have hltq := length_lt_of_bits hq
  simp only [extendPrimeDepth, workingWords, divRemDepth, isPrimeDepth, roundsDepth,
    Modular.powerMontDepth, Modular.montMulDepth, sizeLimit] at *
  omega

namespace SearchParams

/-! ## Validity -/

/-- Parameters that a search accepts. -/
def Valid (params : SearchParams) : Prop :=
  params.trials ≠ 0 ∧ params.sievePrimes ≤ FactorBase.size

theorem validate_of_valid {params : SearchParams} (h : params.Valid) :
    params.validate = .ok () := by
  unfold validate
  rw [if_neg h.1, if_neg (not_lt.mpr h.2)]

/-- Other parameters are refused for what is wrong with them. -/
theorem validate_of_not_valid {params : SearchParams} (h : ¬ params.Valid) :
    ∃ cause, params.validate = .error (.invalidParameter cause) := by
  unfold validate
  by_cases htrials : params.trials = 0
  · exact ⟨.noTrials, by rw [if_pos htrials]⟩
  · have hdeep : FactorBase.size < params.sievePrimes :=
      not_le.mp fun hle => h ⟨htrials, hle⟩
    exact ⟨_, by rw [if_neg htrials, if_pos hdeep]⟩

theorem validateFor_of_valid {params : SearchParams} {bits n : Nat}
    (h : params.Valid ∧ bits ≤ n * w.bits) (hn : w.bits * n < sizeLimit) :
    params.validateFor w bits n = .ok () := by
  unfold validateFor
  rw [validate_of_valid h.1, fullWidth_eq hn, if_neg (not_lt.mpr h.2)]
  rfl

theorem validateFor_of_not_valid {params : SearchParams} {bits n : Nat}
    (h : ¬ (params.Valid ∧ bits ≤ n * w.bits)) (hn : w.bits * n < sizeLimit) :
    ∃ cause, params.validateFor w bits n = .error (.invalidParameter cause) := by
  unfold validateFor
  by_cases hvalid : params.Valid
  · have hlong : n * w.bits < bits := not_le.mp fun hle => h ⟨hvalid, hle⟩
    exact ⟨.tooManyBits bits n, by
      rw [validate_of_valid hvalid, fullWidth_eq hn, if_pos hlong]
      rfl⟩
  · obtain ⟨cause, hcause⟩ := validate_of_not_valid hvalid
    exact ⟨cause, by rw [hcause]; rfl⟩

/-! ## Refusals -/

variable {α : Type}

/-- A search that was refused: nothing is reported, and result and scratch are
returned as they were given. -/
def refusal (given : α) (scratch : Limbs w) (e : Error) : Report w (Except Error Bool × α) :=
  ⟨[], .ok ((.error e, given), scratch)⟩

/-- A search that was let through. -/
def accepted (raw : Report w (Bool × α)) : Report w (Except Error Bool × α) :=
  raw.map fun r => (.ok r.1, r.2)

/-- Refusals differ by their errors, and none is the raw search. -/
theorem refusal_inj {given : α} {scratch : Limbs w} {e e' : Error} :
    refusal given scratch e = refusal given scratch e' ↔ e = e' := by
  simp [refusal]

theorem accepted_ne_refusal {given : α} {scratch : Limbs w} {e : Error}
    (raw : Report w (Bool × α)) : accepted raw ≠ refusal given scratch e := by
  intro h
  have houtcome : raw.outcome.map (fun x => ((Except.ok x.1.1, x.1.2), x.2)) =
      .ok ((.error e, given), scratch) := congrArg Report.outcome h
  obtain ⟨x, -, hx⟩ := Checked.map_eq_ok houtcome
  exact absurd (congrArg (fun y => y.1.1) hx) (by simp)

theorem behindChecks_refused {e : Error} (needed : Nat) (given : α)
    (search : Search w (Bool × α)) (scratch : Limbs w) :
    (behindChecks (.error e) needed given search).run scratch = refusal given scratch e := rfl

theorem behindChecks_short {needed : Nat} (hsize : needed < sizeLimit) (given : α)
    (search : Search w (Bool × α)) {scratch : Limbs w} (hshort : scratch.length < needed) :
    (behindChecks (.ok ()) needed given search).run scratch =
      refusal given scratch (.scratchTooSmall needed scratch.length) := by
  have hcheck : checkScratch needed scratch =
      .error (.scratchTooSmall needed scratch.length) := if_pos hshort
  unfold behindChecks
  dsimp only
  rw [Search.ensure_bind hsize, Search.run_get]
  dsimp only
  rw [hcheck]
  rfl

theorem behindChecks_passed {needed : Nat} (hsize : needed < sizeLimit) (given : α)
    (search : Search w (Bool × α)) {scratch : Limbs w} (hroom : needed ≤ scratch.length) :
    (behindChecks (.ok ()) needed given search).run scratch =
      accepted (search.run scratch) := by
  have hcheck : checkScratch needed scratch = .ok () := if_neg (not_lt.mpr hroom)
  unfold behindChecks
  dsimp only
  rw [Search.ensure_bind hsize, Search.run_get]
  dsimp only
  rw [hcheck]
  exact Search.run_map search (fun r => ((.ok r.1 : Except Error Bool), r.2)) scratch

/-- What a search behind its checks reports, on scratch of which `needed` words are
required: a refusal for invalid parameters, then one for scratch that is too
short, and otherwise the raw search, which has its fuel to run out of and no
other fault. -/
structure ChecksFirst (valid : Prop) (needed : Nat) (given : α) (scratch : Limbs w)
    (raw : Report w (Bool × α)) (report : Report w (Except Error Bool × α)) : Prop where
  invalid_iff : (∃ cause, report = refusal given scratch (.invalidParameter cause)) ↔ ¬ valid
  short_iff : ∀ n available, report = refusal given scratch (.scratchTooSmall n available) ↔
    valid ∧ scratch.length < needed ∧ n = needed ∧ available = scratch.length
  accepted_iff : report = accepted raw ↔ valid ∧ needed ≤ scratch.length
  fault_eq : ∀ fault, report.outcome = .error fault → fault = .outOfFuel

/-- Running a search behind its checks reports just that. -/
theorem behindChecks_checksFirst {valid : Prop} {validity : Except Error Unit} {needed : Nat}
    (given : α) (search : Search w (Bool × α)) (scratch : Limbs w)
    (hvalid : valid → validity = .ok () ∧ needed < sizeLimit)
    (hinvalid : ¬ valid → ∃ cause, validity = .error (.invalidParameter cause))
    (hfault : valid → needed ≤ scratch.length → ∀ fault,
      (search.run scratch).outcome = .error fault → fault = .outOfFuel) :
    ChecksFirst valid needed given scratch (search.run scratch)
      ((behindChecks validity needed given search).run scratch) := by
  by_cases h : valid
  · obtain ⟨rfl, hsize⟩ := hvalid h
    rcases Nat.lt_or_ge scratch.length needed with hshort | hroom
    · rw [behindChecks_short hsize given search hshort]
      refine ⟨?_, ?_, ?_, fun fault herror => nomatch herror⟩
      · simp [refusal_inj, h]
      · intro n available
        rw [refusal_inj, Error.scratchTooSmall.injEq]
        exact ⟨fun heq => ⟨h, hshort, heq.1.symm, heq.2.symm⟩,
          fun heq => ⟨heq.2.2.1.symm, heq.2.2.2.symm⟩⟩
      · exact iff_of_false (accepted_ne_refusal _).symm fun heq => absurd hshort (not_lt.mpr heq.2)
    · rw [behindChecks_passed hsize given search hroom]
      refine ⟨?_, ?_, iff_of_true rfl ⟨h, hroom⟩, ?_⟩
      · exact iff_of_false (fun ⟨_, heq⟩ => accepted_ne_refusal _ heq) (fun hnot => hnot h)
      · exact fun n available => iff_of_false (accepted_ne_refusal _)
          (fun heq => absurd heq.2.1 (not_lt.mpr hroom))
      · exact fun fault herror => hfault h hroom fault (Checked.map_eq_error herror)
  · obtain ⟨cause, rfl⟩ := hinvalid h
    rw [behindChecks_refused]
    refine ⟨iff_of_true ⟨cause, rfl⟩ h, ?_, ?_, fun fault herror => nomatch herror⟩
    · simp [refusal_inj, h]
    · exact iff_of_false (accepted_ne_refusal _).symm fun heq => h heq.1

/-! ## Both searches -/

/-- What the upward search reports, run through parameters: what it reports without them,
but for the checks.  No bit limit means the full width of the result. -/
def NextChecksFirst (search : UpwardSearch w) (params : SearchParams) (fuel : Nat)
    (out start scratch : Limbs w) (report : Report w (Except Error Bool × Limbs w)) : Prop :=
  ChecksFirst params.Valid (params.nextPrimeDepth out.length) out scratch
    ((search fuel out start params.trials params.sievePrimes
      (params.bitLimit.getD (out.length * w.bits))).run scratch) report

/-- The same of the search for a prime with a given factor.  A length beyond the words of
`p` is not valid either. -/
def ExtendChecksFirst (search : FactorSearch w σ) (params : SearchParams) (fuel : Nat)
    (p : Limbs w) (bits : Nat) (q : Limbs w) (source : σ) (scratch : Limbs w)
    (report : Report w (Except Error Bool × Limbs w × σ)) : Prop :=
  ChecksFirst (params.Valid ∧ bits ≤ p.length * w.bits) (extendPrimeDepth p.length q.length)
    (p, source) scratch
    (((search fuel p bits q params.trials params.sievePrimes source).run scratch).map
      fun r => (r.1.1, r.1.2, r.2)) report

/-- An upward search that finds what it should has its checks first. -/
theorem nextPrimeBy_checksFirst {search : UpwardSearch w} {params : SearchParams} {fuel : Nat}
    {out start scratch : Limbs w} {tested : List Nat} (hout : w.bits * out.length < sizeLimit)
    (hfinds : params.Valid → params.nextPrimeDepth out.length ≤ scratch.length →
      FindsNext fuel out start scratch tested
        ((search fuel out start params.trials params.sievePrimes
          (params.bitLimit.getD (out.length * w.bits))).run scratch)) :
    NextChecksFirst search params fuel out start scratch
      ((nextPrimeBy search params fuel out start).run scratch) := by
  rw [nextPrimeBy, fullWidth_eq hout]
  refine behindChecks_checksFirst out _ scratch ?_ validate_of_not_valid ?_
  · exact fun hvalid => ⟨validate_of_valid hvalid, nextPrimeDepth_lt hvalid.2 hout⟩
  · exact fun hvalid hdepth => (hfinds hvalid hdepth).fault_eq

/-- A search for a prime with a given factor that finds what it should has its checks
first. -/
theorem extendPrimeBy_checksFirst {search : FactorSearch w σ} {params : SearchParams}
    {fuel bits : Nat} {p q scratch : Limbs w} {source : σ} {number : Limbs w → Nat}
    {drawn : List (Limbs w) × Checked Bool}
    (hp : w.bits * p.length < sizeLimit) (hq : w.bits * q.length < sizeLimit)
    (hfinds : params.Valid → extendPrimeDepth p.length q.length ≤ scratch.length →
      FindsWithFactor fuel params.sievePrimes p bits q params.trials number drawn
        ((search fuel p bits q params.trials params.sievePrimes source).run scratch)) :
    ExtendChecksFirst search params fuel p bits q source scratch
      ((extendPrimeBy search params fuel p bits q source).run scratch) := by
  rw [ExtendChecksFirst, ← Search.run_map]
  refine behindChecks_checksFirst (p, source) _ scratch ?_ ?_ ?_
  · exact fun hvalid => ⟨validateFor_of_valid hvalid hp, extendPrimeDepth_lt hp hq⟩
  · exact fun hvalid => validateFor_of_not_valid hvalid hp
  · intro hvalid hdepth fault h
    rw [Search.run_map] at h
    exact ((hfinds hvalid.1 hdepth).unanswered fault (Checked.map_eq_error h)).1

end SearchParams

end CryptoPrimes.Prime
