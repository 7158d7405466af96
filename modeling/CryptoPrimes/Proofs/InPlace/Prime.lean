import CryptoPrimes.InPlace.Prime
import CryptoPrimes.Proofs.InPlace.Modular
import CryptoPrimes.Proofs.Trapping.Test

/-!
# Prime tests in place follow their form on values

Witness, power and product go from round to round with what the last one left in
them.  Each is overwritten before it is read: the witness by a draw, which ends
the test if the source cuts it short, the product and the power by the two
Montgomery routines that begin a round.  So a round is related to a round on
values for any contents, and hands on contents of which nothing is known but
their lengths (`Decides`).
-/

namespace CryptoPrimes.InPlace

open Limbs CryptoPrimes.Modular Trapping

variable {w : Width} {σ : Type} {a m r : Limbs w} {n : Nat}

/-! ## Samples -/

theorem follows_trimBits (bits : Nat) (ha : a.length = n) :
    Checked.Follows (Same n) (Trapping.trimBits a bits) (Trapping.trimBits a bits) := by
  unfold Trapping.trimBits
  dsimp only
  split
  · exact .result ⟨rfl, ha⟩
  · refine .same_bind fun x => ?_
    refine .bind (follows_setWord _ _ ha) ?_
    rintro b _ ⟨rfl, hb⟩
    refine .same_bind fun next => ?_
    exact follows_write _ _ _ hb

/-- A draw into `n` words: they hold what is drawn, or anything if the source has
failed. -/
def Draws (n : Nat) (p : (Bool × Limbs w) × σ) (p' : Option (Limbs w) × σ) : Prop :=
  p'.1 = (if p.1.1 then some p.1.2 else none) ∧ p.2 = p'.2 ∧ p.1.2.length = n

section

variable (request : σ → Nat → Checked (Option Octets × σ))

theorem follows_drawWords (r : Limbs w) (source : σ) :
    Checked.Follows (Draws r.length) (drawWords request r source)
      (Trapping.drawWords request r.length source) := by
  induction r generalizing source with
  | nil => exact .result ⟨rfl, rfl, rfl⟩
  | cons x xs ih =>
      rw [List.length_cons]
      unfold drawWords Trapping.drawWords
      refine .bind (.refl _) ?_
      rintro ⟨answer, source⟩ _ rfl
      cases answer with
      | none => exact .result ⟨rfl, rfl, rfl⟩
      | some octets =>
          refine (ih source).bind ?_
          rintro ⟨⟨served, rest⟩, source⟩ ⟨draw, _⟩ ⟨hdraw, rfl, hlength⟩
          have hlength : rest.length = xs.length := hlength
          obtain rfl : draw = if served then some rest else none := hdraw
          refine .result ⟨?_, rfl, congrArg (· + 1) hlength⟩
          cases served <;> rfl

theorem follows_sample (bits fuel : Nat) (hr : r.length = m.length) (source : σ) :
    Checked.Follows (Draws m.length) (sample request m bits fuel r source)
      (Trapping.sample request m bits fuel source) := by
  induction fuel generalizing r source with
  | zero => exact .fault _ _
  | succ fuel ih =>
      have hdraw := follows_drawWords request r source
      rw [hr] at hdraw
      unfold sample Trapping.sample
      refine hdraw.bind ?_
      rintro ⟨⟨served, block⟩, source⟩ ⟨draw, _⟩ ⟨hdraw, rfl, hblock⟩
      obtain rfl : draw = if served then some block else none := hdraw
      cases served with
      | false => exact .result ⟨rfl, rfl, hblock⟩
      | true =>
          refine (follows_trimBits bits hblock).bind ?_
          rintro x _ ⟨rfl, hx⟩
          refine .same_bind fun order => ?_
          split
          · exact .result ⟨rfl, rfl, hx⟩
          · exact ih hx source

theorem follows_sampleBelow (fuel : Nat) (hr : r.length = n) (m : Limbs w) (source : σ) :
    Checked.Follows (Draws n) (sampleBelow request fuel r m source)
      (Trapping.sampleBelow request fuel n m source) := by
  unfold sampleBelow Trapping.sampleBelow
  rw [hr]
  refine (follows_require _).bind ?_
  rintro _ _ rfl
  split
  · exact .result ⟨rfl, rfl, hr⟩
  · refine .same_bind fun bits => ?_
    exact follows_sample request bits fuel hr source

end

/-! ## One round -/

/-- The fields of a candidate are written each to a part of the buffer. -/
theorem follows_candidateOfOdd {buffer : Limbs w} (hbuffer : buffer.length = 8 * a.length) :
    Checked.Follows (fun c c' => c = c' ∧ c.modulus = a) (candidateOfOdd buffer a)
      (Trapping.candidateOfOdd a) := by
  unfold candidateOfOdd Trapping.candidateOfOdd
  dsimp only
  rw [subWord_eq (length_part hbuffer (by decide)), subWord_eq (length_part hbuffer (by decide)),
    subWordTo_eq, subWordTo_eq]
  simp only [Checked.ok_bind]
  refine .same_bind fun twos => .same_bind fun oddPart => ?_
  refine .same_bind fun lowest => .same_bind fun m0 => ?_
  refine (follows_radixSquareMod (length_part hbuffer (by decide))).bind ?_
  rintro radixSquare _ ⟨rfl, -⟩
  refine (follows_radixMod (length_part hbuffer (by decide))).bind ?_
  rintro one _ ⟨rfl, -⟩
  rw [sub_eq, length_part hbuffer (by decide)]
  refine .same_bind fun minusOne => ?_
  exact .result ⟨rfl, rfl⟩

/-- What a test answers, and that its two working numbers keep their lengths. -/
def Decides (n : Nat) (p : Bool × Limbs w × Limbs w) (answer : Bool) : Prop :=
  p.1 = answer ∧ p.2.1.length = n ∧ p.2.2.length = n

theorem follows_reachesMinusOne (c : Prime.Candidate w) (count : Nat) {y t : Limbs w}
    (hy : y.length = c.modulus.length) (ht : t.length = c.modulus.length) :
    Work.Follows (montMulDepth c.modulus.length) (Decides c.modulus.length)
      (reachesMinusOne c count y t) (Trapping.reachesMinusOne c count y) := by
  induction count generalizing y t with
  | zero => exact Work.follows_pure ⟨rfl, hy, ht⟩
  | succ count ih =>
      unfold reachesMinusOne Trapping.reachesMinusOne
      rw [store_eq (hy.trans ht.symm), Work.ok_bind]
      refine (follows_montMul hy).bind ?_
      rintro square _ ⟨rfl, hsquare⟩
      refine .same_bind fun isMinusOne => ?_
      split
      · exact Work.follows_pure ⟨rfl, hsquare, hy⟩
      · refine .same_bind fun isOne => ?_
        split
        · exact Work.follows_pure ⟨rfl, hsquare, hy⟩
        · exact ih hsquare hy

theorem follows_passes (c : Prime.Candidate w) (witness : Limbs w) {y t : Limbs w}
    (hy : y.length = c.modulus.length) (ht : t.length = c.modulus.length) :
    Work.Follows (powerMontDepth c.modulus.length) (Decides c.modulus.length)
      (passes c witness y t) (Trapping.passes c witness) := by
  have hle : montMulDepth c.modulus.length ≤ powerMontDepth c.modulus.length :=
    Nat.le_add_left _ _
  unfold passes Trapping.passes
  refine ((follows_montMul ht).mono hle).bind ?_
  rintro t _ ⟨rfl, ht⟩
  refine (follows_powerMont hy).bind ?_
  rintro y _ ⟨rfl, hy⟩
  refine .same_bind fun isOne => ?_
  split
  · exact Work.follows_pure ⟨rfl, hy, ht⟩
  · refine .same_bind fun isMinusOne => ?_
    split
    · exact Work.follows_pure ⟨rfl, hy, ht⟩
    · exact (follows_reachesMinusOne c _ hy ht).mono hle

/-! ## All rounds -/

section

variable (request : σ → Nat → Checked (Option Octets × σ))

theorem follows_runRounds (fuel : Nat) (c : Prime.Candidate w) (rounds : Nat) {x y t : Limbs w}
    (hx : x.length = c.modulus.length) (hy : y.length = c.modulus.length)
    (ht : t.length = c.modulus.length) (source : σ) :
    Work.Follows (powerMontDepth c.modulus.length) (fun p p' => p.1 = p')
      (runRounds request fuel c rounds x y t source)
      (Trapping.runRounds request fuel c rounds source) := by
  induction rounds generalizing x y t source with
  | zero => exact Work.follows_pure rfl
  | succ rounds ih =>
      unfold runRounds Trapping.runRounds
      refine .lift_bind (follows_sampleBelow request fuel hx c.bound source) ?_
      rintro ⟨⟨served, x⟩, source⟩ ⟨draw, _⟩ ⟨hdraw, rfl, hx⟩
      obtain rfl : draw = if served then some x else none := hdraw
      cases served with
      | false => exact Work.follows_pure rfl
      | true =>
          refine (follows_passes c _ hy ht).bind ?_
          rintro ⟨passed, y, t⟩ _ ⟨rfl, hy, ht⟩
          dsimp only
          split
          · exact ih ((length_addWord x 2).trans hx) hy ht source
          · exact Work.follows_pure rfl

theorem follows_strongTestFrom (fuel : Nat) (a : Limbs w) (rounds : Nat) (source : σ) :
    Work.Follows (Prime.roundsDepth a.length) Eq (strongTestFrom request fuel a rounds source)
      (Trapping.strongTestFrom request fuel a rounds source) := by
  unfold strongTestFrom Trapping.strongTestFrom
  split
  · refine .same_bind fun answer => ?_
    exact Work.follows_pure rfl
  refine .same_bind fun lowest => ?_
  split
  · exact Work.follows_pure rfl
  refine .withBuffer fun buffer _ hbuffer _ => ?_
  refine .lift_bind (follows_candidateOfOdd hbuffer) ?_
  rintro c _ ⟨rfl, rfl⟩
  refine (follows_runRounds request fuel c rounds (length_part hbuffer (by decide))
    (length_part hbuffer (by decide)) (length_part hbuffer (by decide)) source).bind ?_
  rintro p _ rfl
  exact Work.follows_pure rfl

end

/-! ## The prime test -/

theorem follows_testWords (fuel : Nat) (a : Limbs w) :
    Work.Follows (Prime.isPrimeDepth a.length) Eq (testWords fuel a)
      (Trapping.testWords fuel a) := by
  unfold testWords Trapping.testWords
  refine .same_bind fun lowest => ?_
  split
  · exact Work.follows_pure rfl
  refine .same_bind fun sieved => ?_
  split
  · exact Work.follows_pure rfl
  refine .same_bind fun bits => .same_bind fun source => ?_
  refine (follows_strongTestFrom _ fuel a _ source).bind ?_
  rintro result _ rfl
  exact Work.follows_pure rfl

theorem follows_isPrime (fuel : Nat) (a : Limbs w) :
    Work.Follows (Prime.isPrimeDepth a.length) Eq (isPrime fuel a) (Trapping.isPrime fuel a) := by
  have hle : (trim a).length ≤ a.length := (length_trim a).trans_le (wordLen_le_length a)
  unfold isPrime Trapping.isPrime
  rw [slice_significant, Work.ok_bind, Work.ok_bind]
  generalize trim a = part at *
  match part with
  | [] => exact Work.follows_pure rfl
  | [x] => exact Work.follows_lift (.refl _)
  | x :: y :: ys => exact (follows_testWords fuel _).mono (Prime.isPrimeDepth_le hle)

theorem follows_isSafePrime (fuel : Nat) (a : Limbs w) :
    Work.Follows (Prime.isSafePrimeDepth a.length) Eq (isSafePrime fuel a)
      (Trapping.isSafePrime fuel a) := by
  unfold isSafePrime Trapping.isSafePrime
  refine .withBuffer fun half buffer hhalf hbuffer => ?_
  refine (follows_isPrime fuel a).bind ?_
  rintro answer _ rfl
  split
  · rw [store_eq hhalf.symm, write_whole hbuffer rfl, Work.ok_bind, Work.ok_bind, shiftRight_eq,
      Work.ok_bind, Work.ok_bind]
    have hlength : (Limbs.shiftRight (Limbs.subWord a 1).1 1).length = a.length := by
      rw [length_shiftRight, length_subWord]
    have hsecond := follows_isPrime fuel (Limbs.shiftRight (Limbs.subWord a 1).1 1)
    rw [hlength] at hsecond
    refine hsecond.bind ?_
    rintro answer _ rfl
    exact Work.follows_pure rfl
  · exact Work.follows_pure rfl

end CryptoPrimes.InPlace
