import CryptoPrimes.InPlace.Modular
import CryptoPrimes.Trapping.Division

/-!
# Long division in place

Quotient and remainder go into words that the caller hands over, of any number
for the quotient and as many as the divisor has for the remainder.  The quotient
is cleared at the start, on every way through a division; the remainder is
cleared where it is written.  The two buffers from the scratch are written from
end to end before the first quotient word is estimated.
-/

namespace CryptoPrimes.InPlace

open Limbs Trapping

variable {w : Width}

/-- Divide `a`, which is not below `b`, by a divisor of at least two significant
words, through the scratch. -/
def divideLong (quotient : Option (Limbs w)) (r a b : Limbs w) :
    Work w (Option (Limbs w) × Limbs w) := do
  let na := wordLen a
  let nb := wordLen b
  let room ← checkedSize (na + 1)
  Work.withBuffer room fun u =>
    Work.withBuffer nb fun v => do
      let shift := (← wordAt b (← difference nb 1)).leadingZeros
      let v ← write v 0 nb (← slice b 0 nb)
      let v := (← shlCarry v shift).1
      let u ← write u 0 na (← slice a 0 na)
      let shifted ← shlCarry (← slice u 0 na) shift
      let u ← write u 0 na shifted.1
      let u ← setWord u na shifted.2
      let steps ← checkedSize ((← difference na nb) + 1)
      let (u, quotient) ← digitsBelow v steps u quotient
      let rem ← shrCarry (← slice u 0 nb) shift
      let r ← write (cleared r) 0 nb rem.1
      return (((quotient, r), u), v)

/-- Divide by the single word `x`.  A quotient is divided where it lies. -/
def divideWord (quotient : Option (Limbs w)) (r a : Limbs w) (x : Word w) :
    Checked (Option (Limbs w) × Limbs w) := do
  let na := wordLen a
  let part ← slice a 0 na
  match quotient with
  | none =>
    let r ← setWord (cleared r) 0 (← modWord part x)
    return (none, r)
  | some q =>
    let q ← write q 0 na part
    let d ← divWordChecked (← slice q 0 na) x
    let q ← write q 0 na d.1
    let r ← setWord (cleared r) 0 d.2
    return (some q, r)

/-- Quotient, if one is wanted, and remainder. -/
def divide (quotient : Option (Limbs w)) (r a b : Limbs w) :
    Work w (Option (Limbs w) × Limbs w) := do
  require (r.length = b.length) .lengthMismatch
  require (wordLen b ≠ 0) .divisionByZero
  let quotient := quotient.map cleared
  if (← compareAny a b).isLT then
    let r ← write (cleared r) 0 (wordLen a) (← slice a 0 (wordLen a))
    return (quotient, r)
  else if wordLen b = 1 then
    divideWord quotient r a (← wordAt b 0)
  else divideLong quotient r a b

/-- Quotient into `q` and remainder into `r`. -/
def divRem (q r a b : Limbs w) : Work w (Limbs w × Limbs w) := do
  let d ← divide (some q) r a b
  return (d.1.getD [], d.2)

/-- Remainder into `r`. -/
def modReduce (r a m : Limbs w) : Work w (Limbs w) := do
  let d ← divide none r a m
  return d.2

end CryptoPrimes.InPlace
