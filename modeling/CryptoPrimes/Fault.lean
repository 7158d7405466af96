import CryptoPrimes.Width

/-!
# Faults

The routines of this library answer `false`, or return a value, for every input
inside their domain.  A caller that leaves the domain — slices of unequal
length, a divisor of zero, too little scratch — is stopped by a `Fault`.  A
fault carries no result: nothing that was computed before it is reported.

`outOfFuel` is not a fault of the caller.  Rejection sampling runs until its
byte source serves an acceptable block, which no source has to do, so every
computation that samples is given a bound on its attempts and stops here when
the bound is used up.
-/

namespace CryptoPrimes

/-- Why a computation stopped without a result. -/
inductive Fault where
  /-- Operands or buffers that must agree in length do not. -/
  | lengthMismatch
  /-- The scratch area is shorter than the routine needs. -/
  | shortScratch
  /-- An index, a bit position or a table position beyond the end. -/
  | outOfRange
  /-- Division or reduction by zero. -/
  | divisionByZero
  /-- An odd operand is required: it would have an inverse modulo a power of two. -/
  | evenOperand
  /-- A size that does not fit a machine word of 64 bits. -/
  | sizeOverflow
  /-- A sum, difference or product that does not fit its word or double word. -/
  | wordOverflow
  /-- An intermediate value is not what a correct argument would have made it. -/
  | brokenInvariant
  /-- The bound on rejected draws is used up. -/
  | outOfFuel
deriving DecidableEq

/-- A result, or the fault that prevented it. -/
abbrev Checked (α : Type) := Except Fault α

/-- A result is handed on. -/
theorem Checked.ok_bind {α β : Type} (a : α) (next : α → Checked β) :
    (Except.ok a >>= next) = next a := rfl

/-- A result of two steps in turn comes from a result of the first. -/
theorem Checked.bind_eq_ok {α β : Type} {c : Checked α} {next : α → Checked β} {b : β}
    (h : (c >>= next) = .ok b) : ∃ a, c = .ok a ∧ next a = .ok b := by
  cases c with
  | error fault => cases h
  | ok a => exact ⟨a, rfl, h⟩

theorem Checked.map_eq_error {α β : Type} {c : Checked α} {f : α → β} {fault : Fault}
    (h : c.map f = .error fault) : c = .error fault := by
  cases c with
  | error fault' => exact congrArg Except.error (Except.error.inj h)
  | ok a => cases h

theorem Checked.map_eq_ok {α β : Type} {c : Checked α} {f : α → β} {b : β}
    (h : c.map f = .ok b) : ∃ a, c = .ok a ∧ f a = b := by
  cases c with
  | error fault => cases h
  | ok a => exact ⟨a, rfl, Except.ok.inj h⟩

/-- Stop with `fault` unless `p` holds. -/
@[inline] def require (p : Prop) [Decidable p] (fault : Fault) : Checked Unit :=
  if p then .ok () else .error fault

/-- A check that holds is passed. -/
theorem Checked.require_of {p : Prop} [Decidable p] (hp : p) (fault : Fault) :
    require p fault = .ok () := if_pos hp

/-- Machine sizes are 64 bits wide. -/
def sizeLimit : Nat := 2 ^ 64

/-- A size, if it fits the machine. -/
def checkedSize (n : Nat) : Checked Nat :=
  if n < sizeLimit then .ok n else .error .sizeOverflow

end CryptoPrimes
