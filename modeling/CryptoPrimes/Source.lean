import CryptoPrimes.Limbs.Octets

/-!
# Byte sources

Random numbers come from a byte source: a state that answers a request for `n`
octets either with exactly `n` octets or not at all.  A refusal means that the
source is exhausted, and the routines that draw from it give up.

`Finite` serves a given octet string in order and refuses to serve more than is
left, which then stays where it is.  `Metered` counts what another source has
served.  `RngSource` makes a source of any random number generator.
-/

namespace CryptoPrimes

/-- States of type `σ` that octets can be requested from. -/
class ByteSource (σ : Type) where
  /-- The answer to a request for so many octets, and the state after it. -/
  request : σ → Nat → Option Octets × σ
  /-- A request is served in full or not at all. -/
  length_request : ∀ {s n octets}, (request s n).1 = some octets → octets.length = n

/-- A source that serves a fixed octet string. -/
structure Finite where
  remaining : Octets

namespace Finite

/-- Serve `n` octets if there are as many. -/
def request (s : Finite) (n : Nat) : Option Octets × Finite :=
  if n ≤ s.remaining.length then (some (s.remaining.take n), ⟨s.remaining.drop n⟩) else (none, s)

instance : ByteSource Finite where
  request := request
  length_request := by
    intro s n octets h
    unfold request at h
    split at h
    · simp only [Option.some.injEq] at h
      rw [← h, List.length_take]
      omega
    · simp at h

end Finite

/-- A source, and how many octets it has served. -/
structure Metered (σ : Type) where
  source : σ
  served : Nat

namespace Metered

variable {σ : Type} [ByteSource σ]

/-- Pass a request on and count the octets served. -/
def request (s : Metered σ) (n : Nat) : Option Octets × Metered σ :=
  match ByteSource.request s.source n with
  | (some octets, rest) => (some octets, ⟨rest, s.served + n⟩)
  | (none, rest) => (none, ⟨rest, s.served⟩)

instance : ByteSource (Metered σ) where
  request := request
  length_request := by
    intro s n octets h
    apply ByteSource.length_request (s := s.source)
    unfold request at h
    split at h <;> simp_all

end Metered

/-- Random number generators of type `ρ`, as far as sources need them: a request
for octets is served in full, or refused, or faults. -/
class OctetRng (ρ : Type) where
  /-- The answer to a request for so many octets, and the state after it. -/
  tryFill : ρ → Nat → Checked (Option Octets × ρ)
  length_tryFill : ∀ {r n octets next}, tryFill r n = .ok (some octets, next) → octets.length = n

/-- A random number generator as a byte source. -/
structure RngSource (ρ : Type) where
  rng : ρ
deriving DecidableEq

namespace RngSource

variable {ρ : Type} [OctetRng ρ]

/-- Pass a request on. -/
def fill (s : RngSource ρ) (n : Nat) : Checked (Option Octets × RngSource ρ) := do
  let (octets, rng) ← OctetRng.tryFill s.rng n
  return (octets, ⟨rng⟩)

/-- A request that faults is refused. -/
instance : ByteSource (RngSource ρ) where
  request s n := (s.fill n).toOption.getD (none, s)
  length_request := by
    intro s n octets h
    cases hfill : s.fill n with
    | error fault =>
        rw [hfill] at h
        cases h
    | ok answer =>
        obtain ⟨⟨served, rng⟩, hserved, hanswer⟩ := Checked.bind_eq_ok hfill
        rw [hfill, ← Except.ok.inj hanswer] at h
        have h : served = some octets := h
        subst h
        exact OctetRng.length_tryFill hserved

end RngSource

end CryptoPrimes
