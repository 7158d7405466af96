import CryptoPrimes.Belt.Hash
import CryptoPrimes.Source

/-!
# A byte generator from the hash

The generator turns a seed into an endless string of octets.  Its key is the
hash of the seed; block `j` of the string is the hash of the key followed by
`j` in sixteen octets.

The last block is kept together with the position up to which it has been read.
A request copies from the block what it still holds, makes the next block when
it holds nothing more, and goes on until it is served.  The copies go by checked
ranges, so requests are `Checked`; `take`, `nextWord32` and `nextWord64` are
their results.
-/

namespace CryptoPrimes.Belt

/-- The state of a generator. -/
structure Generator where
  key : OctetArray digestOctets
  /-- The number of the next block, modulo `2 ^ 128`. -/
  counter : Nat
  /-- The last block. -/
  block : OctetArray digestOctets
  /-- How many octets of the block have been handed out. -/
  position : Nat
deriving DecidableEq

namespace Generator

/-- The seed that stands in for an absent one. -/
def zeroSeed : Octets := List.replicate 32 0

/-- A generator for a seed.  There is no block yet, so none of it is left. -/
def start (seed : Option Octets) : Generator :=
  let key := hash (seed.getD zeroSeed)
  ⟨⟨key.octets, key.length_octets⟩, 0, .zeros digestOctets, digestOctets⟩

/-- A wiped state: a zero key, and a whole block of zeros still to be read. -/
def wiped : Generator := ⟨.zeros digestOctets, 0, .zeros digestOctets, 0⟩

/-! ## Blocks -/

/-- Make the next block. -/
def refill (g : Generator) : Checked Generator := do
  let state ← Hasher.start.checkedUpdate g.key.octets
  let state ← state.checkedUpdate (Octets.ofNat 16 g.counter)
  let digest ← state.checkedFinish
  return ⟨g.key, (g.counter + 1) % 2 ^ 128, ⟨digest.octets, digest.length_octets⟩, 0⟩

/-- Make the next block if nothing is left of the last one. -/
def ready (g : Generator) : Checked Generator :=
  if g.position = digestOctets then g.refill else .ok g

/-- The next `n` octets.  A position beyond the block is a fault as soon as there
is something to serve. -/
def checkedTake (n : Nat) (g : Generator) : Checked (Octets × Generator) :=
  if _hn : n = 0 then .ok ([], g)
  else do
    let g ← g.ready
    if _hposition : g.position < digestOctets then
      let taken := min (digestOctets - g.position) n
      let head ← g.block.octets.slice g.position (g.position + taken)
      let (rest, g) ← checkedTake (n - taken) { g with position := g.position + taken }
      return (head ++ rest, g)
    else .error .outOfRange
termination_by n
decreasing_by omega

theorem length_checkedTake {n : Nat} {g next : Generator} {octets : Octets}
    (h : g.checkedTake n = .ok (octets, next)) : octets.length = n := by
  induction n using Nat.strongRecOn generalizing g octets with
  | ind n ih =>
      rw [checkedTake] at h
      split at h
      · next hzero =>
          cases h
          exact hzero.symm
      · next hn =>
          obtain ⟨g', -, h⟩ := Checked.bind_eq_ok h
          split at h
          · next hposition =>
              obtain ⟨head, hhead, h⟩ := Checked.bind_eq_ok h
              obtain ⟨⟨rest, g''⟩, hrest, h⟩ := Checked.bind_eq_ok h
              cases h
              rw [List.length_append, Octets.length_slice hhead, ih _ (by omega) hrest]
              omega
          · cases h

/-! ## Requests -/

/-- The next `n` octets, for callers that reckon with a refusal. -/
def tryTake (g : Generator) (n : Nat) : Checked (Option Octets × Generator) := do
  let (octets, g) ← g.checkedTake n
  return (some octets, g)

/-- The next four octets as a number, the lowest first. -/
def checkedWord32 (g : Generator) : Checked (UInt32 × Generator) := do
  let (octets, g) ← g.checkedTake 4
  return (UInt32.ofNat (Octets.val octets), g)

/-- The next eight octets as a number, the lowest first. -/
def checkedWord64 (g : Generator) : Checked (UInt64 × Generator) := do
  let (octets, g) ← g.checkedTake 8
  return (UInt64.ofNat (Octets.val octets), g)

/-- The next `n` octets; a state that faults gives none and stays as it is. -/
def take (n : Nat) (g : Generator) : Octets × Generator :=
  (g.checkedTake n).toOption.getD ([], g)

/-- The next four octets as a number; a state that faults gives zero and stays as
it is. -/
def nextWord32 (g : Generator) : UInt32 × Generator :=
  g.checkedWord32.toOption.getD (0, g)

/-- The next eight octets as a number; a state that faults gives zero and stays
as it is. -/
def nextWord64 (g : Generator) : UInt64 × Generator :=
  g.checkedWord64.toOption.getD (0, g)

/-- What is shown of a generator. -/
def masked : String := "StbPrng(***)"

theorem length_tryTake {n : Nat} {g next : Generator} {octets : Octets}
    (h : g.tryTake n = .ok (some octets, next)) : octets.length = n := by
  obtain ⟨⟨served, g'⟩, hserved, h⟩ := Checked.bind_eq_ok h
  cases h
  exact length_checkedTake hserved

instance : OctetRng Generator := ⟨tryTake, length_tryTake⟩

/-- A state that faults refuses. -/
instance : ByteSource Generator where
  request g n := (g.tryTake n).toOption.getD (none, g)
  length_request := by
    intro g n octets h
    cases htake : g.tryTake n with
    | error fault =>
        rw [htake] at h
        cases h
    | ok answer =>
        rw [htake] at h
        obtain ⟨served, next⟩ := answer
        have h : served = some octets := h
        subst h
        exact length_tryTake htake

end Generator

end CryptoPrimes.Belt
