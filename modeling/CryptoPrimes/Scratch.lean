import CryptoPrimes.Limbs.Basic

/-!
# Scratch memory

No routine allocates.  Working memory is a sequence of words handed in by the
caller; a routine takes its buffers from the front, passes the rest on to the
routines it calls, and returns the words to their place when it is done.  A
computation in `Work w` is therefore a function of the scratch words, which
also says what it leaves in them.

* `withBuffer` claims a buffer from the front and faults if the scratch is too
  short.  The buffer arrives holding whatever earlier use has left there: a
  routine that wants zeros clears it.
* When the body ends, its buffer goes back with the contents the body reports,
  and the words behind it with what the body did to them.  `overwrite` keeps the
  length of what it writes on, so scratch never shrinks or grows.
-/

namespace CryptoPrimes

/-- A computation over the scratch words of its caller. -/
abbrev Work (w : Width) := StateT (Limbs w) (Except Fault)

namespace Limbs

variable {w : Width}

/-- As many zero words. -/
def cleared (a : Limbs w) : Limbs w := a.map fun _ => 0

/-- The words of `target` with the lowest ones replaced by those of `source`,
as far as there is room. -/
def overwrite : Limbs w → Limbs w → Limbs w
  | [], _ => []
  | target, [] => target
  | _ :: target, x :: source => x :: overwrite target source

@[simp] theorem length_overwrite (target source : Limbs w) :
    (overwrite target source).length = target.length := by
  induction target generalizing source with
  | nil => simp [overwrite]
  | cons y ys ih => cases source <;> simp [overwrite, ih]

/-- The `i`-th of the parts of `n` words that a buffer is cut into. -/
def part (a : Limbs w) (n i : Nat) : Limbs w := (a.drop (i * n)).take n

end Limbs

namespace Work

variable {w : Width} {α : Type}

/-- Run `body` on a buffer of `n` words from the front of the scratch.  The body
returns its result and what it leaves in the buffer. -/
def withBuffer (n : Nat) (body : Limbs w → Work w (α × Limbs w)) : Work w α := fun scratch =>
  if n ≤ scratch.length then
    match body (scratch.take n) (scratch.drop n) with
    | .ok ((result, contents), rest) =>
      .ok (result, Limbs.overwrite (scratch.take n) contents ++ rest)
    | .error fault => .error fault
  else .error .shortScratch

/-- Cut buffers of the given lengths from the front of the scratch; also what
remains. -/
def split : List Nat → Limbs w → Checked (List (Limbs w) × Limbs w)
  | [], scratch => .ok ([], scratch)
  | n :: sizes, scratch => do
    require (n ≤ scratch.length) .shortScratch
    let (buffers, rest) ← split sizes (scratch.drop n)
    return (scratch.take n :: buffers, rest)

end Work

end CryptoPrimes
