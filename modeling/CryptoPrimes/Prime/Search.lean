import CryptoPrimes.Scratch

/-!
# Searches and their events

A search reports what it does as it goes along.  `Event` lists what can be
reported, with the numbers that belong to it; level, wording and field names are
given here and nowhere else.

A computation in `Search w` works on scratch words, as one in `Work w` does, and
also collects events.  When it faults, the events up to the fault remain: they
have already been seen.
-/

namespace CryptoPrimes

/-- How loud an event is. -/
inductive Level where
  | debug
  | trace
deriving DecidableEq

/-- The name of a level. -/
def Level.name : Level → String
  | debug => "debug"
  | trace => "trace"

/-- What a prime search reports. -/
inductive Event where
  /-- The next candidate upwards has too many bits. -/
  | bitLimitReached (tested limit : Nat)
  /-- As many candidates have been tested as allowed. -/
  | candidatesExhausted (tested : Nat)
  /-- A candidate of the upward search goes to the prime test. -/
  | testingCandidate (tested bits : Nat)
  /-- The upward search has found a prime. -/
  | candidateFound (tested bits : Nat)
  /-- No multiple gives a number of the bit length asked for. -/
  | emptyRange (bits : Nat)
  /-- The byte source of a draw has failed. -/
  | sourceFailed (trial : Nat)
  /-- A drawn candidate goes to the prime test. -/
  | testingDraw (trial bits : Nat)
  /-- A drawn candidate is prime. -/
  | drawFound (trial bits : Nat)
  /-- As many candidates have been drawn as allowed. -/
  | drawsExhausted (trials bits : Nat)
deriving DecidableEq

namespace Event

/-- Tests are traced; how a search ends is worth more. -/
def level : Event → Level
  | testingCandidate .. => .trace
  | testingDraw .. => .trace
  | _ => .debug

/-- The wording of an event. -/
def message : Event → String
  | bitLimitReached .. => "next_prime: bit limit reached"
  | candidatesExhausted .. => "next_prime: trials exhausted"
  | testingCandidate .. => "next_prime: testing candidate"
  | candidateFound .. => "next_prime: found"
  | emptyRange .. => "extend_prime: empty range"
  | sourceFailed .. => "extend_prime: byte source failed"
  | testingDraw .. => "extend_prime: testing candidate"
  | drawFound .. => "extend_prime: found"
  | drawsExhausted .. => "extend_prime: trials exhausted"

/-- The numbers of an event, by name. -/
def fields : Event → List (String × Nat)
  | bitLimitReached tested limit => [("tested", tested), ("bit_limit", limit)]
  | candidatesExhausted tested => [("tested", tested)]
  | testingCandidate tested bits => [("tested", tested), ("bits", bits)]
  | candidateFound tested bits => [("tested", tested), ("bits", bits)]
  | emptyRange bits => [("p_bits", bits)]
  | sourceFailed trial => [("trial", trial)]
  | testingDraw trial bits => [("trial", trial), ("p_bits", bits)]
  | drawFound trial bits => [("trial", trial), ("p_bits", bits)]
  | drawsExhausted trials bits => [("trials", trials), ("p_bits", bits)]

end Event

/-- What a search carries along. -/
structure SearchState (w : Width) where
  scratch : Limbs w
  /-- Events so far, the latest first. -/
  latest : List Event

/-- A computation over scratch words that reports events. -/
abbrev Search (w : Width) := EStateM Fault (SearchState w)

/-- How a search ended, and its events in order. -/
structure Report (w : Width) (α : Type) where
  events : List Event
  outcome : Checked (α × Limbs w)

/-- The report with its result passed through a function. -/
def Report.map {w : Width} {α β : Type} (f : α → β) (report : Report w α) : Report w β :=
  ⟨report.events, report.outcome.map fun x => (f x.1, x.2)⟩

namespace Search

variable {w : Width} {α : Type}

/-- Report an event. -/
def emit (event : Event) : Search w Unit := fun s =>
  .ok () { s with latest := event :: s.latest }

/-- Stop with `fault` unless `p` holds. -/
def ensure (p : Prop) [Decidable p] (fault : Fault) : Search w Unit := fun s =>
  if p then .ok () s else .error fault s

/-- Run a computation that reports nothing. -/
def quietly (work : Work w α) : Search w α := fun s =>
  match work s.scratch with
  | .ok (result, scratch) => .ok result { s with scratch := scratch }
  | .error fault => .error fault s

/-- `Work.withBuffer` for a body that reports events. -/
def withBuffer (n : Nat) (body : Limbs w → Search w (α × Limbs w)) : Search w α := fun s =>
  if n ≤ s.scratch.length then
    let buffer := s.scratch.take n
    match body buffer { s with scratch := s.scratch.drop n } with
    | .ok (result, contents) t =>
      .ok result { t with scratch := Limbs.overwrite buffer contents ++ t.scratch }
    | .error fault t => .error fault t
  else .error .shortScratch s

/-- Run a search on the given scratch words. -/
def run (search : Search w α) (scratch : Limbs w) : Report w α :=
  match search ⟨scratch, []⟩ with
  | .ok result s => ⟨s.latest.reverse, .ok (result, s.scratch)⟩
  | .error fault s => ⟨s.latest.reverse, .error fault⟩

end Search

end CryptoPrimes
