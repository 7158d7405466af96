import CryptoPrimes.Belt.Generator
import CryptoPrimes.Proofs.Belt.Hash
import CryptoPrimes.Proofs.Octets
import CryptoPrimes.Proofs.Sample

/-!
# The stream of a generator

The octets that a generator hands out form one stream, whatever the sizes of the
requests and the interfaces they come through.

* `Origin.octet` is the stream by the number of the octet.  After keying it
  consists of the hashes of the key with `0`, `1`, and so on.
* `Follows g octet served` says that `g` stands before octet `served` of a
  stream: what is left in its block comes next, then the blocks its counter
  leads to.  A request reads on from there (`Follows.checkedTake`), and so does
  every interface (`Follows.answer`).
* `Log` is a generator with everything it has answered since it was last keyed.
  An operation keeps it on the stream (`Log.OnStream.step`), so a run does
  (`Log.OnStream.foldlM`); `requests_follow_stream` is what that says about
  answers.
-/

namespace CryptoPrimes.Belt.Generator

open Checked

/-! ## Streams -/

/-- The octets from number `first` on. -/
def window (octet : Nat → UInt8) (first n : Nat) : Octets := (List.range' first n).map octet

/-- Block `j` for a key; the number is cut to sixteen octets. -/
def blockOf (key : Octets) (j : Nat) : Octets :=
  (hash (key ++ Octets.ofNat 16 (j % 2 ^ 128))).octets

/-- Octet `i` of the stream for a key. -/
def keyedOctet (key : Octets) (i : Nat) : UInt8 := (blockOf key (i / 32)).getD (i % 32) 0

/-- How a generator came to its key. -/
inductive Origin where
  | seeded (seed : Option Octets)
  | wiped

/-- Octet `i` of the stream that begins with an origin.  A wiped generator first
serves the zeros of its block. -/
def Origin.octet : Origin → Nat → UInt8
  | .seeded seed, i => keyedOctet (hash (seed.getD zeroSeed)).octets i
  | .wiped, i => if i < 32 then 0 else keyedOctet (List.replicate 32 0) (i - 32)

theorem length_blockOf (key : Octets) (j : Nat) : (blockOf key j).length = 32 :=
  (hash _).length_octets

@[simp] theorem length_window (octet : Nat → UInt8) (first n : Nat) :
    (window octet first n).length = n := by
  rw [window, List.length_map, List.length_range']

theorem getElem_window {octet : Nat → UInt8} {first n i : Nat}
    (h : i < (window octet first n).length) : (window octet first n)[i] = octet (first + i) := by
  simp only [window, List.getElem_map, List.getElem_range', Nat.one_mul]

theorem window_append (octet : Nat → UInt8) (first m n : Nat) :
    window octet first m ++ window octet (first + m) n = window octet first (m + n) := by
  unfold window
  rw [← List.map_append, List.range'_append_1]

theorem take_window (octet : Nat → UInt8) (first m n : Nat) :
    (window octet first (m + n)).take m = window octet first m := by
  rw [← window_append, List.take_left' (length_window _ _ _)]

theorem drop_window (octet : Nat → UInt8) (first m n : Nat) :
    (window octet first (m + n)).drop m = window octet (first + m) n := by
  rw [← window_append, List.drop_left' (length_window _ _ _)]

/-- A string is the stream of octets that it has at their places. -/
theorem eq_window {octets : Octets} {octet : Nat → UInt8} {first : Nat}
    (h : ∀ i < octets.length, octets.getD i 0 = octet (first + i)) :
    octets = window octet first octets.length := by
  apply List.ext_getElem (length_window _ _ _).symm
  intro i hi hi'
  have hget : octets[i] = octet (first + i) := by
    rw [← h i hi, List.getD_eq_getElem?_getD, List.getElem?_eq_getElem hi, Option.getD_some]
  rw [hget, getElem_window]

theorem blockOf_eq_window (key : Octets) (j : Nat) :
    blockOf key j = window (keyedOctet key) (32 * j) 32 := by
  have hplaces : ∀ i < (blockOf key j).length,
      (blockOf key j).getD i 0 = keyedOctet key (32 * j + i) := by
    intro i hi
    rw [length_blockOf] at hi
    rw [keyedOctet, Nat.mul_add_div (by decide), Nat.div_eq_of_lt hi, Nat.add_zero, Nat.mul_add_mod,
      Nat.mod_eq_of_lt hi]
  have h := eq_window hplaces
  rwa [length_blockOf] at h

/-! ## Generators on a stream -/

/-- A generator that stands before octet `served` of a stream. -/
structure Follows (g : Generator) (octet : Nat → UInt8) (served : Nat) : Prop where
  position_le : g.position ≤ 32
  counter_lt : g.counter < 2 ^ 128
  pending : g.block.octets.drop g.position = window octet served (32 - g.position)
  later : ∀ j, blockOf g.key.octets (g.counter + j) =
    window octet (served + (32 - g.position) + 32 * j) 32

theorem follows_start (seed : Option Octets) :
    Follows (start seed) (Origin.seeded seed).octet 0 := by
  refine ⟨Nat.le_refl 32, Nat.two_pow_pos 128, rfl, ?_⟩
  intro j
  show blockOf (hash (seed.getD zeroSeed)).octets (0 + j) =
    window (keyedOctet (hash (seed.getD zeroSeed)).octets) (0 + 32 * j) 32
  rw [Nat.zero_add, Nat.zero_add, blockOf_eq_window]

theorem follows_wiped : Follows wiped Origin.wiped.octet 0 := by
  refine ⟨Nat.zero_le 32, Nat.two_pow_pos 128, rfl, ?_⟩
  intro j
  show blockOf (List.replicate 32 0) (0 + j) = window Origin.wiped.octet (0 + 32 + 32 * j) 32
  rw [Nat.zero_add, Nat.zero_add, blockOf_eq_window]
  apply List.ext_getElem
  · rw [length_window, length_window]
  · intro i hi hi'
    rw [getElem_window, getElem_window, Origin.octet, if_neg (by omega)]
    congr 1
    omega

/-- The next block is the hash of the key and the counter. -/
theorem refill_eq (g : Generator) :
    g.refill = .ok ⟨g.key, (g.counter + 1) % 2 ^ 128,
      ⟨(hash (g.key.octets ++ Octets.ofNat 16 g.counter)).octets, Digest.length_octets _⟩, 0⟩ := by
  obtain ⟨keyed, hkey, hkeyed⟩ := Represents.start.update g.key.octets
  obtain ⟨numbered, hnumber, hnumbered⟩ := hkeyed.update (Octets.ofNat 16 g.counter)
  have hdigest : numbered.checkedFinish =
      .ok (hash (g.key.octets ++ Octets.ofNat 16 g.counter)) := by
    rw [hnumbered.finish, hash_eq_reference]
    rfl
  unfold refill
  rw [hkey, ok_bind, hnumber, ok_bind, hdigest]
  rfl

namespace Follows

variable {g : Generator} {octet : Nat → UInt8} {served : Nat}

/-- When the block is used up the next one takes its place. -/
theorem ready (h : Follows g octet served) :
    ∃ next, g.ready = .ok next ∧ Follows next octet served ∧ next.position < 32 := by
  have hle := h.position_le
  unfold Generator.ready
  by_cases hend : g.position = digestOctets
  · have hused : 32 - g.position = 0 := by
      rw [hend]
      rfl
    have hlater := h.later
    simp only [hused, Nat.add_zero] at hlater
    have hcounter : g.counter % 2 ^ 128 = g.counter := Nat.mod_eq_of_lt h.counter_lt
    rw [if_pos hend, refill_eq]
    refine ⟨_, rfl, ⟨Nat.zero_le 32, Nat.mod_lt _ (Nat.two_pow_pos 128), ?_, ?_⟩,
      Nat.zero_lt_succ 31⟩
    · have hfirst := hlater 0
      rw [blockOf, Nat.add_zero, hcounter] at hfirst
      exact hfirst
    · intro j
      have hnext := hlater (j + 1)
      show blockOf g.key.octets ((g.counter + 1) % 2 ^ 128 + j) =
        window octet (served + 32 + 32 * j) 32
      rw [blockOf, Nat.mod_add_mod, ← blockOf, Nat.add_right_comm, Nat.add_assoc, hnext]
      congr 1
      omega
  · have hne : g.position ≠ 32 := hend
    rw [if_neg hend]
    exact ⟨g, rfl, h, by omega⟩

/-- What is left in the block is read in parts. -/
theorem advance (h : Follows g octet served) {taken : Nat} (htaken : taken ≤ 32 - g.position) :
    g.block.octets.slice g.position (g.position + taken) = .ok (window octet served taken) ∧
      Follows { g with position := g.position + taken } octet (served + taken) := by
  have hle := h.position_le
  have hlength := g.block.length_octets
  have hsplit : taken + (32 - (g.position + taken)) = 32 - g.position := by omega
  have hpending := h.pending
  rw [← hsplit] at hpending
  refine ⟨?_, ?_, h.counter_lt, ?_, ?_⟩
  · rw [Octets.slice_eq (by omega) (by rw [hlength, digestOctets]; omega), List.drop_take,
      Nat.add_sub_cancel_left, hpending, take_window]
  · show g.position + taken ≤ 32
    omega
  · show g.block.octets.drop (g.position + taken) = _
    rw [← List.drop_drop, hpending, drop_window]
  · intro j
    show blockOf g.key.octets (g.counter + j) =
      window octet (served + taken + (32 - (g.position + taken)) + 32 * j) 32
    rw [h.later j, Nat.add_assoc served taken, hsplit]

/-- A request reads on, for as many octets as it asks for. -/
theorem checkedTake (h : Follows g octet served) (n : Nat) :
    ∃ next, g.checkedTake n = .ok (window octet served n, next) ∧
      Follows next octet (served + n) ∧ (n = 0 → next = g) := by
  -- each round serves what the block holds, so the induction is on what is still to serve
  induction n using Nat.strongRecOn generalizing g served with
  | ind n ih =>
      unfold Generator.checkedTake
      by_cases hn : n = 0
      · subst hn
        exact ⟨g, dif_pos rfl, h, fun _ => rfl⟩
      · obtain ⟨g', hready, hg', hposition⟩ := h.ready
        have hposition' : g'.position < digestOctets := hposition
        generalize htaken : min (digestOctets - g'.position) n = taken
        have hbound : taken ≤ 32 - g'.position := by
          rw [← htaken]
          exact Nat.min_le_left _ _
        obtain ⟨hslice, hrest⟩ := hg'.advance hbound
        obtain ⟨next, htail, hnext, -⟩ := ih (n - taken) (by omega) hrest
        have hsum : taken + (n - taken) = n := by omega
        refine ⟨next, ?_, ?_, fun hzero => absurd hzero hn⟩
        · rw [dif_neg hn, hready, ok_bind, dif_pos hposition']
          dsimp only
          rw [htaken, hslice, ok_bind, htail, ok_bind]
          dsimp only
          rw [window_append, hsum]
          rfl
        · rw [Nat.add_assoc, hsum] at hnext
          exact hnext

end Follows

/-! ## Requests -/

/-- The ways to ask a generator for octets. -/
inductive Request where
  /-- The next octets. -/
  | step (n : Nat)
  /-- The next octets, as from any random number generator. -/
  | fillBytes (n : Nat)
  /-- The next octets, from a generator that might refuse. -/
  | tryFillBytes (n : Nat)
  /-- The next octets, as from any byte source. -/
  | fill (n : Nat)
  /-- The next octets, from the byte source made of the generator. -/
  | adapted (n : Nat)
  /-- A number of four octets. -/
  | word32
  /-- A number of eight octets. -/
  | word64

/-- How many octets a request is about. -/
def Request.size : Request → Nat
  | step n | fillBytes n | tryFillBytes n | fill n | adapted n => n
  | word32 => 4
  | word64 => 8

/-- What a request can be answered with. -/
inductive Answer where
  | octets (octets : Octets)
  | tried (octets : Option Octets)
  | word32 (x : UInt32)
  | word64 (x : UInt64)

namespace Answer

/-- The answer gives exactly these octets; a number is read from them, the lowest
first. -/
def Reads (octets : Octets) : Answer → Prop
  | .octets out => out = octets
  | .tried out => out = some octets
  | .word32 x => x.toNat = Octets.val octets
  | .word64 x => x.toNat = Octets.val octets

/-- The octets that an answer gives away. -/
def served : Answer → Octets
  | .octets out => out
  | .tried out => out.getD []
  | .word32 x => Octets.ofNat 4 x.toNat
  | .word64 x => Octets.ofNat 8 x.toNat

end Answer

/-- The answer to a request, and the generator after it. -/
def answer (g : Generator) : Request → Checked (Answer × Generator)
  | .step n | .fillBytes n => do
      let (octets, g) ← g.checkedTake n
      return (.octets octets, g)
  | .tryFillBytes n => do
      let (octets, g) ← OctetRng.tryFill g n
      return (.tried octets, g)
  | .fill n =>
      let r := ByteSource.request g n
      .ok (.tried r.1, r.2)
  | .adapted n =>
      let r := ByteSource.request (RngSource.mk g) n
      .ok (.tried r.1, r.2.rng)
  | .word32 => do
      let (x, g) ← g.checkedWord32
      return (.word32 x, g)
  | .word64 => do
      let (x, g) ← g.checkedWord64
      return (.word64 x, g)

/-- Every request is answered with the next octets of the stream. -/
theorem Follows.answer {g : Generator} {octet : Nat → UInt8} {served : Nat}
    (h : Follows g octet served) (request : Request) :
    ∃ answer next, g.answer request = .ok (answer, next) ∧
      answer.Reads (window octet served request.size) ∧
      answer.served = window octet served request.size ∧
      Follows next octet (served + request.size) ∧ (request.size = 0 → next = g) := by
  obtain ⟨next, htake, hnext, hnone⟩ := h.checkedTake request.size
  have hlen := length_window octet served request.size
  have hbound := Octets.val_lt (window octet served request.size)
  have hback := Octets.ofNat_val (window octet served request.size)
  rw [hlen] at hbound hback
  cases request with
  | step n | fillBytes n =>
      refine ⟨.octets (window octet served n), next, ?_, rfl, rfl, hnext, hnone⟩
      unfold Generator.answer
      dsimp only
      rw [show g.checkedTake n = _ from htake]
      rfl
  | tryFillBytes n | fill n | adapted n =>
      have htry : g.tryTake n = .ok (some (window octet served n), next) := by
        unfold Generator.tryTake
        rw [show g.checkedTake n = _ from htake]
        rfl
      refine ⟨.tried (some (window octet served n)), next, ?_, rfl, rfl, hnext, hnone⟩
      simp only [Generator.answer, OctetRng.tryFill, ByteSource.request, RngSource.fill, htry]
      rfl
  | word32 =>
      have hval : (UInt32.ofNat (Octets.val (window octet served 4))).toNat =
          Octets.val (window octet served 4) := UInt32.toNat_ofNat_of_lt' hbound
      refine ⟨.word32 (UInt32.ofNat (Octets.val (window octet served 4))), next, ?_, hval, ?_,
        hnext, hnone⟩
      · simp only [Generator.answer, Generator.checkedWord32]
        rw [show g.checkedTake 4 = _ from htake]
        rfl
      · rw [Answer.served, hval]
        exact hback
  | word64 =>
      have hval : (UInt64.ofNat (Octets.val (window octet served 8))).toNat =
          Octets.val (window octet served 8) := UInt64.toNat_ofNat_of_lt' hbound
      refine ⟨.word64 (UInt64.ofNat (Octets.val (window octet served 8))), next, ?_, hval, ?_,
        hnext, hnone⟩
      · simp only [Generator.answer, Generator.checkedWord64]
        rw [show g.checkedTake 8 = _ from htake]
        rfl
      · rw [Answer.served, hval]
        exact hback

/-- A generator on a stream serves every request, as a byte source. -/
theorem serves : Serves fun g : Generator => ∃ octet served, Follows g octet served := by
  rintro g ⟨octet, served, h⟩ n
  obtain ⟨answer, next, hanswer, hreads, -, hnext, -⟩ := h.answer (.fill n)
  cases hanswer
  exact ⟨_, _, Prod.ext hreads rfl, octet, _, hnext⟩

/-! ## Runs -/

/-- A generator, how it came to its key, and everything it has answered since. -/
structure Log where
  generator : Generator
  origin : Origin
  answers : List Answer

/-- What can be done to a generator. -/
inductive Operation where
  | request (request : Request)
  | restart (seed : Option Octets)
  | fromSeed (seed : OctetArray 32)
  | wipe

namespace Log

/-- A generator that has just got its seed. -/
def start (seed : Option Octets) : Log := ⟨Generator.start seed, .seeded seed, []⟩

/-- All octets served since the generator came to its key. -/
def served (log : Log) : Octets := log.answers.flatMap Answer.served

/-- One operation. -/
def step (log : Log) : Operation → Checked Log
  | .request request => do
      let (answer, generator) ← log.generator.answer request
      return ⟨generator, log.origin, log.answers ++ [answer]⟩
  | .restart seed => .ok (start seed)
  | .fromSeed seed => .ok (start (some seed.octets))
  | .wipe => .ok ⟨Generator.wiped, .wiped, []⟩

/-- Operations in turn, from a seed on. -/
def run (seed : Option Octets) (operations : List Operation) : Checked Log :=
  operations.foldlM step (start seed)

/-- The octets served are the stream so far, and the generator stands behind
them. -/
structure OnStream (log : Log) : Prop where
  served_eq : log.served = window log.origin.octet 0 log.served.length
  follows : Follows log.generator log.origin.octet log.served.length

theorem onStream_start (seed : Option Octets) : OnStream (start seed) :=
  ⟨rfl, follows_start seed⟩

/-- An operation keeps the log on the stream, that of a new key if there is one. -/
theorem OnStream.step {log : Log} (h : OnStream log) (operation : Operation) :
    ∃ next, log.step operation = .ok next ∧ OnStream next := by
  cases operation with
  | restart seed => exact ⟨_, rfl, onStream_start seed⟩
  | fromSeed seed => exact ⟨_, rfl, onStream_start (some seed.octets)⟩
  | wipe => exact ⟨_, rfl, rfl, follows_wiped⟩
  | request request =>
      obtain ⟨answer, generator, hanswer, -, hserved, hnext, -⟩ := h.follows.answer request
      refine ⟨⟨generator, log.origin, log.answers ++ [answer]⟩, ?_, ?_⟩
      · unfold Log.step
        dsimp only
        rw [hanswer]
        rfl
      · have hall : served ⟨generator, log.origin, log.answers ++ [answer]⟩ =
            log.served ++ window log.origin.octet log.served.length request.size := by
          rw [← hserved]
          simp [served]
        have hlen : (served ⟨generator, log.origin, log.answers ++ [answer]⟩).length =
            log.served.length + request.size := by
          rw [hall, List.length_append, length_window]
        refine ⟨?_, ?_⟩
        · rw [hlen, hall, ← window_append, ← h.served_eq, Nat.zero_add]
        · rw [hlen]
          exact hnext

/-- So does a sequence of operations. -/
theorem OnStream.foldlM {log : Log} (h : OnStream log) (operations : List Operation) :
    ∃ last, operations.foldlM Log.step log = .ok last ∧ OnStream last := by
  induction operations generalizing log with
  | nil => exact ⟨log, rfl, h⟩
  | cons operation operations ih =>
      obtain ⟨next, hstep, hnext⟩ := h.step operation
      obtain ⟨last, hrun, hlast⟩ := ih hnext
      refine ⟨last, ?_, hlast⟩
      rw [List.foldlM_cons, hstep, ok_bind, hrun]

end Log

/-- No sequence of operations faults, and the octets served since the last key
are the beginning of the stream for that key, however they were asked for.  In
every state that is reached, a wiped one too, at most 32 octets of the block
count as read, and each request is served: with exactly as many octets as it is
about, the next ones of the stream, and without a change of state if it is about
none. -/
theorem requests_follow_stream (seed : Option Octets) (operations : List Operation) :
    ∃ log, Log.run seed operations = .ok log ∧
      log.generator.position ≤ 32 ∧
      log.served = (List.range log.served.length).map log.origin.octet ∧
      ∀ request, ∃ answer next, log.generator.answer request = .ok (answer, next) ∧
        answer.Reads ((List.range' log.served.length request.size).map log.origin.octet) ∧
        (request.size = 0 → next = log.generator) := by
  obtain ⟨log, hrun, hlog⟩ := (Log.onStream_start seed).foldlM operations
  refine ⟨log, hrun, hlog.follows.position_le, ?_, ?_⟩
  · rw [List.range_eq_range']
    exact hlog.served_eq
  · intro request
    obtain ⟨answer, next, hanswer, hreads, -, -, hnone⟩ := hlog.follows.answer request
    exact ⟨answer, next, hanswer, hreads, hnone⟩

end CryptoPrimes.Belt.Generator
