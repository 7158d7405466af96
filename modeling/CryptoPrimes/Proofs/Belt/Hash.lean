import CryptoPrimes.Proofs.Belt.Reference

/-!
# Hashing in parts

`Represents state origin message` says what a state holds when `message` has
been absorbed from `origin`: the chaining value and the accumulator after the
complete pieces, the octets behind them in the buffer, and the length modulo
`2 ^ 128`.  Nothing is said about the octets of the buffer beyond `filled`,
which hold whatever earlier pieces left there.

* A state that represents a message has at most 31 octets in its buffer
  (`Represents.filled_le`).
* Absorbing a part appends it (`Represents.updateWith`).  An update that tops up the
  buffer and one that starts at a piece boundary end in the same loop, `absorb`,
  at a multiple of 32.
* Finishing gives the digest of the construction (`Represents.finishWith`).

None of the checked ranges is left on the way, so both computations succeed.

All of this is said of any compression whose monad can give an `Account`: which inputs a
computation compresses and what it ends with.  That nothing faults is one account
(`plain_account`), the list of the inputs another.
-/

namespace CryptoPrimes.Belt

open Checked

/-! ## Checked steps -/

namespace Chain

/-- The input of the compression of a piece is written without leaving it. -/
theorem step_input (chain : Chain) {x : Octets} (hx : x.length = pieceOctets) :
    ∃ b c, (OctetArray.zeros 64).write 0 pieceOctets x = .ok b ∧
      b.write pieceOctets 64 chain.value.octets = .ok c ∧
      c.octets = x ++ chain.value.octets := by
  obtain ⟨b, hb, hboctets⟩ := OctetArray.write_zeros (n := 64) hx (by decide)
  obtain ⟨c, hc, hcoctets⟩ := b.write_behind hboctets hx
    (congrArg (pieceOctets + ·) chain.value.length_octets) (Nat.le_refl 64)
  refine ⟨b, c, hb, hc, ?_⟩
  rw [hcoctets, hx, chain.value.length_octets]
  exact List.append_nil _

/-- The input of the last compression. -/
def lastInput (chain : Chain) (count : Nat) : Octets :=
  Octets.ofNat 16 (8 * count % 2 ^ 128) ++ chain.sum.octets ++ chain.value.octets

theorem close_input (chain : Chain) (count : Nat) :
    ∃ b c d, (OctetArray.zeros 64).write 0 16 (Octets.ofNat 16 (8 * count % 2 ^ 128)) = .ok b ∧
      b.write 16 32 chain.sum.octets = .ok c ∧
      c.write 32 64 chain.value.octets = .ok d ∧ d.octets = chain.lastInput count := by
  have hcount := Octets.length_ofNat 16 (8 * count % 2 ^ 128)
  obtain ⟨b, hb, hboctets⟩ := OctetArray.write_zeros (n := 64) hcount (by decide)
  obtain ⟨c, hc, hcoctets⟩ := b.write_behind hboctets hcount
    (congrArg (16 + ·) chain.sum.length_octets) (by decide)
  obtain ⟨d, hd, hdoctets⟩ := c.write_behind hcoctets
    (by rw [List.length_append, hcount, chain.sum.length_octets])
    (congrArg (32 + ·) chain.value.length_octets) (Nat.le_refl 64)
  refine ⟨b, c, d, hb, hc, hd, ?_⟩
  rw [hdoctets, hcount, chain.sum.length_octets, chain.value.length_octets]
  exact List.append_nil _

/-- The input compressed at piece `i` of a message. -/
def input (origin : Chain) (message : Octets) (i : Nat) : Octets :=
  piece message i ++ (origin.after message i).value.octets

/-- The inputs compressed from piece `k` on, before piece `l`. -/
def inputs (origin : Chain) (message : Octets) (k l : Nat) : List Octets :=
  (List.range' k (l - k)).map (origin.input message)

theorem inputs_self (origin : Chain) (message : Octets) (k : Nat) :
    origin.inputs message k k = [] := by
  rw [inputs, Nat.sub_self]
  rfl

theorem inputs_of_lt (origin : Chain) (message : Octets) {k l : Nat} (h : k < l) :
    origin.inputs message k l = origin.input message k :: origin.inputs message (k + 1) l := by
  have hrange : l - k = l - (k + 1) + 1 := by omega
  rw [inputs, hrange, List.range'_succ, List.map_cons]
  rfl

theorem inputs_append (origin : Chain) (message : Octets) {k l n : Nat} (hkl : k ≤ l)
    (hln : l ≤ n) :
    origin.inputs message k l ++ origin.inputs message l n = origin.inputs message k n := by
  have hmiddle : l = k + (l - k) := by omega
  have hlength : l - k + (n - l) = n - k := by omega
  have hsplit := List.range'_append_1 (s := k) (m := l - k) (n := n - l)
  rw [← hmiddle, hlength] at hsplit
  rw [inputs, inputs, ← List.map_append, hsplit, inputs]

end Chain

/-! ## Accounts of a computation -/

/-- What may be said of computations in a monad: which inputs they compress and what they
end with. -/
structure Account {m : Type → Type} [Monad m] [MonadLiftT Checked m] (compressor : Compressor m)
    (Gives : {α : Type} → m α → List Octets → α → Prop) : Prop where
  pure : ∀ {α : Type} (a : α), Gives (Pure.pure a) [] a
  bind : ∀ {α β : Type} {c : m α} {next : α → m β} {inputs more : List Octets} {a : α} {b : β},
    Gives c inputs a → Gives (next a) more b → Gives (c >>= next) (inputs ++ more) b
  lift : ∀ {α : Type} {c : Checked α} {a : α}, c = .ok a → Gives (liftM c) [] a
  compress : ∀ x : Octets, Gives (compressor x) [x] (compressOctets x)

theorem plain_account : Account plainly fun c _ a => c = .ok a where
  pure _ := rfl
  bind h hnext := by
    rw [h, ok_bind, hnext]
  lift h := h
  compress _ := rfl

namespace Account

variable {m : Type → Type} [Monad m] [MonadLiftT Checked m] {compressor : Compressor m}
  {Gives : {α : Type} → m α → List Octets → α → Prop} (h : Account compressor Gives)

include h

/-- A checked step compresses nothing. -/
theorem lift_bind {α β : Type} {c : Checked α} {next : α → m β} {inputs : List Octets} {a : α}
    {b : β} (hc : c = .ok a) (hnext : Gives (next a) inputs b) :
    Gives (liftM c >>= next) inputs b :=
  h.bind (h.lift hc) hnext

theorem step (chain : Chain) {x : Octets} (hx : x.length = pieceOctets) :
    Gives (chain.step compressor x) [x ++ chain.value.octets] (chain.next x) := by
  obtain ⟨b, c, hb, hc, hoctets⟩ := chain.step_input hx
  unfold Chain.step Chain.next
  rw [← hoctets]
  exact h.lift_bind hb (h.lift_bind hc (h.bind (h.compress _) (h.pure _)))

theorem close (chain : Chain) (count : Nat) :
    Gives (chain.close compressor count) [chain.lastInput count] (chain.digest count) := by
  obtain ⟨b, c, d, hb, hc, hd, hoctets⟩ := chain.close_input count
  have hdigest : chain.digest count = Digest.ofArray (compressOctets d.octets).2 := by
    rw [hoctets]
    rfl
  rw [hdigest, ← hoctets]
  unfold Chain.close
  exact h.lift_bind hb (h.lift_bind hc (h.lift_bind hd (h.bind (h.compress _) (h.pure _))))

/-- From a piece boundary of the message the loop takes the complete pieces that
are left. -/
theorem stepPieces (origin : Chain) (message : Octets) {k : Nat} (hk : 32 * k ≤ message.length) :
    Gives ((origin.after message k).stepPieces compressor (message.drop (32 * k)))
      (origin.inputs message k (message.length / 32))
      (origin.after message (message.length / 32),
        message.drop (32 * (message.length / 32))) := by
  -- the induction is on the octets that are left
  induction hleft : message.length - 32 * k using Nat.strongRecOn generalizing k with
  | ind left ih =>
      unfold Chain.stepPieces
      have htake : ((message.drop (32 * k)).take pieceOctets).length =
          min 32 (message.length - 32 * k) := by
        rw [List.length_take, List.length_drop, pieceOctets]
      by_cases hshort : message.length - 32 * k < 32
      · have hend : message.length / 32 = k := by omega
        rw [dif_pos (by rw [htake, pieceOctets]; omega), hend, Chain.inputs_self]
        exact h.pure _
      · have hpiece : (message.drop (32 * k)).take pieceOctets = piece message k :=
          (piece_of_le (by omega)).symm
        rw [dif_neg (by rw [htake, pieceOctets]; omega), hpiece, List.drop_drop,
          origin.inputs_of_lt message (by omega)]
        exact h.bind (h.step _ (length_piece message k))
          (ih _ (by omega) (k := k + 1) (by omega) rfl)

end Account

/-! ## What a state stands for -/

/-- The state after `message` has been absorbed from `origin`. -/
structure Represents (state : Hasher) (origin : Chain) (message : Octets) : Prop where
  chain_eq : state.chain = origin.after message (message.length / 32)
  filled_eq : state.filled = message.length % 32
  buffer_eq : state.buffer.octets.take state.filled = message.drop (32 * (message.length / 32))
  count_eq : state.count = message.length % 2 ^ 128

namespace Represents

variable {state : Hasher} {origin : Chain} {message : Octets} {m : Type → Type} [Monad m]
  [MonadLiftT Checked m] {compressor : Compressor m}
  {Gives : {α : Type} → m α → List Octets → α → Prop}

theorem filled_le (h : Represents state origin message) : state.filled ≤ 31 := by
  rw [h.filled_eq]
  omega

theorem start : Represents Hasher.start Chain.start [] := ⟨rfl, rfl, rfl, rfl⟩

theorem wiped : Represents Hasher.wiped Chain.wiped [] := ⟨rfl, rfl, rfl, rfl⟩

/-- The pieces of a longer message begin with those already compressed. -/
theorem chain_eq_append (h : Represents state origin message) (part : Octets) :
    state.chain = origin.after (message ++ part) (message.length / 32) := by
  rw [h.chain_eq, origin.after_append part (Nat.mul_div_le _ _)]

theorem count_add (h : Represents state origin message) (part : Octets) :
    (state.count + part.length) % 2 ^ 128 = (message ++ part).length % 2 ^ 128 := by
  rw [h.count_eq, Nat.mod_add_mod, List.length_append]

/-- The octets of the buffer and those of a part are what follows the complete
pieces of the message. -/
theorem buffer_append (h : Represents state origin message) (part : Octets) :
    state.buffer.octets.take state.filled ++ part =
      (message ++ part).drop (32 * (message.length / 32)) := by
  rw [h.buffer_eq, List.drop_append_of_le_length (Nat.mul_div_le _ _)]

/-- From a piece boundary the loop brings the state to the end of the message. -/
theorem absorb (haccount : Account compressor Gives) (state : Hasher) {k : Nat}
    (hk : 32 * k ≤ message.length) (hchain : state.chain = origin.after message k)
    (hcount : state.count = message.length % 2 ^ 128) :
    ∃ next, Gives (state.absorb compressor (message.drop (32 * k)))
        (origin.inputs message k (message.length / 32)) next ∧
      Represents next origin message := by
  generalize hrest : message.drop (32 * (message.length / 32)) = rest
  have hlength : rest.length = message.length % 32 := by
    rw [← hrest, List.length_drop]
    omega
  have hroom : rest.length ≤ pieceOctets := by
    rw [hlength]
    unfold pieceOctets
    omega
  obtain ⟨buffer, hwrite, hoctets⟩ := state.buffer.write_behind
    (List.nil_append state.buffer.octets).symm rfl (Nat.zero_add rest.length) hroom
  have hwrite : state.buffer.write 0 rest.length rest = .ok buffer := hwrite
  refine ⟨⟨origin.after message (message.length / 32), buffer, rest.length, state.count⟩, ?_,
    rfl, hlength, ?_, hcount⟩
  · have hsteps := haccount.stepPieces origin message hk
    rw [hrest, ← hchain] at hsteps
    unfold Hasher.absorb
    rw [← List.append_nil (origin.inputs _ _ _)]
    exact haccount.bind hsteps (haccount.lift_bind hwrite (haccount.pure _))
  · show buffer.octets.take rest.length = _
    rw [hoctets, List.nil_append, List.take_left' rfl, hrest]

theorem length_buffered (h : Represents state origin message) :
    (state.buffer.octets.take state.filled).length = state.filled := by
  have hfilled := h.filled_eq
  rw [h.buffer_eq, List.length_drop]
  omega

/-- A part that does not complete the piece only goes into the buffer. -/
theorem keep (h : Represents state origin message) {part : Octets}
    (hshort : state.filled + part.length < 32) {buffer : OctetArray pieceOctets}
    (hbuffer : buffer.octets.take (state.filled + part.length) =
      state.buffer.octets.take state.filled ++ part) :
    Represents ⟨state.chain, buffer, state.filled + part.length,
      (state.count + part.length) % 2 ^ 128⟩ origin (message ++ part) := by
  have hfilled := h.filled_eq
  have hsame : (message ++ part).length / 32 = message.length / 32 := by
    rw [List.length_append]
    omega
  refine ⟨?_, ?_, ?_, h.count_add part⟩
  · rw [hsame]
    exact h.chain_eq_append part
  · show state.filled + part.length = _
    rw [List.length_append]
    omega
  · show buffer.octets.take (state.filled + part.length) = _
    rw [hbuffer, hsame]
    exact h.buffer_append part

/-- A part that fills the buffer completes the next piece. -/
theorem topUp (h : Represents state origin message) {part : Octets}
    (hlong : 32 ≤ state.filled + part.length) :
    state.buffer.octets.take state.filled ++ part.take (32 - state.filled) =
      piece (message ++ part) (message.length / 32) := by
  have hfilled := h.filled_eq
  have hpiece : 32 * (message.length / 32 + 1) ≤ (message ++ part).length := by
    rw [List.length_append]
    omega
  have hbuffered := h.length_buffered
  have hall : (state.buffer.octets.take state.filled).take 32 =
      state.buffer.octets.take state.filled := List.take_of_length_le (by omega)
  rw [piece_of_le hpiece, ← h.buffer_append part, List.take_append, hbuffered, hall]

/-- What the top-up leaves of the part is what follows the completed piece. -/
theorem drop_topUp (h : Represents state origin message) (part : Octets) :
    (message ++ part).drop (32 * (message.length / 32 + 1)) =
      part.drop (32 - state.filled) := by
  have hfilled := h.filled_eq
  have hbuffered := h.length_buffered
  rw [Nat.mul_add, Nat.mul_one, ← List.drop_drop, ← h.buffer_append part, List.drop_append,
    hbuffered, List.drop_eq_nil_of_le (by omega), List.nil_append]

/-- What an update does to a buffer that is not empty: nothing is compressed before the
question whether the piece is complete. -/
theorem updateWith_pending (haccount : Account compressor Gives)
    (h : Represents state origin message) (hpending : state.filled ≠ 0) (part : Octets)
    {taken : Nat} (htaken : min (pieceOctets - state.filled) part.length = taken) :
    ∃ buffer : OctetArray pieceOctets,
      buffer.octets.take (state.filled + taken) =
        state.buffer.octets.take state.filled ++ part.take taken ∧
      ∀ (inputs : List Octets) (next : Hasher),
        Gives (if state.filled + taken < pieceOctets then Pure.pure
            ⟨state.chain, buffer, state.filled + taken, (state.count + part.length) % 2 ^ 128⟩
          else state.chain.step compressor buffer.octets >>= fun chain =>
            Hasher.absorb compressor ⟨chain, buffer, 0, (state.count + part.length) % 2 ^ 128⟩
              (part.drop taken)) inputs next →
        Gives (state.updateWith compressor part) inputs next := by
  have hroom : state.filled ≤ pieceOctets := Nat.le_trans h.filled_le (by decide)
  have hbuffered := h.length_buffered
  have hpart : (part.take taken).length = taken := by
    rw [List.length_take]
    omega
  obtain ⟨buffer, hwrite, hoctets⟩ := state.buffer.write_behind
    (List.take_append_drop state.filled state.buffer.octets).symm hbuffered
    (congrArg (state.filled + ·) hpart) (by omega)
  have htop : part.slice 0 taken = .ok (part.take taken) := by
    rw [Octets.slice_eq (Nat.zero_le taken) (by omega), List.drop_zero]
  have hrest : part.slice taken part.length = .ok (part.drop taken) := by
    rw [Octets.slice_eq (by omega) (Nat.le_refl part.length), List.take_length]
  refine ⟨buffer, ?_, fun inputs next hnext => ?_⟩
  · rw [hoctets]
    exact List.take_left' (by rw [List.length_append, hbuffered, hpart])
  · unfold Hasher.updateWith
    dsimp only
    rw [if_neg hpending, htaken]
    exact haccount.lift_bind (Checked.require_of hroom _) (haccount.lift_bind htop
      (haccount.lift_bind hwrite (haccount.lift_bind hrest hnext)))

/-- Absorbing a part succeeds and appends it to the message; the pieces that it completes
are compressed. -/
theorem updateWith (haccount : Account compressor Gives) (h : Represents state origin message)
    (part : Octets) :
    ∃ next, Gives (state.updateWith compressor part)
        (origin.inputs (message ++ part) (message.length / 32)
          ((message ++ part).length / 32)) next ∧
      Represents next origin (message ++ part) := by
  have hfilled := h.filled_eq
  have hcount := h.count_add part
  have hlength : (message ++ part).length = message.length + part.length := List.length_append
  by_cases hempty : state.filled = 0
  · -- at a piece boundary the part goes into the loop as it is
    have hpart : (message ++ part).drop (32 * (message.length / 32)) = part := by
      rw [← h.buffer_append part, hempty, List.take_zero, List.nil_append]
    obtain ⟨next, hrun, hnext⟩ := Represents.absorb haccount
      ⟨state.chain, state.buffer, state.filled, (state.count + part.length) % 2 ^ 128⟩
      (by omega) (h.chain_eq_append part) hcount
    rw [hpart] at hrun
    refine ⟨next, ?_, hnext⟩
    unfold Hasher.updateWith
    rw [if_pos hempty]
    exact hrun
  have hroom : state.filled ≤ pieceOctets := Nat.le_trans h.filled_le (by decide)
  by_cases hshort : state.filled + part.length < pieceOctets
  · obtain ⟨buffer, hbuffer, hrun⟩ := h.updateWith_pending haccount hempty part
      (Nat.min_eq_right (by omega))
    have hfew : state.filled + part.length < 32 := hshort
    have hsame : (message ++ part).length / 32 = message.length / 32 := by omega
    rw [List.take_length] at hbuffer
    rw [if_pos hshort] at hrun
    rw [hsame, Chain.inputs_self]
    exact ⟨_, hrun _ _ (haccount.pure _), h.keep hshort hbuffer⟩
  · -- the loop goes on behind the piece that is now complete
    obtain ⟨buffer, hbuffer, hrun⟩ := h.updateWith_pending haccount hempty part
      (Nat.min_eq_left (by omega))
    have hlong : 32 ≤ state.filled + part.length := Nat.le_of_not_lt hshort
    rw [Nat.add_sub_cancel' hroom] at hbuffer hrun
    rw [List.take_of_length_le (Nat.le_of_eq buffer.length_octets)] at hbuffer
    have hpiece : buffer.octets = piece (message ++ part) (message.length / 32) :=
      hbuffer.trans (h.topUp hlong)
    obtain ⟨next, hloop, hnext⟩ := Represents.absorb haccount
      ⟨origin.after (message ++ part) (message.length / 32 + 1), buffer, 0,
        (state.count + part.length) % 2 ^ 128⟩ (by omega) rfl hcount
    have hstep := haccount.step state.chain buffer.length_octets
    rw [if_neg (Nat.lt_irrefl _), hpiece, h.chain_eq_append part] at hrun
    rw [hpiece, h.chain_eq_append part] at hstep
    rw [h.drop_topUp part] at hloop
    rw [origin.inputs_of_lt _ (by omega)]
    exact ⟨next, hrun _ _ (haccount.bind hstep hloop), hnext⟩

/-- An unfinished piece is filled up to the last piece of the message. -/
theorem finish_input (h : Represents state origin message) :
    ∃ padded : OctetArray pieceOctets,
      state.buffer.octets.slice 0 state.filled = .ok (state.buffer.octets.take state.filled) ∧
      (OctetArray.zeros pieceOctets).write 0 state.filled
        (state.buffer.octets.take state.filled) = .ok padded ∧
      padded.octets = piece message (message.length / 32) := by
  have hroom : state.filled ≤ state.buffer.octets.length := by
    rw [state.buffer.length_octets]
    exact Nat.le_trans h.filled_le (by decide)
  obtain ⟨padded, hwrite, hpadded⟩ := OctetArray.write_zeros (n := pieceOctets)
    h.length_buffered (Nat.le_trans h.filled_le (by decide))
  refine ⟨padded, ?_, hwrite, ?_⟩
  · rw [Octets.slice_eq (Nat.zero_le _) hroom, List.drop_zero]
  · rw [hpadded, h.buffer_eq, piece_of_ge (by omega)]
    rfl

/-- The length in bits that the last compression takes is that of the message. -/
theorem lastInput_count (h : Represents state origin message) (chain : Chain) :
    chain.lastInput state.count = chain.lastInput message.length := by
  unfold Chain.lastInput
  rw [h.count_eq, Nat.mul_mod_mod]

/-- Finishing compresses an unfinished piece and then the length. -/
theorem finishWith (haccount : Account compressor Gives) (h : Represents state origin message) :
    Gives (state.finishWith compressor)
      (origin.inputs message (message.length / 32) (pieceCount message) ++
        [(origin.after message (pieceCount message)).lastInput message.length])
      (origin.digestOf message) := by
  have hfilled := h.filled_eq
  have hclose : ∀ chain : Chain,
      Gives (chain.close compressor state.count) [chain.lastInput message.length]
        (chain.digest message.length) := by
    intro chain
    have hlast := h.lastInput_count chain
    have hdigest : chain.digest message.length = chain.digest state.count :=
      congrArg (fun x => Digest.ofArray (compressOctets x).2) hlast.symm
    rw [← hlast, hdigest]
    exact haccount.close chain state.count
  unfold Hasher.finishWith Chain.digestOf
  by_cases hempty : state.filled = 0
  · rw [if_pos hempty, pieceCount_of_dvd (by omega), Chain.inputs_self, h.chain_eq]
    exact hclose _
  · obtain ⟨padded, hslice, hwrite, hpiece⟩ := h.finish_input
    have hstep := haccount.step state.chain padded.length_octets
    rw [hpiece, h.chain_eq] at hstep
    rw [if_neg hempty, pieceCount_of_not_dvd (by omega),
      origin.inputs_of_lt _ (Nat.lt_succ_self _), Chain.inputs_self, h.chain_eq]
    refine haccount.lift_bind hslice (haccount.lift_bind hwrite ?_)
    rw [hpiece]
    exact haccount.bind hstep (hclose _)

theorem update (h : Represents state origin message) (part : Octets) :
    ∃ next, state.checkedUpdate part = .ok next ∧ Represents next origin (message ++ part) :=
  h.updateWith plain_account part

theorem finish (h : Represents state origin message) :
    state.checkedFinish = .ok (origin.digestOf message) := h.finishWith plain_account

theorem update_total (h : Represents state origin message) (part : Octets) :
    Represents (state.update part) origin (message ++ part) := by
  obtain ⟨next, hrun, hnext⟩ := h.update part
  unfold Hasher.update
  rw [hrun]
  exact hnext

theorem finish_total (h : Represents state origin message) :
    state.finish = origin.digestOf message := by
  unfold Hasher.finish
  rw [h.finish]

end Represents

/-- The digest of a message absorbed as a whole is that of the construction. -/
theorem hash_eq_reference (message : Octets) : hash message = reference message := by
  have h := Represents.start.update_total message
  rw [List.nil_append] at h
  exact h.finish_total

end CryptoPrimes.Belt
