import CryptoPrimes.Proofs.Belt.Hash
import Mathlib.Data.List.Forall2

/-!
# Sequences of hash operations

A session holds any number of states and the digests made from them.  States are
created, fed, copied, wiped, reset and consumed in any order, each named by its
number.

Next to the session of hash states runs a ledger: the same operations on
histories, where a history is what a state has absorbed since it was last
fresh.

* `Interface` is what an operation may ask of a state, `Session.step` what an
  operation does through it.  Both sessions are instances.
* `Interface.Refines` relates two interfaces operation by operation, and
  `Session.Matches` two sessions state by state and digest by digest.  One
  operation keeps sessions matched (`Session.Matches.step`), hence a sequence
  does (`Session.Matches.run`).
* The states refine the histories through `Represents` (`Hasher.refines`).

So a digest depends on nothing but the octets absorbed (`Hasher.session_digests`).
-/

namespace CryptoPrimes.Belt

open Checked

variable {σ δ τ ε : Type}

/-! ## Sessions -/

/-- An operation.  A number that belongs to no state, or to one already
consumed, makes it do nothing. -/
inductive Operation where
  | new
  | update (i : Nat) (part : Octets)
  | clone (i : Nat)
  /-- Makes a digest and starts over. -/
  | finishReset (i : Nat)
  /-- Makes a digest and consumes the state. -/
  | finish (i : Nat)
  | wipe (i : Nat)

/-- What can be done with a state of type `σ` that gives digests of type `δ`. -/
structure Interface (σ δ : Type) where
  start : σ
  wiped : σ
  update : σ → Octets → Checked σ
  finish : σ → Checked δ

/-- All states made so far, `none` for those consumed, and all digests. -/
structure Session (σ δ : Type) where
  states : List (Option σ)
  digests : List δ

namespace Session

/-- Go on with state `i`, if there is one. -/
def onState (session : Session σ δ) (i : Nat) (go : σ → Checked (Session σ δ)) :
    Checked (Session σ δ) :=
  match session.states[i]?.join with
  | none => .ok session
  | some state => go state

/-- One operation. -/
def step (face : Interface σ δ) (session : Session σ δ) : Operation → Checked (Session σ δ)
  | .new => .ok ⟨session.states ++ [some face.start], session.digests⟩
  | .update i part => session.onState i fun state => do
      let state ← face.update state part
      return ⟨session.states.set i (some state), session.digests⟩
  | .clone i => session.onState i fun state =>
      .ok ⟨session.states ++ [some state], session.digests⟩
  | .finishReset i => session.onState i fun state => do
      let digest ← face.finish state
      return ⟨session.states.set i (some face.start), session.digests ++ [digest]⟩
  | .finish i => session.onState i fun state => do
      let digest ← face.finish state
      return ⟨session.states.set i none, session.digests ++ [digest]⟩
  | .wipe i => session.onState i fun _ =>
      .ok ⟨session.states.set i (some face.wiped), session.digests⟩

/-- Operations in turn, beginning with no states. -/
def run (face : Interface σ δ) (operations : List Operation) : Checked (Session σ δ) :=
  operations.foldlM (step face) ⟨[], []⟩

end Session

/-! ## Refinement -/

/-- Related states stay related, and give related digests. -/
structure Interface.Refines (face : Interface σ δ) (spec : Interface τ ε) (R : σ → τ → Prop)
    (D : δ → ε → Prop) : Prop where
  start : R face.start spec.start
  wiped : R face.wiped spec.wiped
  update : ∀ s t, R s t → ∀ part, ∃ s' t',
    face.update s part = .ok s' ∧ spec.update t part = .ok t' ∧ R s' t'
  finish : ∀ s t, R s t → ∃ d e, face.finish s = .ok d ∧ spec.finish t = .ok e ∧ D d e

namespace Session

/-- The states and the digests of two sessions are related one by one. -/
structure Matches (R : σ → τ → Prop) (D : δ → ε → Prop) (session : Session σ δ)
    (ledger : Session τ ε) : Prop where
  states : List.Forall₂ (Option.Rel R) session.states ledger.states
  digests : List.Forall₂ D session.digests ledger.digests

variable {R : σ → τ → Prop} {D : δ → ε → Prop} {face : Interface σ δ} {spec : Interface τ ε}
  {session : Session σ δ} {ledger : Session τ ε}

theorem forall₂_set {s : Option σ} {t : Option τ} {states : List (Option σ)}
    {histories : List (Option τ)} (h : List.Forall₂ (Option.Rel R) states histories) (i : Nat)
    (hst : Option.Rel R s t) :
    List.Forall₂ (Option.Rel R) (states.set i s) (histories.set i t) := by
  induction h generalizing i with
  | nil => exact .nil
  | cons hhead htail ih =>
      cases i with
      | zero => exact .cons hst htail
      | succ i => exact .cons hhead (ih i)

/-- State `i` is missing on both sides, or there and related. -/
theorem forall₂_lookup {states : List (Option σ)} {histories : List (Option τ)}
    (h : List.Forall₂ (Option.Rel R) states histories) (i : Nat) :
    Option.Rel R states[i]?.join histories[i]?.join := by
  induction h generalizing i with
  | nil => exact .none
  | cons hhead htail ih =>
      cases i with
      | zero => exact hhead
      | succ i => exact ih i

/-- Sessions that match before an operation on state `i` match after it, if what
it does to related states keeps them matched. -/
theorem Matches.onState (h : Matches R D session ledger) (i : Nat)
    {go : σ → Checked (Session σ δ)} {go' : τ → Checked (Session τ ε)}
    (hgo : ∀ s t, R s t → ∃ session' ledger', go s = .ok session' ∧ go' t = .ok ledger' ∧
      Matches R D session' ledger') :
    ∃ session' ledger', session.onState i go = .ok session' ∧
      ledger.onState i go' = .ok ledger' ∧ Matches R D session' ledger' := by
  have hlookup := forall₂_lookup h.states i
  unfold Session.onState
  -- the state is missing on both sides, or there on both
  cases hs : session.states[i]?.join with
  | none =>
      cases ht : ledger.states[i]?.join with
      | none => exact ⟨session, ledger, rfl, rfl, h⟩
      | some t =>
          rw [hs, ht] at hlookup
          cases hlookup
  | some s =>
      cases ht : ledger.states[i]?.join with
      | none =>
          rw [hs, ht] at hlookup
          cases hlookup
      | some t =>
          rw [hs, ht] at hlookup
          cases hlookup with
          | some hst => exact hgo s t hst

/-- One operation keeps sessions matched. -/
theorem Matches.step (hrefines : face.Refines spec R D) (h : Matches R D session ledger)
    (operation : Operation) :
    ∃ session' ledger', session.step face operation = .ok session' ∧
      ledger.step spec operation = .ok ledger' ∧ Matches R D session' ledger' := by
  cases operation with
  | new =>
      refine ⟨_, _, rfl, rfl, ?_, h.digests⟩
      exact List.rel_append h.states (.cons (.some hrefines.start) .nil)
  | update i part =>
      apply h.onState i
      intro s t hst
      obtain ⟨s', t', hs, ht, hst'⟩ := hrefines.update s t hst part
      rw [hs, ht]
      exact ⟨_, _, rfl, rfl, forall₂_set h.states i (.some hst'), h.digests⟩
  | clone i =>
      apply h.onState i
      intro s t hst
      refine ⟨_, _, rfl, rfl, ?_, h.digests⟩
      exact List.rel_append h.states (.cons (.some hst) .nil)
  | finishReset i =>
      apply h.onState i
      intro s t hst
      obtain ⟨d, e, hd, he, hde⟩ := hrefines.finish s t hst
      rw [hd, he]
      exact ⟨_, _, rfl, rfl, forall₂_set h.states i (.some hrefines.start),
        List.rel_append h.digests (.cons hde .nil)⟩
  | finish i =>
      apply h.onState i
      intro s t hst
      obtain ⟨d, e, hd, he, hde⟩ := hrefines.finish s t hst
      rw [hd, he]
      exact ⟨_, _, rfl, rfl, forall₂_set h.states i .none,
        List.rel_append h.digests (.cons hde .nil)⟩
  | wipe i =>
      apply h.onState i
      intro s t _
      exact ⟨_, _, rfl, rfl, forall₂_set h.states i (.some hrefines.wiped), h.digests⟩

/-- So does a sequence of them. -/
theorem Matches.foldlM (hrefines : face.Refines spec R D) (operations : List Operation)
    (h : Matches R D session ledger) :
    ∃ session' ledger', operations.foldlM (Session.step face) session = .ok session' ∧
      operations.foldlM (Session.step spec) ledger = .ok ledger' ∧
      Matches R D session' ledger' := by
  induction operations generalizing session ledger with
  | nil => exact ⟨session, ledger, rfl, rfl, h⟩
  | cons operation operations ih =>
      obtain ⟨middle, middle', hstep, hstep', hmiddle⟩ := h.step hrefines operation
      obtain ⟨last, last', hrun, hrun', hlast⟩ := ih hmiddle
      refine ⟨last, last', ?_, ?_, hlast⟩
      · rw [List.foldlM_cons, hstep, ok_bind, hrun]
      · rw [List.foldlM_cons, hstep', ok_bind, hrun']

theorem run_matches (hrefines : face.Refines spec R D) (operations : List Operation) :
    ∃ session ledger, run face operations = .ok session ∧ run spec operations = .ok ledger ∧
      Matches R D session ledger :=
  Matches.foldlM hrefines operations ⟨.nil, .nil⟩

end Session

/-! ## States and histories -/

/-- What a state has absorbed since it was last fresh, and whether it was made
fresh by wiping. -/
structure History where
  wiped : Bool
  absorbed : Octets

namespace History

/-- The chaining value a state was made fresh with. -/
def origin (history : History) : Chain := if history.wiped then Chain.wiped else Chain.start

/-- A history grows by what is absorbed, and its digest is the history itself. -/
def interface : Interface History History where
  start := ⟨false, []⟩
  wiped := ⟨true, []⟩
  update history part := .ok ⟨history.wiped, history.absorbed ++ part⟩
  finish history := .ok history

end History

namespace Hasher

/-- The operations of a hash state. -/
def interface : Interface Hasher Digest where
  start := start
  wiped := wiped
  update := checkedUpdate
  finish := checkedFinish

/-- Hash states refine their histories. -/
theorem refines : interface.Refines History.interface
    (fun state history => Represents state history.origin history.absorbed)
    (fun digest history => digest = history.origin.digestOf history.absorbed) where
  start := Represents.start
  wiped := Represents.wiped
  update := by
    intro state history h part
    obtain ⟨next, hrun, hnext⟩ := h.update part
    exact ⟨next, _, hrun, rfl, hnext⟩
  finish := by
    intro state history h
    exact ⟨_, history, h.finish, rfl, rfl⟩

/-- No sequence of operations faults.  Every digest of a state that was not
wiped is the hash of what the state has absorbed, however the octets were cut
into parts and whatever else was done in between, and the hash of a message is
the one given by the construction.  At any time at most 31 octets wait in the
buffer of a state. -/
theorem session_digests (operations : List Operation) :
    (∃ session ledger, Session.run interface operations = .ok session ∧
      Session.run History.interface operations = .ok ledger ∧
      (∀ state, some state ∈ session.states → state.filled ≤ 31) ∧
      List.Forall₂ (fun digest history => history.wiped = false → digest = hash history.absorbed)
        session.digests ledger.digests) ∧
    ∀ message, hash message = reference message := by
  obtain ⟨session, ledger, hrun, hledger, hmatches⟩ := Session.run_matches refines operations
  refine ⟨⟨session, ledger, hrun, hledger, ?_, ?_⟩, hash_eq_reference⟩
  · intro state hstate
    obtain ⟨i, hi⟩ := List.getElem?_of_mem hstate
    have hlookup := Session.forall₂_lookup hmatches.states i
    rw [hi] at hlookup
    generalize ledger.states[i]?.join = history at hlookup
    cases hlookup with
    | some h => exact h.filled_le
  · apply hmatches.digests.imp
    intro digest history hdigest hfresh
    rw [hdigest, hash_eq_reference]
    unfold History.origin reference
    rw [hfresh]
    rfl

end Hasher

end CryptoPrimes.Belt
