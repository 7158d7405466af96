import CryptoPrimes.Proofs.Trapping.Rounds

/-!
# Two runs on different scratch

`Work.Follows depth R inPlace model` compares a run of one computation with a run
of another, on two scratches of one length that have nothing else in common.
Where the model ends with a result the computation in place ends with one that
`R` relates to it, and leaves the words from `depth` on as they are; where the
model stops with a fault, the computation in place stops with the same.

The rules never look into a scratch.  The one for a buffer hands two buffers of
one length to the two bodies, with any contents; so what has been proved by the
rules holds whatever a buffer held before.  Two computations in place that follow
one model end alike; and if the model is known to end with one outcome on every
scratch, whatever follows it ends so as well (`Follows.computes`).
-/

namespace CryptoPrimes

open Trapping

variable {w : Width} {α β γ δ : Type}

/-! ## Checked steps -/

namespace Checked

/-- A result of the second computation is followed by a related one of the first,
and a fault by the same. -/
def Follows (R : α → β → Prop) (c : Checked α) (c' : Checked β) : Prop :=
  match c' with
  | .ok b => ∃ a, c = .ok a ∧ R a b
  | .error fault => c = .error fault

theorem Follows.result {R : α → β → Prop} {a : α} {b : β} (h : R a b) :
    Follows R (.ok a) (.ok b) := ⟨a, rfl, h⟩

theorem Follows.fault (R : α → β → Prop) (fault : Fault) :
    Follows R (.error fault) (.error fault) := rfl

theorem Follows.refl (c : Checked α) : Follows Eq c c := by
  cases c with
  | ok a => exact .result rfl
  | error fault => exact .fault _ fault

variable {R : α → β → Prop} {S : γ → δ → Prop} {c : Checked α} {c' : Checked β}

theorem Follows.bind {next : α → Checked γ} {next' : β → Checked δ} (h : Follows R c c')
    (hnext : ∀ a b, R a b → Follows S (next a) (next' b)) :
    Follows S (c >>= next) (c' >>= next') := by
  cases c' with
  | error fault =>
      have h : c = .error fault := h
      rw [h]
      exact .fault S fault
  | ok b =>
      obtain ⟨a, hrun, hab⟩ := h
      rw [hrun]
      exact hnext a b hab

/-- The same step in both. -/
theorem Follows.same_bind {c : Checked α} {next : α → Checked γ} {next' : α → Checked δ}
    (hnext : ∀ a, Follows S (next a) (next' a)) : Follows S (c >>= next) (c >>= next') :=
  Follows.bind (.refl c) fun a _ hab => hab ▸ hnext a

theorem Follows.imp {R' : α → β → Prop} (h : Follows R c c') (himp : ∀ a b, R a b → R' a b) :
    Follows R' c c' := by
  cases c' with
  | error fault => exact h
  | ok b =>
      obtain ⟨a, hrun, hab⟩ := h
      exact ⟨a, hrun, himp a b hab⟩

end Checked

/-! ## Computations over scratch words -/

namespace Work

/-- On scratches of one length, at least `depth`, the computation in place follows
the model and leaves the words from `depth` on as they are. -/
def Follows (depth : Nat) (R : α → β → Prop) (inPlace : Work w α) (model : Work w β) : Prop :=
  ∀ scratch scratch' : Limbs w, scratch.length = scratch'.length → depth ≤ scratch.length →
    Checked.Follows (fun p p' => R p.1 p'.1 ∧ p'.2.length = scratch'.length ∧
      p.2.length = scratch.length ∧ p.2.drop depth = scratch.drop depth)
      (inPlace scratch) (model scratch')

/-- A step whose result is known. -/
theorem ok_bind (a : α) (next : α → Work w β) : (liftM (.ok a : Checked α) >>= next) = next a :=
  rfl

variable {R : α → β → Prop} {S : γ → δ → Prop} {depth larger n : Nat}
  {inPlace : Work w α} {model : Work w β}

theorem follows_lift {c : Checked α} {c' : Checked β} (h : Checked.Follows R c c') :
    Follows (w := w) depth R (liftM c) (liftM c') := by
  intro scratch scratch' hlength hdepth
  exact h.bind fun a b hab => .result ⟨hab, rfl, rfl, rfl⟩

theorem follows_pure {a : α} {b : β} (h : R a b) :
    Follows (w := w) depth R (pure a) (pure b) :=
  fun _ _ _ _ => .result ⟨h, rfl, rfl, rfl⟩

theorem Follows.mono (h : Follows depth R inPlace model) (hle : depth ≤ larger) :
    Follows larger R inPlace model := by
  intro scratch scratch' hlength hdepth
  refine (h scratch scratch' hlength (hle.trans hdepth)).imp fun p p' ⟨hab, hmodel, hkeep, hframe⟩ =>
    ⟨hab, hmodel, hkeep, ?_⟩
  have hskip : larger = depth + (larger - depth) := by omega
  rw [hskip, ← List.drop_drop, hframe, List.drop_drop]

theorem Follows.imp {R' : α → β → Prop} (h : Follows depth R inPlace model)
    (himp : ∀ a b, R a b → R' a b) : Follows depth R' inPlace model :=
  fun scratch scratch' hlength hdepth =>
    (h scratch scratch' hlength hdepth).imp fun _ _ hp => ⟨himp _ _ hp.1, hp.2⟩

theorem Follows.bind {next : α → Work w γ} {next' : β → Work w δ}
    (h : Follows depth R inPlace model)
    (hnext : ∀ a b, R a b → Follows depth S (next a) (next' b)) :
    Follows depth S (inPlace >>= next) (model >>= next') := by
  intro scratch scratch' hlength hdepth
  refine (h scratch scratch' hlength hdepth).bind fun p p' ⟨hab, hmodel, hkeep, hframe⟩ => ?_
  refine (hnext p.1 p'.1 hab p.2 p'.2 (by omega) (by omega)).imp
    fun q q' ⟨hcd, hmodel', hkeep', hframe'⟩ => ?_
  exact ⟨hcd, hmodel'.trans hmodel, hkeep'.trans hkeep, hframe'.trans hframe⟩

/-- A checked step of both. -/
theorem Follows.lift_bind {c : Checked α} {c' : Checked β} {next : α → Work w γ}
    {next' : β → Work w δ} (h : Checked.Follows R c c')
    (hnext : ∀ a b, R a b → Follows depth S (next a) (next' b)) :
    Follows depth S (liftM c >>= next) (liftM c' >>= next') :=
  (follows_lift h).bind hnext

/-- The same checked step in both. -/
theorem Follows.same_bind {c : Checked α} {next : α → Work w γ} {next' : α → Work w δ}
    (hnext : ∀ a, Follows depth S (next a) (next' a)) :
    Follows depth S (liftM c >>= next) (liftM c >>= next') :=
  .lift_bind (.refl c) fun a _ hab => hab ▸ hnext a

/-- Two buffers of one length, with any contents, before and after. -/
theorem Follows.withBuffer {body : Limbs w → Work w (α × Limbs w)}
    {body' : Limbs w → Work w (β × Limbs w)}
    (hbody : ∀ buffer buffer' : Limbs w, buffer.length = n → buffer'.length = n →
      Follows depth (fun p p' => R p.1 p'.1) (body buffer) (body' buffer')) :
    Follows (n + depth) R (Work.withBuffer n body) (Work.withBuffer n body') := by
  intro scratch scratch' hlength hdepth
  have htake : (scratch.take n).length = n := by
    rw [List.length_take]
    omega
  have htake' : (scratch'.take n).length = n := by
    rw [List.length_take]
    omega
  have hrun := hbody _ _ htake htake' (scratch.drop n) (scratch'.drop n)
    (by rw [List.length_drop, List.length_drop, hlength]) (by rw [List.length_drop]; omega)
  unfold Work.withBuffer
  rw [if_pos (by omega), if_pos (by omega)]
  cases hmodel : body' (scratch'.take n) (scratch'.drop n) with
  | error fault =>
      rw [hmodel] at hrun
      have hrun : body (scratch.take n) (scratch.drop n) = .error fault := hrun
      rw [hrun]
      exact .fault _ fault
  | ok p' =>
      rw [hmodel] at hrun
      obtain ⟨p, hp, hab, hkeep', hkeep, hframe⟩ := hrun
      rw [hp]
      refine .result ⟨hab, ?_, ?_, ?_⟩
      · rw [List.length_append, Limbs.length_overwrite, hkeep', List.length_drop, htake']
        omega
      · rw [List.length_append, Limbs.length_overwrite, hkeep, List.length_drop, htake]
        omega
      · have hfront : (Limbs.overwrite (scratch.take n) p.1.2).length = n := by
          rw [Limbs.length_overwrite, htake]
        rw [← List.drop_drop, List.drop_left' hfront, hframe, List.drop_drop]

/-- What follows a computation with one outcome has this outcome too. -/
theorem Follows.computes {inPlace model : Work w α} {out : Checked α}
    (h : Follows depth Eq inPlace model) (hmodel : Computes model depth out) :
    Computes inPlace depth out := by
  intro scratch hdepth
  have hrun := h scratch scratch rfl hdepth
  have hout := hmodel scratch hdepth
  cases out with
  | error fault =>
      have hout : model scratch = .error fault := hout
      rw [hout] at hrun
      exact hrun
  | ok a =>
      obtain ⟨rest, hrest, -, -⟩ := hout
      rw [hrest] at hrun
      obtain ⟨p, hp, hab, -, hkeep, hframe⟩ := hrun
      have hab : p.1 = a := hab
      refine ⟨p.2, ?_, hkeep, hframe⟩
      rw [hp, ← hab]

/-- What the plain form ends with, the form in place ends with. -/
theorem Agree.followed {plain trapping inPlace : Work w α} {out out' : Checked α}
    (h : Agree plain trapping depth out) (hplain : Computes plain depth out')
    (hfollows : Follows depth Eq inPlace trapping) : Computes inPlace depth out' := by
  rw [← h.plain.unique hplain]
  exact hfollows.computes h.trapping

end Work

/-! ## Searches -/

namespace Search

/-- The same of computations that report: in both runs the same events come to
those that have been reported before. -/
def Follows (depth : Nat) (R : α → β → Prop) (inPlace : Search w α) (model : Search w β) : Prop :=
  ∀ s s' : SearchState w, s.scratch.length = s'.scratch.length → s.latest = s'.latest →
    depth ≤ s.scratch.length →
    match model s' with
    | .ok b t' => ∃ a t, inPlace s = .ok a t ∧ R a b ∧ t.latest = t'.latest ∧
        t'.scratch.length = s'.scratch.length ∧ t.scratch.length = s.scratch.length ∧
        t.scratch.drop depth = s.scratch.drop depth
    | .error fault t' => ∃ t, inPlace s = .error fault t ∧ t.latest = t'.latest

variable {R : α → β → Prop} {S : γ → δ → Prop} {depth larger n : Nat}
  {inPlace : Search w α} {model : Search w β}

theorem follows_pure {a : α} {b : β} (h : R a b) :
    Follows (w := w) depth R (pure a) (pure b) :=
  fun s _ _ hlatest _ => ⟨a, s, rfl, h, hlatest, rfl, rfl, rfl⟩

theorem follows_quietly {inPlace : Work w α} {model : Work w β}
    (h : Work.Follows depth R inPlace model) :
    Follows depth R (quietly inPlace) (quietly model) := by
  intro s s' hlength hlatest hdepth
  have hrun := h s.scratch s'.scratch hlength hdepth
  unfold quietly
  cases hmodel : model s'.scratch with
  | error fault =>
      rw [hmodel] at hrun
      have hrun : inPlace s.scratch = .error fault := hrun
      rw [hrun]
      exact ⟨s, rfl, hlatest⟩
  | ok p' =>
      rw [hmodel] at hrun
      obtain ⟨p, hp, hab, hkeep', hkeep, hframe⟩ := hrun
      rw [hp]
      exact ⟨p.1, _, rfl, hab, hlatest, hkeep', hkeep, hframe⟩

theorem Follows.bind {next : α → Search w γ} {next' : β → Search w δ}
    (h : Follows depth R inPlace model)
    (hnext : ∀ a b, R a b → Follows depth S (next a) (next' b)) :
    Follows depth S (inPlace >>= next) (model >>= next') := by
  intro s s' hlength hlatest hdepth
  have hrun := h s s' hlength hlatest hdepth
  show match EStateM.bind model next' s' with | .ok .. => _ | .error .. => _
  unfold EStateM.bind
  cases hmodel : model s' with
  | error fault t' =>
      rw [hmodel] at hrun
      obtain ⟨t, hp, hlatest'⟩ := hrun
      refine ⟨t, ?_, hlatest'⟩
      show EStateM.bind inPlace next s = _
      rw [EStateM.bind, hp]
  | ok b t' =>
      rw [hmodel] at hrun
      obtain ⟨a, t, hp, hab, hlatest', hkeep', hkeep, hframe⟩ := hrun
      have hthen := hnext a b hab t t' (by omega) hlatest' (by omega)
      have hbind : (inPlace >>= next) s = next a t := by
        show EStateM.bind inPlace next s = _
        rw [EStateM.bind, hp]
      dsimp only
      rw [hbind]
      cases hmodel' : next' b t' with
      | error fault u' =>
          rw [hmodel'] at hthen
          exact hthen
      | ok d u' =>
          rw [hmodel'] at hthen
          obtain ⟨e, u, hq, hed, hlatest'', hkeep'', hkeep''', hframe'⟩ := hthen
          exact ⟨e, u, hq, hed, hlatest'', hkeep''.trans hkeep', hkeep'''.trans hkeep,
            hframe'.trans hframe⟩

theorem Follows.mono (h : Follows depth R inPlace model) (hle : depth ≤ larger) :
    Follows larger R inPlace model := by
  intro s s' hlength hlatest hdepth
  have hrun := h s s' hlength hlatest (hle.trans hdepth)
  cases hmodel : model s' with
  | error fault t' =>
      rw [hmodel] at hrun
      exact hrun
  | ok b t' =>
      rw [hmodel] at hrun
      obtain ⟨a, t, hp, hab, hlatest', hkeep', hkeep, hframe⟩ := hrun
      refine ⟨a, t, hp, hab, hlatest', hkeep', hkeep, ?_⟩
      have hskip : larger = depth + (larger - depth) := by omega
      rw [hskip, ← List.drop_drop, hframe, List.drop_drop]

/-- A report of both. -/
theorem Follows.after_emit (event : Event) (h : Follows depth R inPlace model) :
    Follows depth R (emit event >>= fun _ => inPlace) (emit event >>= fun _ => model) := by
  have hemit : Follows (w := w) depth Eq (emit event) (emit event) := fun s s' _ hlatest _ =>
    ⟨(), _, rfl, rfl, congrArg (event :: ·) hlatest, rfl, rfl, rfl⟩
  exact hemit.bind fun _ _ _ => h

/-- A check of both. -/
theorem Follows.ensure_bind {p : Prop} [Decidable p] (fault : Fault)
    (h : p → Follows depth R inPlace model) :
    Follows depth R (ensure p fault >>= fun _ => inPlace) (ensure p fault >>= fun _ => model) := by
  have hensure : Follows (w := w) depth (fun _ _ => p) (ensure p fault) (ensure p fault) := by
    intro s s' _ hlatest _
    unfold ensure
    by_cases hp : p
    · rw [if_pos hp, if_pos hp]
      exact ⟨(), s, rfl, hp, hlatest, rfl, rfl, rfl⟩
    · rw [if_neg hp, if_neg hp]
      exact ⟨s, rfl, hlatest⟩
  exact hensure.bind fun _ _ hp => h hp

/-- A checked step of both. -/
theorem Follows.attempt_bind {c : Checked α} {c' : Checked β} {next : α → Search w γ}
    {next' : β → Search w δ} (h : Checked.Follows R c c')
    (hnext : ∀ a b, R a b → Follows depth S (next a) (next' b)) :
    Follows depth S (attempt c >>= next) (attempt c' >>= next') :=
  (follows_quietly (Work.follows_lift h)).bind hnext

/-- The same checked step in both. -/
theorem Follows.same_bind {c : Checked α} {next : α → Search w γ} {next' : α → Search w δ}
    (hnext : ∀ a, Follows depth S (next a) (next' a)) :
    Follows depth S (attempt c >>= next) (attempt c >>= next') :=
  .attempt_bind (.refl c) fun a _ hab => hab ▸ hnext a

theorem Follows.withBuffer {body : Limbs w → Search w (α × Limbs w)}
    {body' : Limbs w → Search w (β × Limbs w)}
    (hbody : ∀ buffer buffer' : Limbs w, buffer.length = n → buffer'.length = n →
      Follows depth (fun p p' => R p.1 p'.1) (body buffer) (body' buffer')) :
    Follows (n + depth) R (Search.withBuffer n body) (Search.withBuffer n body') := by
  intro s s' hlength hlatest hdepth
  have htake : (s.scratch.take n).length = n := by
    rw [List.length_take]
    omega
  have htake' : (s'.scratch.take n).length = n := by
    rw [List.length_take]
    omega
  have hrun := hbody _ _ htake htake' { s with scratch := s.scratch.drop n }
    { s' with scratch := s'.scratch.drop n }
    (by dsimp only; rw [List.length_drop, List.length_drop, hlength]) hlatest
    (by dsimp only; rw [List.length_drop]; omega)
  unfold Search.withBuffer
  rw [if_pos (by omega), if_pos (by omega)]
  dsimp only
  cases hmodel : body' (s'.scratch.take n) { s' with scratch := s'.scratch.drop n } with
  | error fault t' =>
      rw [hmodel] at hrun
      obtain ⟨t, hp, hlatest'⟩ := hrun
      rw [hp]
      exact ⟨t, rfl, hlatest'⟩
  | ok p' t' =>
      rw [hmodel] at hrun
      obtain ⟨p, t, hp, hab, hlatest', hkeep', hkeep, hframe⟩ := hrun
      dsimp only at hkeep' hkeep hframe
      rw [hp]
      refine ⟨p.1, _, rfl, hab, hlatest', ?_, ?_, ?_⟩
      · dsimp only
        rw [List.length_append, Limbs.length_overwrite, hkeep', List.length_drop, htake']
        omega
      · dsimp only
        rw [List.length_append, Limbs.length_overwrite, hkeep, List.length_drop, htake]
        omega
      · have hfront : (Limbs.overwrite (s.scratch.take n) p.2).length = n := by
          rw [Limbs.length_overwrite, htake]
        dsimp only
        rw [← List.drop_drop, List.drop_left' hfront, hframe, List.drop_drop]

theorem Follows.computes {inPlace model : Search w α} {events : List Event} {out : Checked α}
    (h : Follows depth Eq inPlace model) (hmodel : Computes model depth events out) :
    Computes inPlace depth events out := by
  intro s hdepth
  have hrun := h s s rfl rfl hdepth
  have hout := hmodel s hdepth
  cases out with
  | error fault =>
      obtain ⟨t', ht', hlatest'⟩ := hout
      rw [ht'] at hrun
      obtain ⟨t, ht, hlatest⟩ := hrun
      exact ⟨t, ht, hlatest.trans hlatest'⟩
  | ok a =>
      obtain ⟨rest, hrest, -, -⟩ := hout
      rw [hrest] at hrun
      obtain ⟨b, t, ht, rfl, hlatest, -, hkeep, hframe⟩ := hrun
      have hlatest : t.latest = events.reverse ++ s.latest := hlatest
      refine ⟨t.scratch, ?_, hkeep, hframe⟩
      rw [ht, ← hlatest]

end Search

end CryptoPrimes
