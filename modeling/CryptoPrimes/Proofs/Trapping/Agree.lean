import CryptoPrimes.Proofs.Prime.Search
import CryptoPrimes.Trapping.Search

/-!
# Two forms of one routine

A routine has a plain form and a trapping one.  `Agree plain trapping depth out`
says that both end with `out` on every scratch of at least `depth` words: the
trapping form has met none of its faults, and neither form can be influenced by
what the scratch holds or by how much more of it there is.

The rules follow the way the two forms are put together.  Where only the trapping
form takes a step, that step must have a result, and nothing else is asked.
-/

namespace CryptoPrimes

variable {w : Width} {α β : Type}

/-! ## Computations over scratch words -/

namespace Work

/-- Both forms end with `out` on any scratch of at least `depth` words. -/
structure Agree (plain trapping : Work w α) (depth : Nat) (out : Checked α) : Prop where
  plain : Computes plain depth out
  trapping : Computes trapping depth out

/-- A computation has one outcome. -/
theorem Computes.unique {work : Work w α} {depth depth' : Nat} {out out' : Checked α}
    (h : Computes work depth out) (h' : Computes work depth' out') : out = out' := by
  have hlength : (Limbs.zeros (max depth depth') : Limbs w).length = max depth depth' :=
    List.length_replicate
  rw [← h.fst_eq (hlength ▸ Nat.le_max_left depth depth'),
    ← h'.fst_eq (hlength ▸ Nat.le_max_right depth depth')]

variable {plain trapping : Work w α} {depth larger n : Nat} {out : Checked α}

theorem agree_pure (a : α) : Agree (w := w) (pure a) (pure a) 0 (.ok a) :=
  ⟨computes_pure a, computes_pure a⟩

/-- A step of checked results is its own trapping form. -/
theorem agree_lift (c : Checked α) (depth : Nat) :
    Agree (w := w) (liftM c) (liftM c) depth c :=
  ⟨(computes_lift c).mono (Nat.zero_le _), (computes_lift c).mono (Nat.zero_le _)⟩

theorem Agree.mono (h : Agree plain trapping depth out) (hle : depth ≤ larger) :
    Agree plain trapping larger out :=
  ⟨h.plain.mono hle, h.trapping.mono hle⟩

theorem Agree.bind {next next' : α → Work w β} {a : α} {out : Checked β}
    (h : Agree plain trapping depth (.ok a)) (hnext : Agree (next a) (next' a) depth out) :
    Agree (plain >>= next) (trapping >>= next') depth out :=
  ⟨h.plain.bind hnext.plain, h.trapping.bind hnext.trapping⟩

theorem Agree.bind_error {next next' : α → Work w β} {fault : Fault}
    (h : Agree plain trapping depth (.error fault)) :
    Agree (plain >>= next) (trapping >>= next') depth (.error fault) :=
  ⟨h.plain.bind_error, h.trapping.bind_error⟩

theorem Agree.then_pure (h : Agree plain trapping depth out) (f : α → β) :
    Agree (plain >>= fun a => pure (f a)) (trapping >>= fun a => pure (f a)) depth (out.map f) :=
  ⟨h.plain.then_pure f, h.trapping.then_pure f⟩

/-- A step that only the trapping form takes. -/
theorem Agree.settle {c : Checked β} {b : β} {next : β → Work w α} (hc : c = .ok b)
    (h : Agree plain (next b) depth out) : Agree plain (liftM c >>= next) depth out :=
  ⟨h.plain, .lift_bind hc h.trapping⟩

/-- A step of the same result in both forms. -/
theorem Agree.settle_both {c c' : Checked β} {b : β} {next next' : β → Work w α}
    (hc : c = .ok b) (hc' : c' = .ok b) (h : Agree (next b) (next' b) depth out) :
    Agree (liftM c >>= next) (liftM c' >>= next') depth out :=
  ⟨.lift_bind hc h.plain, .lift_bind hc' h.trapping⟩

/-- The same fault in both forms. -/
theorem Agree.settle_error {c c' : Checked β} {fault : Fault} {next next' : β → Work w α}
    (hc : c = .error fault) (hc' : c' = .error fault) :
    Agree (liftM c >>= next) (liftM c' >>= next') depth (.error fault) := by
  subst hc
  subst hc'
  exact (agree_lift _ _).bind_error

theorem Agree.withBuffer {body body' : Limbs w → Work w (α × Limbs w)}
    (hbody : ∀ buffer : Limbs w, buffer.length = n → ∃ contents,
      Agree (body buffer) (body' buffer) depth (out.map fun a => (a, contents))) :
    Agree (Work.withBuffer n body) (Work.withBuffer n body') (n + depth) out := by
  constructor
  · refine Computes.withBuffer fun buffer hbuffer => ?_
    obtain ⟨contents, h⟩ := hbody buffer hbuffer
    exact ⟨contents, h.plain⟩
  · refine Computes.withBuffer fun buffer hbuffer => ?_
    obtain ⟨contents, h⟩ := hbody buffer hbuffer
    exact ⟨contents, h.trapping⟩

end Work

/-! ## Searches -/

/-- A step that has a result, in a search. -/
theorem Trapping.attempt_bind {c : Checked α} {a : α} {next : α → Search w β} (hc : c = .ok a) :
    (Trapping.attempt c >>= next) = next a := by
  subst hc
  rfl

namespace Search

/-- Both forms report `events` and end with `out` on any scratch of at least
`depth` words. -/
structure Agree (plain trapping : Search w α) (depth : Nat) (events : List Event)
    (out : Checked α) : Prop where
  plain : Computes plain depth events out
  trapping : Computes trapping depth events out

variable {plain trapping : Search w α} {depth larger n : Nat} {events events' : List Event}
  {out : Checked α}

theorem agree_pure (a : α) (depth : Nat) : Agree (w := w) (pure a) (pure a) depth [] (.ok a) :=
  ⟨(computes_pure a).mono (Nat.zero_le _), (computes_pure a).mono (Nat.zero_le _)⟩

theorem Agree.mono (h : Agree plain trapping depth events out) (hle : depth ≤ larger) :
    Agree plain trapping larger events out :=
  ⟨h.plain.mono hle, h.trapping.mono hle⟩

theorem Agree.bind {next next' : α → Search w β} {a : α} {out : Checked β}
    (h : Agree plain trapping depth events (.ok a))
    (hnext : Agree (next a) (next' a) depth events' out) :
    Agree (plain >>= next) (trapping >>= next') depth (events ++ events') out :=
  ⟨h.plain.bind hnext.plain, h.trapping.bind hnext.trapping⟩

/-- A first part that reports nothing. -/
theorem Agree.bind_silent {next next' : α → Search w β} {a : α} {out : Checked β}
    (h : Agree plain trapping depth [] (.ok a))
    (hnext : Agree (next a) (next' a) depth events out) :
    Agree (plain >>= next) (trapping >>= next') depth events out :=
  h.bind hnext

theorem Agree.then_pure (h : Agree plain trapping depth events out) (f : α → β) :
    Agree (plain >>= fun a => pure (f a)) (trapping >>= fun a => pure (f a)) depth events
      (out.map f) :=
  ⟨h.plain.then_pure f, h.trapping.then_pure f⟩

theorem Agree.bind_error {next next' : α → Search w β} {fault : Fault}
    (h : Agree plain trapping depth events (.error fault)) :
    Agree (plain >>= next) (trapping >>= next') depth events (.error fault) :=
  ⟨h.plain.bind_error, h.trapping.bind_error⟩

theorem agree_quietly {work work' : Work w α} (h : Work.Agree work work' depth out) :
    Agree (quietly work) (quietly work') depth [] out :=
  ⟨computes_quietly h.plain, computes_quietly h.trapping⟩

/-- A report before the rest. -/
theorem Agree.after_emit (event : Event) (h : Agree plain trapping depth events out) :
    Agree (emit event >>= fun _ => plain) (emit event >>= fun _ => trapping) depth
      (event :: events) out :=
  ⟨h.plain.after_emit event, h.trapping.after_emit event⟩

theorem Agree.withBuffer {body body' : Limbs w → Search w (α × Limbs w)}
    (hbody : ∀ buffer : Limbs w, buffer.length = n → ∃ contents,
      Agree (body buffer) (body' buffer) depth events (out.map fun a => (a, contents))) :
    Agree (Search.withBuffer n body) (Search.withBuffer n body') (n + depth) events out := by
  constructor
  · refine Computes.withBuffer fun buffer hbuffer => ?_
    obtain ⟨contents, h⟩ := hbody buffer hbuffer
    exact ⟨contents, h.plain⟩
  · refine Computes.withBuffer fun buffer hbuffer => ?_
    obtain ⟨contents, h⟩ := hbody buffer hbuffer
    exact ⟨contents, h.trapping⟩

end Search

end CryptoPrimes
