import CryptoPrimes.Prime.Search
import CryptoPrimes.Proofs.Scratch

/-!
# Searches that scratch contents cannot influence

`Search.Computes search depth events out` is `Work.Computes` for a computation
that reports: on every scratch of at least `depth` words it reports exactly
`events`, in this order, and ends with `out`.  A computation that faults has
still reported its events.

The rules follow the way searches are put together; `Computes.run` reads off the
report of a whole search.
-/

namespace CryptoPrimes.Search

variable {w : Width} {α β : Type}

/-- `search` reports `events` and ends with `out` on any scratch of at least
`depth` words, and leaves the words beyond alone. -/
def Computes (search : Search w α) (depth : Nat) (events : List Event) (out : Checked α) :
    Prop :=
  ∀ s : SearchState w, depth ≤ s.scratch.length →
    match out with
    | .ok result => ∃ rest, search s = .ok result ⟨rest, events.reverse ++ s.latest⟩ ∧
        rest.length = s.scratch.length ∧ rest.drop depth = s.scratch.drop depth
    | .error fault => ∃ t, search s = .error fault t ∧ t.latest = events.reverse ++ s.latest

theorem computes_pure (a : α) : Computes (w := w) (pure a) 0 [] (.ok a) :=
  fun s _ => ⟨s.scratch, rfl, rfl, rfl⟩

theorem computes_emit (event : Event) : Computes (w := w) (emit event) 0 [event] (.ok ()) :=
  fun s _ => ⟨s.scratch, rfl, rfl, rfl⟩

/-- A condition that holds is no step at all. -/
theorem ensure_bind {p : Prop} [Decidable p] (hp : p) (fault : Fault)
    (next : Unit → Search w β) : (ensure p fault >>= next) = next () := by
  funext s
  show EStateM.bind (ensure p fault) next s = next () s
  rw [EStateM.bind, ensure, if_pos hp]

theorem computes_quietly {work : Work w α} {depth : Nat} {out : Checked α}
    (h : Work.Computes work depth out) : Computes (quietly work) depth [] out := by
  intro s hdepth
  have hrun := h s.scratch hdepth
  cases out with
  | ok a =>
      obtain ⟨rest, hwork, hlength, hframe⟩ := hrun
      refine ⟨rest, ?_, hlength, hframe⟩
      unfold quietly
      rw [hwork]
      rfl
  | error fault =>
      have herror : work s.scratch = .error fault := hrun
      refine ⟨s, ?_, rfl⟩
      unfold quietly
      rw [herror]

variable {search : Search w α} {next : α → Search w β} {depth : Nat}
  {events events' : List Event} {a : α} {fault : Fault}

theorem Computes.mono {out : Checked α} {larger : Nat} (h : Computes search depth events out)
    (hle : depth ≤ larger) : Computes search larger events out := by
  intro s hlarger
  have hrun := h s (Nat.le_trans hle hlarger)
  cases out with
  | error fault => exact hrun
  | ok a =>
      obtain ⟨rest, hsearch, hlength, hframe⟩ := hrun
      refine ⟨rest, hsearch, hlength, ?_⟩
      have hskip : larger = depth + (larger - depth) := by omega
      rw [hskip, ← List.drop_drop, hframe, List.drop_drop]

/-- Two searches in turn report one after the other. -/
theorem Computes.bind {out : Checked β} (hfirst : Computes search depth events (.ok a))
    (hnext : Computes (next a) depth events' out) :
    Computes (search >>= next) depth (events ++ events') out := by
  intro s hdepth
  obtain ⟨middle, hrun, hlength, hframe⟩ := hfirst s hdepth
  have hthen := hnext ⟨middle, events.reverse ++ s.latest⟩ (hlength ▸ hdepth)
  have hbind : (search >>= next) s = next a ⟨middle, events.reverse ++ s.latest⟩ := by
    show EStateM.bind search next s = _
    rw [EStateM.bind, hrun]
  have hjoined : (events ++ events').reverse ++ s.latest =
      events'.reverse ++ (events.reverse ++ s.latest) := by
    rw [List.reverse_append, List.append_assoc]
  rw [hbind, hjoined]
  cases out with
  | error fault => exact hthen
  | ok b =>
      obtain ⟨rest, hsearch, hlength', hframe'⟩ := hthen
      exact ⟨rest, hsearch, hlength'.trans hlength, hframe'.trans hframe⟩

theorem Computes.bind_error (hfirst : Computes search depth events (.error fault)) :
    Computes (search >>= next) depth events (.error fault) := by
  intro s hdepth
  obtain ⟨t, hrun, hlatest⟩ := hfirst s hdepth
  refine ⟨t, ?_, hlatest⟩
  show EStateM.bind search next s = _
  rw [EStateM.bind, hrun]

/-- A silent first step. -/
theorem Computes.bind_silent {out : Checked β} (hfirst : Computes search depth [] (.ok a))
    (hnext : Computes (next a) depth events out) :
    Computes (search >>= next) depth events out :=
  hfirst.bind hnext

/-- A last step that only has a result. -/
theorem Computes.bind_result {b : β} (hfirst : Computes search depth events (.ok a))
    (hnext : next a = pure b) : Computes (search >>= next) depth events (.ok b) := by
  have hthen : Computes (search >>= next) depth (events ++ []) (.ok b) := by
    apply hfirst.bind
    rw [hnext]
    exact (computes_pure b).mono (Nat.zero_le depth)
  rwa [List.append_nil] at hthen

/-- A report before the rest. -/
theorem Computes.after_emit {rest : Search w α} {out : Checked α} (event : Event)
    (h : Computes rest depth events out) :
    Computes (emit event >>= fun _ => rest) depth (event :: events) out :=
  ((computes_emit event).mono (Nat.zero_le depth)).bind h

/-- A report before a result. -/
theorem computes_report (event : Event) (a : α) (depth : Nat) :
    Computes (w := w) (emit event >>= fun _ => pure a) depth [event] (.ok a) :=
  ((computes_pure a).mono (Nat.zero_le depth)).after_emit event

/-- A result passed on through a function. -/
theorem Computes.then_pure {out : Checked α} (h : Computes search depth events out)
    (f : α → β) : Computes (search >>= fun a => pure (f a)) depth events (out.map f) := by
  cases out with
  | ok a => exact h.bind_result rfl
  | error fault => exact h.bind_error

/-- A buffer from the front adds its length to what the body needs. -/
theorem Computes.withBuffer {n : Nat} {body : Limbs w → Search w (α × Limbs w)}
    {out : Checked α}
    (hbody : ∀ buffer : Limbs w, buffer.length = n →
      ∃ contents, Computes (body buffer) depth events (out.map fun a => (a, contents))) :
    Computes (Search.withBuffer n body) (n + depth) events out := by
  intro s hdepth
  have htake : (s.scratch.take n).length = n := by
    rw [List.length_take]
    omega
  obtain ⟨contents, hrun⟩ := hbody (s.scratch.take n) htake
  have hrun := hrun ⟨s.scratch.drop n, s.latest⟩
    (by show depth ≤ (s.scratch.drop n).length; rw [List.length_drop]; omega)
  unfold Search.withBuffer
  rw [if_pos (by omega)]
  cases out with
  | error fault =>
      obtain ⟨t, hsearch, hlatest⟩ := hrun
      refine ⟨t, ?_, hlatest⟩
      dsimp only
      rw [hsearch]
  | ok a =>
      obtain ⟨rest, hsearch, hlength, hframe⟩ := hrun
      dsimp only at hlength hframe ⊢
      rw [hsearch]
      refine ⟨_, rfl, ?_, ?_⟩
      · rw [List.length_append, Limbs.length_overwrite, hlength, List.length_take,
          List.length_drop]
        omega
      · have hfront : (Limbs.overwrite (s.scratch.take n) contents).length = n := by
          rw [Limbs.length_overwrite, htake]
        rw [← List.drop_drop, List.drop_left' hfront, hframe, List.drop_drop]

/-- A body is only given buffers of the length asked for. -/
theorem withBuffer_congr {n : Nat} {body body' : Limbs w → Search w (α × Limbs w)}
    (h : ∀ buffer : Limbs w, buffer.length = n → body buffer = body' buffer) :
    Search.withBuffer n body = Search.withBuffer n body' := by
  funext s
  unfold Search.withBuffer
  by_cases hn : n ≤ s.scratch.length
  · have hbody := h (s.scratch.take n) (List.length_take_of_le hn)
    rw [if_pos hn, if_pos hn]
    dsimp only
    rw [hbody]
  · rw [if_neg hn, if_neg hn]

/-- The report of a whole search. -/
theorem Computes.run {out : Checked α} (h : Computes search depth events out)
    {scratch : Limbs w} (hdepth : depth ≤ scratch.length) :
    (search.run scratch).events = events ∧
      (search.run scratch).outcome.map Prod.fst = out := by
  have hrun := h ⟨scratch, []⟩ hdepth
  unfold Search.run
  cases out with
  | ok a =>
      obtain ⟨rest, hsearch, -, -⟩ := hrun
      rw [hsearch]
      exact ⟨by simp, rfl⟩
  | error fault =>
      obtain ⟨t, hsearch, hlatest⟩ := hrun
      rw [hsearch]
      exact ⟨by simp [hlatest], rfl⟩

/-- A search reports one thing and has one outcome. -/
theorem Computes.unique {out out' : Checked α} {depth' : Nat} {events' : List Event}
    (h : Computes search depth events out) (h' : Computes search depth' events' out') :
    events = events' ∧ out = out' := by
  have hlength : (Limbs.zeros (max depth depth') : Limbs w).length = max depth depth' :=
    List.length_replicate
  obtain ⟨hevents, hout⟩ := h.run (hlength ▸ Nat.le_max_left depth depth')
  obtain ⟨hevents', hout'⟩ := h'.run (hlength ▸ Nat.le_max_right depth depth')
  exact ⟨hevents.symm.trans hevents', hout.symm.trans hout'⟩

/-- The report of a whole search that has a result. -/
theorem Computes.run_eq (h : Computes search depth events (.ok a)) {scratch : Limbs w}
    (hdepth : depth ≤ scratch.length) :
    ∃ rest, search.run scratch = ⟨events, .ok (a, rest)⟩ := by
  obtain ⟨rest, hsearch, -, -⟩ := h ⟨scratch, []⟩ hdepth
  refine ⟨rest, ?_⟩
  unfold Search.run
  rw [hsearch, List.append_nil]
  dsimp only
  rw [List.reverse_reverse]

/-- A search that reports nothing and works on no scratch. -/
theorem Computes.run_silent (h : Computes search 0 [] (.ok a)) (scratch : Limbs w) :
    search.run scratch = ⟨[], .ok (a, scratch)⟩ := by
  obtain ⟨rest, hsearch, -, hframe⟩ := h ⟨scratch, []⟩ (Nat.zero_le _)
  obtain rfl : rest = scratch := hframe
  unfold Search.run
  rw [hsearch]
  rfl

/-- What is worth more than a trace, behind events that are not. -/
theorem filter_debug {tests closing : List Event} (htests : ∀ event ∈ tests, event.level = .trace)
    (hclosing : ∀ event ∈ closing, event.level = .debug) :
    (tests ++ closing).filter (·.level = .debug) = closing := by
  have hnone : tests.filter (·.level = .debug) = [] := by
    refine List.filter_eq_nil_iff.mpr fun event hevent => ?_
    simp [htests event hevent]
  have hall : closing.filter (·.level = .debug) = closing := by
    refine List.filter_eq_self.mpr fun event hevent => ?_
    simp [hclosing event hevent]
  rw [List.filter_append, hnone, hall, List.nil_append]

/-! ## Results passed on -/

/-- The report of a search whose result is passed on through a function. -/
theorem run_map (search : Search w α) (f : α → β) (scratch : Limbs w) :
    (search >>= fun a => pure (f a)).run scratch = (search.run scratch).map f := by
  show Search.run (EStateM.bind search fun a => pure (f a)) scratch = _
  unfold Search.run EStateM.bind
  cases search ⟨scratch, []⟩ with
  | ok a s => rfl
  | error fault s => rfl

/-- A search that looks at its state first sees the whole scratch and no events. -/
theorem run_get (next : SearchState w → Search w α) (scratch : Limbs w) :
    (get >>= next).run scratch = (next ⟨scratch, []⟩).run scratch := rfl

end CryptoPrimes.Search
