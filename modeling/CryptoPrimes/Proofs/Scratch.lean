import CryptoPrimes.Scratch

/-!
# Computations that scratch contents cannot influence

`Work.Computes work depth out` says that `work` ends with `out` on every scratch
of at least `depth` words, whatever the words hold, and that it gives back a
scratch of the same length whose words from `depth` on are untouched.  The
outcome is a fixed value: two runs on different scratch can only differ in what
they leave in the first `depth` words.

The rules below follow the way computations are put together, so that a routine
is understood once and then replaced by its outcome.
-/

namespace CryptoPrimes.Work

variable {w : Width} {α β : Type}

/-- `work` ends with `out` on any scratch of at least `depth` words and leaves
the words beyond alone. -/
def Computes (work : Work w α) (depth : Nat) (out : Checked α) : Prop :=
  ∀ scratch : Limbs w, depth ≤ scratch.length →
    match out with
    | .ok result => ∃ rest, work scratch = .ok (result, rest) ∧
        rest.length = scratch.length ∧ rest.drop depth = scratch.drop depth
    | .error fault => work scratch = .error fault

theorem computes_pure (a : α) : Computes (w := w) (pure a) 0 (.ok a) :=
  fun scratch _ => ⟨scratch, rfl, rfl, rfl⟩

theorem computes_lift (c : Checked α) : Computes (w := w) (liftM c) 0 c := by
  intro scratch _
  cases c with
  | ok a => exact ⟨scratch, rfl, rfl, rfl⟩
  | error fault => rfl

theorem Computes.mono {work : Work w α} {depth larger : Nat} {out : Checked α}
    (h : Computes work depth out) (hle : depth ≤ larger) : Computes work larger out := by
  intro scratch hlarger
  have hrun := h scratch (Nat.le_trans hle hlarger)
  cases out with
  | error fault => exact hrun
  | ok a =>
      obtain ⟨rest, hwork, hlength, hframe⟩ := hrun
      refine ⟨rest, hwork, hlength, ?_⟩
      have hskip : larger = depth + (larger - depth) := by omega
      rw [hskip, ← List.drop_drop, hframe, List.drop_drop]

/-- Two computations in turn, on the same scratch. -/
theorem Computes.bind {first : Work w α} {next : α → Work w β} {depth : Nat} {a : α}
    {out : Checked β} (hfirst : Computes first depth (.ok a))
    (hnext : Computes (next a) depth out) : Computes (first >>= next) depth out := by
  intro scratch hdepth
  obtain ⟨middle, hrun, hlength, hframe⟩ := hfirst scratch hdepth
  have hthen := hnext middle (by omega)
  have hbind : (first >>= next) scratch = next a middle := by
    show (first scratch >>= fun p => next p.1 p.2) = _
    rw [hrun]
    rfl
  rw [hbind]
  cases out with
  | error fault => exact hthen
  | ok b =>
      obtain ⟨rest, hwork, hlength', hframe'⟩ := hthen
      exact ⟨rest, hwork, hlength'.trans hlength, hframe'.trans hframe⟩

theorem Computes.bind_error {first : Work w α} {next : α → Work w β} {depth : Nat}
    {fault : Fault} (hfirst : Computes first depth (.error fault)) :
    Computes (first >>= next) depth (.error fault) := by
  intro scratch hdepth
  have hrun : first scratch = .error fault := hfirst scratch hdepth
  show (first scratch >>= fun p => next p.1 p.2) = _
  rw [hrun]
  rfl

/-- A step of fixed outcome followed by a computation on its result. -/
theorem Computes.lift_bind {c : Checked α} {a : α} {next : α → Work w β} {depth : Nat}
    {out : Checked β} (hc : c = .ok a) (hnext : Computes (next a) depth out) :
    Computes (liftM c >>= next) depth out := by
  subst hc
  exact Computes.bind ((computes_lift (.ok a)).mono (Nat.zero_le _)) hnext

/-- A result passed on through a function. -/
theorem Computes.then_pure {work : Work w α} {depth : Nat} {out : Checked α}
    (h : Computes work depth out) (f : α → β) :
    Computes (work >>= fun a => pure (f a)) depth (out.map f) := by
  cases out with
  | ok a => exact h.bind ((computes_pure (f a)).mono (Nat.zero_le _))
  | error fault => exact h.bind_error

/-- A buffer from the front adds its length to what the body needs.  What the
body leaves in the buffer may depend on what it found there; its result may
not. -/
theorem Computes.withBuffer {n depth : Nat} {body : Limbs w → Work w (α × Limbs w)}
    {out : Checked α}
    (hbody : ∀ buffer : Limbs w, buffer.length = n →
      ∃ contents, Computes (body buffer) depth (out.map fun a => (a, contents))) :
    Computes (Work.withBuffer n body) (n + depth) out := by
  intro scratch hdepth
  have htake : (scratch.take n).length = n := by
    rw [List.length_take]
    omega
  obtain ⟨contents, hrun⟩ := hbody (scratch.take n) htake
  have hrun := hrun (scratch.drop n) (by rw [List.length_drop]; omega)
  unfold Work.withBuffer
  rw [if_pos (by omega)]
  cases out with
  | error fault =>
      have herror : body (scratch.take n) (scratch.drop n) = .error fault := hrun
      rw [herror]
  | ok a =>
      obtain ⟨rest, hwork, hlength, hframe⟩ := hrun
      rw [hwork]
      refine ⟨_, rfl, ?_, ?_⟩
      · rw [List.length_append, Limbs.length_overwrite, hlength, List.length_take,
          List.length_drop]
        omega
      · have hfront : (Limbs.overwrite (scratch.take n) contents).length = n := by
          rw [Limbs.length_overwrite, htake]
        rw [← List.drop_drop, List.drop_left' hfront, hframe, List.drop_drop]

/-- The outcome is the same on any two scratches that are long enough. -/
theorem Computes.fst_eq {work : Work w α} {depth : Nat} {out : Checked α}
    (h : Computes work depth out) {scratch : Limbs w} (hdepth : depth ≤ scratch.length) :
    (work scratch).map Prod.fst = out := by
  have hrun := h scratch hdepth
  cases out with
  | error fault =>
      have herror : work scratch = .error fault := hrun
      rw [herror]
      rfl
  | ok a =>
      obtain ⟨rest, hwork, -, -⟩ := hrun
      rw [hwork]
      rfl

end CryptoPrimes.Work
