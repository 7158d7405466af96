import CryptoPrimes.Source

/-!
# Words served in turn

Routines ask a byte source for one word after the other.  `serveWords` collects
the octets of the words, as long as none is refused; requests that are made in
turn are put together by `serveThen`, which is associative.

A metered source serves what the source inside serves and adds up the octets of
the words that were not refused.  A finite source serves its octet string from
the front.
-/

namespace CryptoPrimes

variable {w : Width} {σ : Type}

/-! ## Words served in turn -/

/-- What is served and, unless it was refused, what is served after it. -/
def serveThen (answer : Option Octets × σ) (next : σ → Option Octets × σ) : Option Octets × σ :=
  match answer with
  | (none, rest) => (none, rest)
  | (some octets, rest) => ((next rest).1.map (octets ++ ·), (next rest).2)

section

variable {answer : Option Octets × σ} {next next' : σ → Option Octets × σ} {rest : σ}
  {octets : Octets}

theorem serveThen_some_iff :
    serveThen answer next = (some octets, rest) ↔
      ∃ low middle high, answer = (some low, middle) ∧ next middle = (some high, rest) ∧
        octets = low ++ high := by
  obtain ⟨served, middle⟩ := answer
  constructor
  · intro h
    cases served with
    | none => cases h
    | some low =>
        obtain ⟨hoctets, hrest⟩ := Prod.ext_iff.mp h
        obtain ⟨high, hhigh, rfl⟩ := Option.map_eq_some_iff.mp hoctets
        exact ⟨low, middle, high, rfl, Prod.ext hhigh hrest, rfl⟩
  · rintro ⟨low, _, high, ⟨⟩, hnext, rfl⟩
    rw [serveThen, hnext]
    rfl

theorem serveThen_none_iff :
    serveThen answer next = (none, rest) ↔
      answer = (none, rest) ∨ ∃ low middle, answer = (some low, middle) ∧
        next middle = (none, rest) := by
  obtain ⟨served, middle⟩ := answer
  constructor
  · intro h
    cases served with
    | none => exact .inl h
    | some low =>
        obtain ⟨hoctets, hrest⟩ := Prod.ext_iff.mp h
        exact .inr ⟨low, middle, rfl, Prod.ext (Option.map_eq_none_iff.mp hoctets) hrest⟩
  · rintro (h | ⟨low, _, ⟨⟩, hnext⟩)
    · rw [h]
      rfl
    · rw [serveThen, hnext]
      rfl

theorem serveThen_assoc :
    serveThen (serveThen answer next) next' =
      serveThen answer fun middle => serveThen (next middle) next' := by
  obtain ⟨served, middle⟩ := answer
  cases served with
  | none => rfl
  | some low =>
      cases hlater : next middle with
      | mk later rest' => cases later <;> simp [serveThen, hlater, Function.comp_def]

theorem serveThen_empty : serveThen answer (fun rest => (some [], rest)) = answer := by
  obtain ⟨served, middle⟩ := answer
  cases served <;> simp [serveThen]

end

variable [ByteSource σ]

/-- The octets of `count` words requested in turn, if all are served, and the
source after the last request. -/
def serveWords (w : Width) : Nat → σ → Option Octets × σ
  | 0, source => (some [], source)
  | count + 1, source => serveThen (ByteSource.request source w.octets) (serveWords w count)

section

variable {source rest : σ} {octets : Octets} {count : Nat}

/-- Some words, and those behind them. -/
theorem serveWords_add (i j : Nat) (source : σ) :
    serveWords w (i + j) source = serveThen (serveWords w i source) (serveWords w j) := by
  induction i generalizing source with
  | zero => simp [serveWords, serveThen]
  | succ i ih =>
      rw [Nat.succ_add, serveWords, serveWords, serveThen_assoc]
      congr 1
      funext middle
      exact ih middle

theorem serveWords_succ (count : Nat) (source : σ) :
    serveWords w (count + 1) source =
      serveThen (serveWords w count source) (ByteSource.request · w.octets) := by
  rw [serveWords_add]
  congr 1
  funext middle
  exact serveThen_empty

/-- What has been refused is not served later. -/
theorem serveWords_none_mono {larger : Nat} (h : (serveWords w count source).1 = none)
    (hle : count ≤ larger) : (serveWords w larger source).1 = none := by
  obtain ⟨more, rfl⟩ := Nat.exists_eq_add_of_le hle
  rw [serveWords_add]
  generalize serveWords w count source = answer at h
  obtain ⟨_, rest⟩ := answer
  obtain rfl := h
  rfl

theorem length_serveWords (h : serveWords w count source = (some octets, rest)) :
    octets.length = count * w.octets := by
  induction count generalizing octets rest with
  | zero =>
      cases h
      exact (Nat.zero_mul _).symm
  | succ count ih =>
      rw [serveWords_succ, serveThen_some_iff] at h
      obtain ⟨low, middle, word, hserve, hrequest, rfl⟩ := h
      have hword : word.length = w.octets := ByteSource.length_request (by rw [hrequest])
      rw [List.length_append, ih hserve, hword, Nat.succ_mul]

/-- Words are refused at the first request that is refused. -/
theorem serveWords_none_iff :
    serveWords w count source = (none, rest) ↔
      ∃ k < count, ∃ octets middle, serveWords w k source = (some octets, middle) ∧
        ByteSource.request middle w.octets = (none, rest) := by
  induction count with
  | zero => simp [serveWords]
  | succ count ih =>
      rw [serveWords_succ, serveThen_none_iff, ih]
      simp only [Nat.lt_succ_iff_lt_or_eq, or_and_right, exists_or, exists_eq_left]

end

/-! ## Metered and finite sources -/

namespace Metered

variable {source : σ} {taken n count : Nat} {octets : Octets} {rest : Metered σ}

theorem request_some_iff :
    ByteSource.request (Metered.mk source taken) n = (some octets, rest) ↔
      ByteSource.request source n = (some octets, rest.source) ∧ rest.served = taken + n := by
  show Metered.request _ _ = _ ↔ _
  obtain ⟨middle, served⟩ := rest
  rw [Metered.request]
  dsimp only
  cases ByteSource.request source n with
  | mk answer next =>
      cases answer <;> simp [and_assoc, eq_comm]

theorem request_none_iff :
    ByteSource.request (Metered.mk source taken) n = (none, rest) ↔
      ByteSource.request source n = (none, rest.source) ∧ rest.served = taken := by
  show Metered.request _ _ = _ ↔ _
  obtain ⟨middle, served⟩ := rest
  rw [Metered.request]
  dsimp only
  cases ByteSource.request source n with
  | mk answer next =>
      cases answer <;> simp [eq_comm]

theorem serveWords_iff :
    serveWords w count (Metered.mk source taken) = (some octets, rest) ↔
      serveWords w count source = (some octets, rest.source) ∧
        rest.served = taken + count * w.octets := by
  induction count generalizing octets rest with
  | zero =>
      obtain ⟨middle, served⟩ := rest
      simp [serveWords, and_assoc, eq_comm]
  | succ count ih =>
      rw [serveWords_succ, serveWords_succ, serveThen_some_iff, serveThen_some_iff]
      constructor
      · rintro ⟨low, middle, high, hlow, hhigh, rfl⟩
        obtain ⟨hserved, hmiddle⟩ := ih.mp hlow
        obtain ⟨hrequest, hrest⟩ := request_some_iff.mp hhigh
        refine ⟨⟨low, middle.source, high, hserved, hrequest, rfl⟩, ?_⟩
        rw [hrest, hmiddle, Nat.succ_mul, Nat.add_assoc]
      · rintro ⟨⟨low, middle, high, hlow, hhigh, rfl⟩, hrest⟩
        refine ⟨low, ⟨middle, taken + count * w.octets⟩, high, ih.mpr ⟨hlow, rfl⟩,
          request_some_iff.mpr ⟨hhigh, ?_⟩, rfl⟩
        rw [hrest, Nat.succ_mul, Nat.add_assoc]

end Metered

namespace Finite

variable {octets : Octets} {count : Nat}

theorem serveWords_of_le (h : count * w.octets ≤ octets.length) :
    serveWords w count (Finite.mk octets) =
      (some (octets.take (count * w.octets)), ⟨octets.drop (count * w.octets)⟩) := by
  induction count with
  | zero => simp [serveWords]
  | succ count ih =>
      rw [Nat.succ_mul] at h
      rw [serveWords_succ, ih (by omega), serveThen]
      have hrequest : ByteSource.request (Finite.mk (octets.drop (count * w.octets))) w.octets =
          (some ((octets.drop (count * w.octets)).take w.octets),
            ⟨octets.drop (count * w.octets + w.octets)⟩) := by
        show Finite.request _ _ = _
        rw [Finite.request, if_pos (by rw [List.length_drop]; omega), List.drop_drop]
      rw [hrequest, Nat.succ_mul, List.take_add]
      rfl

theorem serveWords_of_lt (h : octets.length < count * w.octets) :
    (serveWords w count (Finite.mk octets)).1 = none := by
  induction count with
  | zero => omega
  | succ count ih =>
      rw [Nat.succ_mul] at h
      rcases Nat.lt_or_ge octets.length (count * w.octets) with hless | hge
      · exact serveWords_none_mono (ih hless) (Nat.le_succ count)
      · have hrequest : ByteSource.request (Finite.mk (octets.drop (count * w.octets))) w.octets =
            (none, ⟨octets.drop (count * w.octets)⟩) := by
          show Finite.request _ _ = _
          rw [Finite.request, if_neg (by rw [List.length_drop]; omega)]
        rw [serveWords_succ, serveWords_of_le hge, serveThen, hrequest]
        rfl

end Finite

end CryptoPrimes
