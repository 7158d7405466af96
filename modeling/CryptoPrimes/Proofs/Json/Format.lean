import Mathlib.Data.List.Nodup
import CryptoPrimes.Json.Format

/-!
# What is written of a record is read as the record

A format and a codec come from elsewhere; the declaration of the fields does not.  It is
the declaration that decides whether something is lost: names must differ, and what is
left out when a record is written must be what is put in when it is read (`Lossless`).
Then the entries that are written denote the record (`denotes_entriesOf`), a documented
format reads them back one by one (`Documented.read_write_object`), and so a record
survives its text (`Codec.Derived.parse_render`).

Conversely, what an object denotes depends on the values of each declared name alone
(`denotes_object_congr`): the order of its entries says nothing, and neither do entries
of other names.
-/

namespace CryptoPrimes.Json

variable {T : Type} {fields : List (RecordField T)}
  {entries entries' : List (Option String × Value)}
  {format : Format} {codec : Codec T} {x : T}

/-! ## Entries of one name -/

theorem valuesOf_append (name : String) (entries entries' : List (Option String × Value)) :
    valuesOf name (entries ++ entries') = valuesOf name entries ++ valuesOf name entries' := by
  rw [valuesOf, List.filter_append, List.map_append]
  rfl

theorem valuesOf_cons (name : String) (entry : Option String × Value)
    (entries : List (Option String × Value)) : valuesOf name (entry :: entries) =
      if entry.1 = some name then entry.2 :: valuesOf name entries else valuesOf name entries := by
  by_cases h : entry.1 = some name <;> simp [valuesOf, h]

theorem valuesOf_eq_nil {name : String} (h : ∀ entry ∈ entries, entry.1 ≠ some name) :
    valuesOf name entries = [] := by
  rw [valuesOf, List.filter_eq_nil_iff.mpr (by simpa using h), List.map_nil]

theorem valuesOf_perm (name : String) (h : entries.Perm entries') :
    (valuesOf name entries).Perm (valuesOf name entries') :=
  (h.filter _).map _

/-! ## What an object denotes -/

theorem denotes_object_iff : Denotes fields (.object entries) x ↔
    (∀ entry ∈ entries, entry.1 ≠ none) ∧ ∀ field ∈ fields,
      valuesOf field.name entries = [field.value x] ∨
        valuesOf field.name entries = [] ∧ field.missing x = true :=
  ⟨fun | .object names once => ⟨names, once⟩, fun h => .object h.1 h.2⟩

theorem Denotes.perm (h : Denotes fields (.object entries) x) (hperm : entries.Perm entries') :
    Denotes fields (.object entries') x := by
  obtain ⟨hnames, honce⟩ := denotes_object_iff.mp h
  refine .object (fun entry hentry => hnames entry (hperm.mem_iff.mpr hentry)) fun field hfield => ?_
  have hvalues := valuesOf_perm field.name hperm
  rcases honce field hfield with hone | ⟨hnil, hmissing⟩
  · rw [hone] at hvalues
    exact .inl hvalues.singleton_eq.symm
  · rw [hnil] at hvalues
    exact .inr ⟨hvalues.nil_eq.symm, hmissing⟩

/-- An entry says nothing if no field has its name. -/
theorem denotes_unknown_iff {name : String} (value : Value)
    (hname : ∀ field ∈ fields, name ≠ field.name) :
    Denotes fields (.object (entries ++ (some name, value) :: entries')) x ↔
      Denotes fields (.object (entries ++ entries')) x := by
  have hvalues : ∀ field ∈ fields, valuesOf field.name (entries ++ (some name, value) :: entries') =
      valuesOf field.name (entries ++ entries') := by
    intro field hfield
    rw [valuesOf_append, valuesOf_cons, if_neg (by simpa using hname field hfield), valuesOf_append]
  rw [denotes_object_iff, denotes_object_iff]
  refine and_congr ?_ (forall₂_congr fun field hfield => by rw [hvalues field hfield])
  simp only [List.forall_mem_append, List.forall_mem_cons]
  simp

/-- A default says as much as nothing, where it is the only entry of its field. -/
theorem denotes_default_iff {default : RecordField T} (hmem : default ∈ fields)
    (hnames : (fields.map RecordField.name).Nodup) {value : Value}
    (hvalue : ∀ x, default.value x = value ↔ default.missing x = true)
    (honly : ∀ entry ∈ entries ++ entries', entry.1 ≠ some default.name) :
    Denotes fields (.object (entries ++ (some default.name, value) :: entries')) x ↔
      Denotes fields (.object (entries ++ entries')) x := by
  have hnone := valuesOf_eq_nil honly
  have hnil := List.append_eq_nil_iff.mp (valuesOf_append .. ▸ hnone)
  rw [denotes_object_iff, denotes_object_iff]
  refine and_congr ?_ (forall₂_congr fun field hfield => ?_)
  · simp only [List.forall_mem_append, List.forall_mem_cons]
    simp
  · by_cases heq : default.name = field.name
    · obtain rfl : default = field := List.inj_on_of_nodup_map hnames hmem hfield heq
      rw [hnone, valuesOf_append, valuesOf_cons, if_pos rfl, hnil.1, hnil.2]
      simp [← hvalue, eq_comm]
    · rw [valuesOf_append, valuesOf_cons, if_neg (by simpa using heq), valuesOf_append]

/-! ## What is written -/

/-- A declaration that loses nothing: its names need no escapes and differ, and a field that
is left out has the default that stands for it. -/
structure Lossless (fields : List (RecordField T)) : Prop where
  plain : ∀ field ∈ fields, field.name.toList.all isPlain = true
  nodup : (fields.map RecordField.name).Nodup
  default : ∀ field ∈ fields, ∀ x, field.skipped x = true → field.missing x = true

theorem valuesOf_entriesOf (hnodup : (fields.map RecordField.name).Nodup) {field : RecordField T}
    (hfield : field ∈ fields) :
    valuesOf field.name ((entriesOf fields x).map fun entry => (some entry.1, entry.2)) =
      if field.skipped x then [] else [field.value x] := by
  induction fields with
  | nil => cases hfield
  | cons first fields ih =>
      rw [List.map_cons, List.nodup_cons] at hnodup
      have hrest : ∀ other ∈ fields, first.name ≠ other.name := fun other hother heq =>
        hnodup.1 (heq ▸ List.mem_map_of_mem hother)
      rcases List.mem_cons.mp hfield with rfl | hmem
      · have hnone : valuesOf field.name
            ((entriesOf fields x).map fun entry => (some entry.1, entry.2)) = [] := by
          refine valuesOf_eq_nil fun entry hentry => ?_
          simp only [entriesOf, List.mem_map, List.mem_filter] at hentry
          obtain ⟨_, ⟨other, ⟨hother, -⟩, rfl⟩, rfl⟩ := hentry
          exact fun heq => hrest other hother (Option.some.inj heq).symm
        cases hskip : field.skipped x
        · rw [entriesOf, List.filter_cons_of_pos (by simp [hskip]), List.map_cons, List.map_cons,
            valuesOf_cons, if_pos rfl]
          exact congrArg (_ :: ·) hnone
        · rw [entriesOf, List.filter_cons_of_neg (by simp [hskip])]
          exact hnone
      · cases hskip : first.skipped x
        · rw [entriesOf, List.filter_cons_of_pos (by simp [hskip]), List.map_cons, List.map_cons,
            valuesOf_cons, if_neg (by simpa using hrest field hmem)]
          exact ih hnodup.2 hmem
        · rw [entriesOf, List.filter_cons_of_neg (by simp [hskip])]
          exact ih hnodup.2 hmem

/-- What is written of a record denotes it. -/
theorem denotes_entriesOf (h : Lossless fields) (x : T) :
    Denotes fields (.object ((entriesOf fields x).map fun entry => (some entry.1, entry.2))) x := by
  refine .object (List.forall_mem_map.mpr fun _ _ => Option.some_ne_none _) fun field hfield => ?_
  rw [valuesOf_entriesOf h.nodup hfield]
  cases hskip : field.skipped x
  · exact .inl rfl
  · exact .inr ⟨rfl, h.default field hfield x hskip⟩

/-! ## Texts -/

namespace Format

theorem entry_eq_some_iff {member : String × String} {name : Option String} {value : Value} :
    format.entry member = some (name, value) ↔
      format.read member.1 = some (.string name) ∧ format.read member.2 = some value := by
  rw [Format.entry]
  split
  · next name' hname =>
      rw [hname, Option.map_eq_some_iff]
      constructor
      · rintro ⟨_, hvalue, ⟨⟩⟩
        exact ⟨rfl, hvalue⟩
      · rintro ⟨⟨⟩, hvalue⟩
        exact ⟨_, hvalue, rfl⟩
  · next hnone =>
      constructor
      · rintro ⟨⟩
      · rintro ⟨hname, -⟩
        exact absurd hname (hnone name)

theorem map_entry {members : List (String × String)}
    (h : ∀ member ∈ members, (format.entry member).isSome = true) :
    members.map format.entry = (members.filterMap format.entry).map some := by
  induction members with
  | nil => rfl
  | cons member members ih =>
      rw [List.forall_mem_cons] at h
      obtain ⟨entry, hentry⟩ := Option.isSome_iff_exists.mp h.1
      rw [List.map_cons, ih h.2, List.filterMap_cons_some hentry, List.map_cons, hentry]

namespace Documented

/-- An object is read as it was written, if its values are. -/
theorem read_write_object (h : format.Documented) {entries : List (String × Value)}
    (hentries : ∀ entry ∈ entries, entry.1.toList.all isPlain = true ∧
      format.read (format.write entry.2) = some entry.2) :
    format.read (format.write (.object (entries.map fun entry => (some entry.1, entry.2)))) =
      some (.object (entries.map fun entry => (some entry.1, entry.2))) := by
  rw [h.write_object entries fun entry hentry => (hentries entry hentry).1]
  refine h.read_object _ _ ?_
  rw [List.map_map, List.map_map]
  refine List.map_congr_left fun entry hentry => ?_
  obtain ⟨hplain, hvalue⟩ := hentries entry hentry
  exact entry_eq_some_iff.mpr ⟨h.read_name _ hplain, hvalue⟩

theorem read_write_size (h : format.Documented) {n : Nat} (hn : n < 2 ^ 64) :
    format.read (format.write (.number (some n))) = some (.number (some n)) := by
  rw [h.write_size n hn, h.read_size n hn]

/-- A name and a value may have blanks around them. -/
theorem entry_blanks (h : format.Documented) {member : String × String}
    {entry : Option String × Value} (hentry : format.entry member = some entry)
    {a b c d : String} (ha : a.toList.all isBlank = true) (hb : b.toList.all isBlank = true)
    (hc : c.toList.all isBlank = true) (hd : d.toList.all isBlank = true) :
    format.entry (a ++ member.1 ++ b, c ++ member.2 ++ d) = some entry := by
  obtain ⟨hname, hvalue⟩ := entry_eq_some_iff.mp hentry
  exact entry_eq_some_iff.mpr
    ⟨h.read_blanks _ _ _ _ ha hb hname, h.read_blanks _ _ _ _ hc hd hvalue⟩

end Documented

end Format

theorem parse_eq_some_iff {text : String} : codec.parse format text = some x ↔
    ∃ value, format.read text = some value ∧ codec.ofValue value = some x :=
  Option.bind_eq_some_iff

namespace Codec

/-- What is written of a record is read as its entries, if the values of its fields are read
as they are written. -/
theorem Derived.read_render {Fits : T → Prop} (hcodec : codec.Derived fields Fits)
    (hformat : format.Documented) (hfields : Lossless fields) (hx : Fits x)
    (hvalues : ∀ field ∈ fields, field.skipped x = false →
      format.read (format.write (field.value x)) = some (field.value x)) :
    format.read (codec.render format x) =
      some (.object ((entriesOf fields x).map fun entry => (some entry.1, entry.2))) := by
  rw [render, hcodec.toValue x hx]
  refine hformat.read_write_object fun entry hentry => ?_
  obtain ⟨field, hfield, rfl⟩ := List.mem_map.mp hentry
  obtain ⟨hmem, hskip⟩ := List.mem_filter.mp hfield
  exact ⟨hfields.plain field hmem, hvalues field hmem (by simpa using hskip)⟩

/-- A record survives being written and read. -/
theorem Derived.parse_render {Fits : T → Prop} (hcodec : codec.Derived fields Fits)
    (hformat : format.Documented) (hfields : Lossless fields) (hx : Fits x)
    (hvalues : ∀ field ∈ fields, field.skipped x = false →
      format.read (format.write (field.value x)) = some (field.value x)) :
    codec.parse format (codec.render format x) = some x :=
  parse_eq_some_iff.mpr ⟨_, hcodec.read_render hformat hfields hx hvalues,
    (hcodec.ofValue _ x).mpr ⟨hx, denotes_entriesOf hfields x⟩⟩

/-- An object is read as what its entries denote. -/
theorem Derived.parse_objectText {Fits : T → Prop} (hcodec : codec.Derived fields Fits)
    (hformat : format.Documented) {members : List (String × String)}
    (h : members.map format.entry = entries.map some) :
    codec.parse format (objectText members) = some x ↔
      Fits x ∧ Denotes fields (.object entries) x := by
  rw [parse_eq_some_iff, hformat.read_object members entries h, ← hcodec.ofValue]
  simp

/-- Two objects are read alike if their entries denote the same. -/
theorem Derived.parse_congr {Fits : T → Prop} (hcodec : codec.Derived fields Fits)
    (hformat : format.Documented) {members members' : List (String × String)}
    (h : members.map format.entry = entries.map some)
    (h' : members'.map format.entry = entries'.map some)
    (hsame : ∀ x, Denotes fields (.object entries) x ↔ Denotes fields (.object entries') x) :
    codec.parse format (objectText members) = codec.parse format (objectText members') := by
  refine Option.ext fun x => ?_
  rw [hcodec.parse_objectText hformat h,
    hcodec.parse_objectText hformat h', hsame]

/-- A member is idle among others if its entry is. -/
theorem Derived.parse_insert {Fits : T → Prop} (hcodec : codec.Derived fields Fits)
    (hformat : format.Documented) {before behind : List (String × String)}
    {member : String × String} {entry : Option String × Value}
    (hmember : format.entry member = some entry)
    (hothers : ∀ other ∈ before ++ behind, (format.entry other).isSome = true)
    (hidle : ∀ x, Denotes fields
      (.object (before.filterMap format.entry ++ entry :: behind.filterMap format.entry)) x ↔
      Denotes fields (.object (before.filterMap format.entry ++ behind.filterMap format.entry)) x) :
    codec.parse format (objectText (before ++ member :: behind)) =
      codec.parse format (objectText (before ++ behind)) := by
  rw [List.forall_mem_append] at hothers
  have hbefore := Format.map_entry hothers.1
  have hbehind := Format.map_entry hothers.2
  refine hcodec.parse_congr hformat ?_ ?_ hidle
  · rw [List.map_append, List.map_cons, hbefore, hbehind, hmember, List.map_append, List.map_cons]
  · rw [List.map_append, hbefore, hbehind, List.map_append]

/-- What has a plain name survives as its name. -/
theorem Named.parse_render {name : T → String} (hcodec : codec.Named name)
    (hformat : format.Documented) (hplain : (name x).toList.all isPlain = true) :
    codec.parse format (codec.render format x) = some x := by
  refine parse_eq_some_iff.mpr ⟨_, ?_, (hcodec.ofValue _ x).mpr (.inl rfl)⟩
  rw [render, hcodec.toValue, hformat.write_name _ hplain, hformat.read_name _ hplain]

end Codec

end CryptoPrimes.Json
