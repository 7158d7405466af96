import CryptoPrimes.Json.Strict
import CryptoPrimes.Prime.ParamsText
import CryptoPrimes.Proofs.Json.Strict

/-!
# Parameters and their texts

Which format and which codec read and write parameters is left open; the promises hold
for all that behave as documented (`TextForm`).  What makes them true is the declaration
of the fields: it loses nothing (`lossless_fields`), since the only field that may be
left out is the bit limit, and a missing one stands for none.  So parameters of machine
words are read as what they were written for (`parse_render`).

Many texts stand for the same parameters.  An object may have its entries in any order
and others among them; a null limit says as much as a missing one; blanks may stand
around every name and value; and there is the form without names.  All of them are
rewritten to one text.

At the end both codecs that run searches are shown to be as documented, so that the
promises are about them as well.
-/

namespace CryptoPrimes.Prime

open Json

namespace SearchParams

/-- Every field fits a machine word. -/
structure Sized (params : SearchParams) : Prop where
  trials : params.trials < 2 ^ 64
  sievePrimes : params.sievePrimes < 2 ^ 64
  bitLimit : ∀ limit ∈ params.bitLimit, limit < 2 ^ 64

section

variable {format : Format} {codec : Codec SearchParams} {params : SearchParams}
  {entries : List (Option String × Value)}

/-! ## The declaration -/

theorem forall_mem_fields {P : RecordField SearchParams → Prop} :
    (∀ field ∈ fields, P field) ↔ P trialsField ∧ P sieveField ∧ P limitField := by
  simp [fields]

theorem lossless_fields : Lossless fields where
  plain := by decide +kernel
  nodup := by decide +kernel
  default := forall_mem_fields.mpr ⟨fun _ => nofun, fun _ => nofun, fun _ h => h⟩

theorem limitValue_eq_null_iff {limit : Option Nat} :
    limitValue limit = .null ↔ limit.isNone = true := by
  cases limit <;> simp [limitValue, sizeValue]

theorem denotes_object_iff_values : Denotes fields (.object entries) params ↔
    (∀ entry ∈ entries, entry.1 ≠ none) ∧
      valuesOf "trials" entries = [sizeValue params.trials] ∧
      valuesOf "sieve_primes" entries = [sizeValue params.sievePrimes] ∧
      (valuesOf "bit_limit" entries = [limitValue params.bitLimit] ∨
        valuesOf "bit_limit" entries = [] ∧ params.bitLimit = none) := by
  rw [denotes_object_iff, forall_mem_fields]
  simp [trialsField, sieveField, limitField]

theorem denotes_array_iff {items : List Value} :
    Denotes fields (.array items) params ↔
      items = [sizeValue params.trials, sizeValue params.sievePrimes] ∧ params.bitLimit = none ∨
      items = [sizeValue params.trials, sizeValue params.sievePrimes,
        limitValue params.bitLimit] := by
  constructor
  · intro h
    cases h with
    | @array taken left _ all rest =>
        -- only the last field may be missing
        rcases taken with _ | ⟨a, _ | ⟨b, _ | ⟨c, taken⟩⟩⟩
        · cases all
          cases rest trialsField List.mem_cons_self
        · cases all
          cases rest sieveField List.mem_cons_self
        · cases all
          exact .inl ⟨rfl, Option.isNone_iff_eq_none.mp (rest limitField List.mem_cons_self)⟩
        · simp only [fields, List.cons_append, List.cons.injEq] at all
          obtain ⟨rfl, rfl, rfl, hnil⟩ := all
          obtain ⟨rfl, -⟩ := List.append_eq_nil_iff.mp hnil.symm
          exact .inr rfl
  · rintro (⟨rfl, hnone⟩ | rfl)
    · exact @Denotes.array _ fields [trialsField, sieveField] [limitField] params rfl
        (by simp [limitField, hnone])
    · exact @Denotes.array _ fields [trialsField, sieveField, limitField] [] params rfl (by simp)

/-! ## Written and read -/

theorem read_write_fields (hformat : format.Documented) (h : params.Sized) :
    ∀ field ∈ fields, field.skipped params = false →
      format.read (format.write (field.value params)) = some (field.value params) := by
  refine forall_mem_fields.mpr ⟨?_, ?_, ?_⟩
  · exact fun _ => hformat.read_write_size h.trials
  · exact fun _ => hformat.read_write_size h.sievePrimes
  · intro hskip
    obtain ⟨limit, hlimit⟩ := Option.isSome_iff_exists.mp (Option.isNone_eq_false_iff.mp hskip)
    simp only [limitField, hlimit]
    exact hformat.read_write_size (h.bitLimit limit hlimit)

theorem parse_render (hformat : format.Documented) (hcodec : codec.Derived fields Sized)
    (h : params.Sized) : codec.parse format (codec.render format params) = some params :=
  hcodec.parse_render hformat lossless_fields h (read_write_fields hformat h)

theorem entriesOf_fields (params : SearchParams) : entriesOf fields params =
    ("trials", sizeValue params.trials) :: ("sieve_primes", sizeValue params.sievePrimes) ::
      params.bitLimit.toList.map fun limit => ("bit_limit", sizeValue limit) := by
  obtain ⟨trials, sieve, limit⟩ := params
  cases limit <;> rfl

/-- The texts of the names and values that are written. -/
def writtenMembers (params : SearchParams) : List (String × String) :=
  (quote "trials", Nat.repr params.trials) :: (quote "sieve_primes", Nat.repr params.sievePrimes) ::
    params.bitLimit.toList.map fun limit => (quote "bit_limit", Nat.repr limit)

theorem render_eq (hformat : format.Documented) (hcodec : codec.Derived fields Sized)
    (h : params.Sized) : codec.render format params = objectText params.writtenMembers := by
  have hplain : ∀ entry ∈ entriesOf fields params, entry.1.toList.all isPlain = true := by
    intro entry hentry
    obtain ⟨field, hfield, rfl⟩ := List.mem_map.mp hentry
    exact lossless_fields.plain field (List.mem_filter.mp hfield).1
  rw [Codec.render, hcodec.toValue params h, hformat.write_object _ hplain, entriesOf_fields,
    List.map_cons, List.map_cons, List.map_map, writtenMembers]
  have hlimit : ∀ limit ∈ params.bitLimit.toList,
      (quote "bit_limit", format.write (sizeValue limit)) = (quote "bit_limit", Nat.repr limit) :=
    fun limit hmem => congrArg (_, ·)
      (hformat.write_size limit (h.bitLimit limit (Option.mem_toList.mp hmem)))
  exact congrArg objectText (congrArg₂ (· :: ·) (congrArg (_, ·) (hformat.write_size _ h.trials))
    (congrArg₂ (· :: ·) (congrArg (_, ·) (hformat.write_size _ h.sievePrimes))
      (List.map_congr_left hlimit)))

/-- What is promised of parameters as text. -/
structure TextForm (format : Format) (codec : Codec SearchParams) : Prop where
  /-- Parameters are written in one line without blanks, their fields in order. -/
  written : ∀ params : SearchParams, params.Sized →
    codec.render format params = objectText params.writtenMembers
  /-- The bit limit has its name in what is written exactly if there is one. -/
  limit : ∀ params : SearchParams, params.Sized → ∃ entries,
    format.read (codec.render format params) = some (.object entries) ∧
      (some "bit_limit" ∈ entries.map Prod.fst ↔ params.bitLimit.isSome = true)
  round_trip : ∀ params : SearchParams, params.Sized →
    codec.parse format (codec.render format params) = some params
  accepted : ∀ (text : String) (params : SearchParams), codec.parse format text = some params ↔
    params.Sized ∧ ∃ value, format.read text = some value ∧ Denotes fields value params
  blanks : ∀ (before text behind : String) (params : SearchParams),
    before.toList.all isBlank = true → behind.toList.all isBlank = true →
    codec.parse format text = some params →
    codec.parse format (before ++ text ++ behind) = some params
  /-- An object with two or all three fields; their names and values may be spelled in any way
  that is read. -/
  object : ∀ (trials sievePrimes bitLimit : String × String) (params : SearchParams),
    params.Sized → format.entry trials = some (some "trials", sizeValue params.trials) →
    format.entry sievePrimes = some (some "sieve_primes", sizeValue params.sievePrimes) →
    (params.bitLimit = none →
      codec.parse format (objectText [trials, sievePrimes]) = some params) ∧
    (format.entry bitLimit = some (some "bit_limit", limitValue params.bitLimit) →
      codec.parse format (objectText [trials, sievePrimes, bitLimit]) = some params)
  /-- Blanks may stand around every name and every value of an object. -/
  spaced : ∀ (before behind : List (String × String)) (member : String × String) (a b c d : String),
    (∀ blanks ∈ [a, b, c, d], blanks.toList.all isBlank = true) →
    (∀ other ∈ before ++ member :: behind, (format.entry other).isSome = true) →
    codec.parse format
        (objectText (before ++ (a ++ member.1 ++ b, c ++ member.2 ++ d) :: behind)) =
      codec.parse format (objectText (before ++ member :: behind))
  order : ∀ members members' : List (String × String), members.Perm members' →
    (∀ member ∈ members, (format.entry member).isSome = true) →
    codec.parse format (objectText members) = codec.parse format (objectText members')
  unknown : ∀ (before behind : List (String × String)) (member : String × String) (name : String)
    (value : Value), name ∉ ["trials", "sieve_primes", "bit_limit"] →
    format.entry member = some (some name, value) →
    (∀ other ∈ before ++ behind, (format.entry other).isSome = true) →
    codec.parse format (objectText (before ++ member :: behind)) =
      codec.parse format (objectText (before ++ behind))
  /-- A null limit says as much as none. -/
  null : ∀ (before behind : List (String × String)) (member : String × String),
    format.entry member = some (some "bit_limit", .null) →
    (∀ other ∈ before ++ behind, ∃ name value, format.entry other = some (name, value) ∧
      name ≠ some "bit_limit") →
    codec.parse format (objectText (before ++ member :: behind)) =
      codec.parse format (objectText (before ++ behind))
  /-- An array of two or all three fields. -/
  array : ∀ (trials sievePrimes bitLimit : String) (params : SearchParams), params.Sized →
    format.read trials = some (sizeValue params.trials) →
    format.read sievePrimes = some (sizeValue params.sievePrimes) →
    (params.bitLimit = none →
      codec.parse format (arrayText [trials, sievePrimes]) = some params) ∧
    (format.read bitLimit = some (limitValue params.bitLimit) →
      codec.parse format (arrayText [trials, sievePrimes, bitLimit]) = some params)
  /-- What is written says the same as what was read, and nothing else is written for it. -/
  canonical : ∀ (text : String) (params : SearchParams), codec.parse format text = some params →
    codec.parse format (codec.render format params) = some params ∧
      ∀ (text' : String) (params' : SearchParams), codec.parse format text' = some params' →
        (codec.render format params' = codec.render format params ↔ params' = params)

theorem parse_iff (hcodec : codec.Derived fields Sized) {text : String} :
    codec.parse format text = some params ↔
      params.Sized ∧ ∃ value, format.read text = some value ∧ Denotes fields value params := by
  simp only [parse_eq_some_iff, hcodec.ofValue]
  constructor
  · rintro ⟨value, hread, hsized, hvalue⟩
    exact ⟨hsized, value, hread, hvalue⟩
  · rintro ⟨hsized, value, hread, hvalue⟩
    exact ⟨value, hread, hsized, hvalue⟩

theorem parse_array (hformat : format.Documented) (hcodec : codec.Derived fields Sized)
    (hsized : params.Sized) {trials sievePrimes : String}
    (ht : format.read trials = some (sizeValue params.trials))
    (hs : format.read sievePrimes = some (sizeValue params.sievePrimes)) :
    (params.bitLimit = none →
      codec.parse format (arrayText [trials, sievePrimes]) = some params) ∧
    ∀ bitLimit, format.read bitLimit = some (limitValue params.bitLimit) →
      codec.parse format (arrayText [trials, sievePrimes, bitLimit]) = some params := by
  refine ⟨fun hnone => ?_, fun bitLimit hl => ?_⟩
  · refine (parse_iff hcodec).mpr ⟨hsized, _, hformat.read_array _
      [sizeValue params.trials, sizeValue params.sievePrimes] (by simp [ht, hs]), ?_⟩
    exact denotes_array_iff.mpr (.inl ⟨rfl, hnone⟩)
  · refine (parse_iff hcodec).mpr ⟨hsized, _, hformat.read_array _
      [sizeValue params.trials, sizeValue params.sievePrimes, limitValue params.bitLimit]
      (by simp [ht, hs, hl]), ?_⟩
    exact denotes_array_iff.mpr (.inr rfl)

theorem parse_object (hformat : format.Documented) (hcodec : codec.Derived fields Sized)
    (hsized : params.Sized) {trials sievePrimes : String × String}
    (ht : format.entry trials = some (some "trials", sizeValue params.trials))
    (hs : format.entry sievePrimes = some (some "sieve_primes", sizeValue params.sievePrimes)) :
    (params.bitLimit = none →
      codec.parse format (objectText [trials, sievePrimes]) = some params) ∧
    ∀ bitLimit, format.entry bitLimit = some (some "bit_limit", limitValue params.bitLimit) →
      codec.parse format (objectText [trials, sievePrimes, bitLimit]) = some params := by
  refine ⟨fun hnone => ?_, fun bitLimit hl => ?_⟩
  · refine (hcodec.parse_objectText hformat (show _ = List.map some [_, _] by
      rw [List.map_cons, List.map_singleton, ht, hs]; rfl)).mpr ⟨hsized, ?_⟩
    exact denotes_object_iff_values.mpr ⟨by simp, rfl, rfl, .inr ⟨rfl, hnone⟩⟩
  · refine (hcodec.parse_objectText hformat (show _ = List.map some [_, _, _] by
      rw [List.map_cons, List.map_cons, List.map_singleton, ht, hs, hl]; rfl)).mpr ⟨hsized, ?_⟩
    exact denotes_object_iff_values.mpr ⟨by simp, rfl, rfl, .inl rfl⟩

/-- Parameters survive being written and read.  Texts that are accepted may differ, but
what is written for them is the same exactly if they say the same. -/
theorem text_form (hformat : format.Documented) (hcodec : codec.Derived fields Sized) :
    TextForm format codec where
  written params h := render_eq hformat hcodec h
  limit params h := by
    refine ⟨_, hcodec.read_render hformat lossless_fields h (read_write_fields hformat h), ?_⟩
    rw [entriesOf_fields]
    cases params.bitLimit <;> simp
  round_trip params h := parse_render hformat hcodec h
  accepted text params := parse_iff hcodec
  blanks before text behind params hbefore hbehind h := by
    obtain ⟨value, hread, hvalue⟩ := parse_eq_some_iff.mp h
    exact parse_eq_some_iff.mpr ⟨value, hformat.read_blanks _ _ _ _ hbefore hbehind hread, hvalue⟩
  object _ _ bitLimit _ hsized ht hs :=
    (parse_object hformat hcodec hsized ht hs).imp_right fun h => h bitLimit
  spaced before behind member a b c d hblanks hmembers := by
    obtain ⟨entry, hentry⟩ := Option.isSome_iff_exists.mp
      (hmembers member List.mem_append_cons_self)
    have hspaced := hformat.entry_blanks hentry (hblanks a (by simp)) (hblanks b (by simp))
      (hblanks c (by simp)) (hblanks d (by simp))
    have hentries := Format.map_entry hmembers
    refine hcodec.parse_congr hformat ?_ hentries fun params => Iff.rfl
    rw [← hentries, List.map_append, List.map_append, List.map_cons, List.map_cons, hspaced, hentry]
  order members members' hperm hmembers := by
    refine hcodec.parse_congr hformat (Format.map_entry hmembers) (Format.map_entry fun member h =>
      hmembers member (hperm.mem_iff.mpr h)) fun params => ?_
    have hentries := hperm.filterMap format.entry
    exact ⟨fun h => h.perm hentries, fun h => h.perm hentries.symm⟩
  unknown before behind member name value hname hmember hothers :=
    hcodec.parse_insert hformat hmember hothers fun params =>
      denotes_unknown_iff value fun field hfield heq =>
        hname (heq ▸ List.mem_map_of_mem hfield : name ∈ fields.map RecordField.name)
  null before behind member hmember hothers := by
    refine hcodec.parse_insert hformat hmember (fun other hother => ?_) fun params => ?_
    · obtain ⟨name, value, hentry, -⟩ := hothers other hother
      exact Option.isSome_of_eq_some hentry
    · refine denotes_default_iff (show limitField ∈ fields by simp [fields])
        lossless_fields.nodup (fun _ => limitValue_eq_null_iff) fun entry hentry => ?_
      rw [← List.filterMap_append] at hentry
      obtain ⟨other, hother, heq⟩ := List.mem_filterMap.mp hentry
      obtain ⟨name, value, hentry, hne⟩ := hothers other hother
      rw [heq] at hentry
      cases hentry
      exact hne
  array _ _ bitLimit _ hsized ht hs :=
    (parse_array hformat hcodec hsized ht hs).imp_right fun h => h bitLimit
  canonical text params h := by
    have hparams := parse_render hformat hcodec ((parse_iff hcodec).mp h).1
    refine ⟨hparams, fun text' params' h' => ⟨fun hrender => ?_, congrArg _⟩⟩
    have hparams' := parse_render hformat hcodec ((parse_iff hcodec).mp h').1
    rw [hrender, hparams] at hparams'
    exact (Option.some.inj hparams').symm

end

/-! ## The codec that runs searches -/

theorem readSize_eq_some_iff {value : Value} {n : Nat} :
    readSize value = some n ↔ value = sizeValue n ∧ n < 2 ^ 64 := by
  constructor
  · intro h
    rw [readSize.eq_def] at h
    split at h
    · obtain ⟨hlt, heq⟩ := Option.ite_none_right_eq_some.mp h
      cases heq
      exact ⟨rfl, hlt⟩
    · cases h
  · rintro ⟨rfl, hlt⟩
    exact if_pos hlt

theorem readLimit_eq_some_iff {value : Value} {limit : Option Nat} :
    readLimit value = some limit ↔ value = limitValue limit ∧ ∀ n ∈ limit, n < 2 ^ 64 := by
  constructor
  · intro h
    rw [readLimit.eq_def] at h
    split at h
    · cases h
      exact ⟨rfl, by rintro _ ⟨⟩⟩
    · obtain ⟨n, hread, rfl⟩ := Option.map_eq_some_iff.mp h
      obtain ⟨rfl, hlt⟩ := readSize_eq_some_iff.mp hread
      exact ⟨rfl, by rintro _ ⟨⟩; exact hlt⟩
  · rintro ⟨rfl, hlt⟩
    cases limit with
    | none => rfl
    | some n => exact congrArg (Option.map some) (if_pos (hlt n rfl))

theorem ofParts_eq_some_iff {t s l : Value} {params : SearchParams} :
    ofParts t s l = some params ↔ params.Sized ∧ t = sizeValue params.trials ∧
      s = sizeValue params.sievePrimes ∧ l = limitValue params.bitLimit := by
  simp only [ofParts, Option.bind_eq_bind, Option.bind_eq_some_iff, readSize_eq_some_iff,
    readLimit_eq_some_iff]
  constructor
  · rintro ⟨_, ⟨rfl, ht⟩, _, ⟨rfl, hs⟩, _, ⟨rfl, hl⟩, ⟨⟩⟩
    exact ⟨⟨ht, hs, hl⟩, rfl, rfl, rfl⟩
  · rintro ⟨h, rfl, rfl, rfl⟩
    exact ⟨_, ⟨rfl, h.trials⟩, _, ⟨rfl, h.sievePrimes⟩, _, ⟨rfl, h.bitLimit⟩, rfl⟩

theorem sole_eq_some_iff {name : String} {missing : Option Value} {value : Value}
    {entries : List (Option String × Value)} : sole name missing entries = some value ↔
      valuesOf name entries = [value] ∨ valuesOf name entries = [] ∧ missing = some value := by
  rw [sole]
  split <;> simp_all

theorem ofValue_object_iff {entries : List (Option String × Value)} {params : SearchParams} :
    codec.ofValue (.object entries) = some params ↔
      params.Sized ∧ Denotes fields (.object entries) params := by
  rw [denotes_object_iff_values]
  simp only [codec, Option.ite_none_right_eq_some, Option.bind_eq_bind, Option.bind_eq_some_iff,
    sole_eq_some_iff, ofParts_eq_some_iff, List.all_eq_true, Option.isSome_iff_ne_none]
  have hnull : some Value.null = some (limitValue params.bitLimit) ↔ params.bitLimit = none := by
    rw [Option.some.injEq, eq_comm, limitValue_eq_null_iff, Option.isNone_iff_eq_none]
  constructor
  · rintro ⟨hnames, _, ht | ⟨-, ⟨⟩⟩, _, hs | ⟨-, ⟨⟩⟩, _, hl, hsized, rfl, rfl, rfl⟩
    exact ⟨hsized, hnames, ht, hs, hl.imp_right (And.imp_right hnull.mp)⟩
  · rintro ⟨hsized, hnames, ht, hs, hl⟩
    exact ⟨hnames, _, .inl ht, _, .inl hs, _, hl.imp_right (And.imp_right hnull.mpr), hsized,
      rfl, rfl, rfl⟩

theorem ofValue_array_iff {items : List Value} {params : SearchParams} :
    codec.ofValue (.array items) = some params ↔
      params.Sized ∧ Denotes fields (.array items) params := by
  rw [denotes_array_iff]
  match items with
  | [t, s] =>
      show ofParts t s .null = _ ↔ _
      rw [ofParts_eq_some_iff, eq_comm (a := Value.null), limitValue_eq_null_iff]
      simp [and_assoc]
  | [t, s, l] =>
      show ofParts t s l = _ ↔ _
      rw [ofParts_eq_some_iff]
      simp
  | [] | [_] | _ :: _ :: _ :: _ :: _ =>
      constructor
      · rintro ⟨⟩
      · rintro ⟨-, ⟨h, -⟩ | h⟩ <;> cases h

/-- The codec is as documented. -/
theorem codec_derived : codec.Derived fields Sized where
  toValue _ _ := rfl
  ofValue value params := by
    match value with
    | .object entries => exact ofValue_object_iff
    | .array items => exact ofValue_array_iff
    | .null | .bool _ | .number _ | .string _ =>
      constructor
      · rintro ⟨⟩
      · rintro ⟨-, ⟨⟩⟩

/-- The largest size, in an object with its fields from the last to the first, a null
limit and another field that has a known name inside: it is written in one line, and
so is what the array says. -/
theorem text_form_largest :
    let params : SearchParams := ⟨18446744073709551615, 32, none⟩
    strict.Documented ∧ codec.Derived fields Sized ∧
      codec.parse strict "\x7b \"x\": [1, \x7b\"trials\": 2\x7d],\n \"bit_limit\": null,\t
        \"sieve_primes\": 32, \"trials\": 18446744073709551615 \x7d" = some params ∧
      codec.parse strict "[18446744073709551615, 32]" = some params ∧
      codec.render strict params = "\x7b\"trials\":18446744073709551615,\"sieve_primes\":32\x7d" ∧
      codec.parse strict (codec.render strict params) = some params := by
  intro params
  have harray : codec.parse strict "[18446744073709551615, 32]" = some params := by decide +kernel
  exact ⟨strict_documented, codec_derived, by decide +kernel, harray, by decide +kernel,
    ((text_form strict_documented codec_derived).canonical _ _ harray).1⟩

end SearchParams

/-! ## Presets -/

namespace Preset

theorem ofName_eq_some_iff {text : String} {preset : Preset} :
    ofName text = some preset ↔ text = preset.name := by
  constructor
  · intro h
    have hname := List.find?_some h
    exact (of_decide_eq_true hname).symm
  · rintro rfl
    cases preset <;> decide +kernel

/-- The codec is as documented. -/
theorem codec_named : codec.Named name where
  toValue _ := rfl
  ofValue value preset := by
    constructor
    · intro h
      simp only [codec] at h
      split at h
      · exact .inl (ofName_eq_some_iff.mp h ▸ rfl)
      · exact .inr (ofName_eq_some_iff.mp h ▸ rfl)
      · cases h
    · rintro (rfl | rfl) <;> exact ofName_eq_some_iff.mpr rfl

/-- A preset survives as its name. -/
theorem parse_render {format : Format} {codec : Codec Preset} (hformat : format.Documented)
    (hcodec : codec.Named name) (preset : Preset) :
    codec.parse format (codec.render format preset) = some preset :=
  hcodec.parse_render hformat (by cases preset <;> decide +kernel)

end Preset

end CryptoPrimes.Prime
