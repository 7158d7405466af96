import CryptoPrimes.Json.Strict
import CryptoPrimes.Proofs.Json.Format
import CryptoPrimes.Proofs.Json.Token

/-!
# Strict JSON keeps what is documented of formats

A value has one list of tokens, `Value.tokens`, and the reader accepts no other:
what it reads off the front of some tokens is the value they spell (`sound`), and
with as much fuel as there are tokens it reads a value off its own, whatever follows
them (`complete`).  So a text is a value exactly if its tokens are those of the value
(`ofText_eq_some_iff`), which leaves nothing to the text but the blanks and the
spelling of single tokens.

Since texts can be put together where punctuation stands between them, the texts of
items and members make up those of arrays and objects, and strict JSON is a format with
the documented behaviour (`strict_documented`).
-/

namespace CryptoPrimes.Json

namespace Value

mutual

/-- The tokens of a value. -/
def tokens : Value → List Token
  | .null => [.null]
  | .bool value => [.bool value]
  | .number value => [.number value]
  | .string content => [.string content]
  | .array items => .openBracket :: itemTokens items
  | .object entries => .openBrace :: entryTokens entries

/-- The tokens of some items of an array, and its closing bracket. -/
def itemTokens : List Value → List Token
  | [] => [.closeBracket]
  | [item] => tokens item ++ [.closeBracket]
  | item :: next :: items => tokens item ++ .comma :: itemTokens (next :: items)

/-- The tokens of some entries of an object, and its closing brace. -/
def entryTokens : List (Option String × Value) → List Token
  | [] => [.closeBrace]
  | [(name, value)] => .string name :: .colon :: (tokens value ++ [.closeBrace])
  | (name, value) :: next :: entries =>
    .string name :: .colon :: (tokens value ++ .comma :: entryTokens (next :: entries))

end

theorem itemTokens_cons (item : Value) {items : List Value} (h : items ≠ []) :
    itemTokens (item :: items) = tokens item ++ .comma :: itemTokens items := by
  cases items with
  | nil => exact absurd rfl h
  | cons next items => rw [itemTokens]

theorem entryTokens_cons (name : Option String) (value : Value)
    {entries : List (Option String × Value)} (h : entries ≠ []) :
    entryTokens ((name, value) :: entries) =
      .string name :: .colon :: (tokens value ++ .comma :: entryTokens entries) := by
  cases entries with
  | nil => exact absurd rfl h
  | cons next entries => rw [entryTokens]

/-! ## Only the tokens of a value are read -/

/-- What is read with this fuel is spelled by what is taken. -/
structure Sound (fuel : Nat) : Prop where
  value : ∀ {all rest v}, read fuel all = some (v, rest) → all = tokens v ++ rest
  items : ∀ {all rest items}, readItems fuel all = some (items, rest) →
    items ≠ [] ∧ all = itemTokens items ++ rest
  entries : ∀ {all rest entries}, readEntries fuel all = some (entries, rest) →
    entries ≠ [] ∧ all = entryTokens entries ++ rest

theorem value_sound {fuel : Nat} (ih : ∀ n, fuel = n + 1 → Sound n) {all rest : List Token}
    {v : Value} (h : read fuel all = some (v, rest)) : all = tokens v ++ rest := by
  rw [read.eq_def] at h
  split at h
  -- the brackets that are not closed at once spend fuel on what is inside
  case h_7 fuel _ _ =>
    obtain ⟨⟨items, _⟩, hread, heq⟩ := Option.bind_eq_some_iff.mp h
    cases heq
    rw [tokens, ((ih fuel rfl).items hread).2]
    rfl
  case h_8 fuel _ _ =>
    obtain ⟨⟨entries, _⟩, hread, heq⟩ := Option.bind_eq_some_iff.mp h
    cases heq
    rw [tokens, ((ih fuel rfl).entries hread).2]
    rfl
  all_goals cases h
  all_goals simp only [tokens, itemTokens, entryTokens, List.cons_append, List.nil_append]

theorem items_sound {fuel : Nat} (ih : Sound fuel) {all rest : List Token} {items : List Value}
    (h : readItems (fuel + 1) all = some (items, rest)) :
    items ≠ [] ∧ all = itemTokens items ++ rest := by
  rw [readItems] at h
  obtain ⟨⟨item, behind⟩, hitem, hbehind⟩ := Option.bind_eq_some_iff.mp h
  obtain rfl := ih.value hitem
  simp only at hbehind
  split at hbehind
  · cases hbehind
    exact ⟨List.cons_ne_nil _ _, by simp [itemTokens]⟩
  · obtain ⟨⟨items, _⟩, hitems, heq⟩ := Option.bind_eq_some_iff.mp hbehind
    cases heq
    obtain ⟨hne, rfl⟩ := ih.items hitems
    exact ⟨List.cons_ne_nil _ _, by simp [itemTokens_cons _ hne]⟩
  · cases hbehind

theorem entries_sound {fuel : Nat} (ih : Sound fuel) {all rest : List Token}
    {entries : List (Option String × Value)}
    (h : readEntries (fuel + 1) all = some (entries, rest)) :
    entries ≠ [] ∧ all = entryTokens entries ++ rest := by
  rw [readEntries.eq_def] at h
  split at h
  · next heq =>
      cases heq
      obtain ⟨⟨value, behind⟩, hvalue, hbehind⟩ := Option.bind_eq_some_iff.mp h
      obtain rfl := ih.value hvalue
      simp only at hbehind
      split at hbehind
      · cases hbehind
        exact ⟨List.cons_ne_nil _ _, by simp [entryTokens]⟩
      · obtain ⟨⟨entries, _⟩, hentries, heq⟩ := Option.bind_eq_some_iff.mp hbehind
        cases heq
        obtain ⟨hne, rfl⟩ := ih.entries hentries
        exact ⟨List.cons_ne_nil _ _, by simp [entryTokens_cons _ _ hne]⟩
      · cases hbehind
  · cases h

theorem sound (fuel : Nat) : Sound fuel := by
  induction fuel with
  | zero =>
      refine ⟨value_sound (by rintro _ ⟨⟩), fun h => ?_, fun h => ?_⟩
      · rw [readItems] at h
        cases h
      · cases h
  | succ fuel ih =>
      exact ⟨value_sound (by rintro _ ⟨⟩; exact ih), items_sound ih, entries_sound ih⟩

/-! ## The tokens of a value are read -/

theorem exists_tokens (v : Value) : ∃ token rest, tokens v = token :: rest ∧
    token ≠ .closeBracket := by
  cases v <;> rw [tokens] <;> exact ⟨_, _, rfl, by rintro ⟨⟩⟩

theorem length_tokens_pos (v : Value) : 0 < (tokens v).length := by
  obtain ⟨token, rest, hcons, -⟩ := exists_tokens v
  rw [hcons]
  exact Nat.succ_pos _

theorem length_itemTokens_pos (items : List Value) : 0 < (itemTokens items).length := by
  apply List.length_pos_of_ne_nil
  rcases items with - | ⟨item, - | ⟨next, items⟩⟩ <;> simp [itemTokens]

theorem length_entryTokens_pos (entries : List (Option String × Value)) :
    0 < (entryTokens entries).length := by
  apply List.length_pos_of_ne_nil
  rcases entries with - | ⟨entry, - | ⟨next, entries⟩⟩ <;> simp [entryTokens]

/-- An item is not taken for the end of its array. -/
theorem itemTokens_ne (item : Value) (items : List Value) (rest all : List Token) :
    itemTokens (item :: items) ++ rest ≠ .closeBracket :: all := by
  obtain ⟨token, behind, hcons, hne⟩ := exists_tokens item
  intro h
  cases items with
  | nil =>
      rw [itemTokens, hcons] at h
      exact hne (List.cons.inj h).1
  | cons next items =>
      rw [itemTokens, hcons] at h
      exact hne (List.cons.inj h).1

/-- A entry is not taken for the end of its object. -/
theorem entryTokens_ne (entry : Option String × Value) (entries : List (Option String × Value))
    (rest all : List Token) : entryTokens (entry :: entries) ++ rest ≠ .closeBrace :: all := by
  intro h
  cases entries <;> rw [entryTokens] at h <;> cases h

/-- With this fuel a value is read off its tokens, whatever follows them. -/
structure Complete (fuel : Nat) : Prop where
  value : ∀ (v : Value) (rest : List Token), (tokens v).length ≤ fuel →
    read fuel (tokens v ++ rest) = some (v, rest)
  items : ∀ (items : List Value) (rest : List Token), items ≠ [] →
    (itemTokens items).length ≤ fuel →
    readItems fuel (itemTokens items ++ rest) = some (items, rest)
  entries : ∀ (entries : List (Option String × Value)) (rest : List Token), entries ≠ [] →
    (entryTokens entries).length ≤ fuel →
    readEntries fuel (entryTokens entries ++ rest) = some (entries, rest)

theorem value_complete {fuel : Nat} (ih : Complete fuel) (v : Value) (rest : List Token)
    (h : (tokens v).length ≤ fuel + 1) : read (fuel + 1) (tokens v ++ rest) = some (v, rest) := by
  cases v with
  | null => rw [tokens]; rfl
  | bool value => rw [tokens]; rfl
  | number value => rw [tokens]; rfl
  | string content => rw [tokens]; rfl
  | array items =>
      rw [tokens] at h ⊢
      cases items with
      | nil => rw [itemTokens]; rfl
      | cons item items =>
          have hread := ih.items (item :: items) rest (List.cons_ne_nil _ _)
            (Nat.le_of_succ_le_succ h)
          rw [List.cons_append, read, hread]
          · rfl
          · exact fun _ => itemTokens_ne item items rest _
  | object entries =>
      rw [tokens] at h ⊢
      cases entries with
      | nil => rw [entryTokens]; rfl
      | cons entry entries =>
          have hread := ih.entries (entry :: entries) rest (List.cons_ne_nil _ _)
            (Nat.le_of_succ_le_succ h)
          rw [List.cons_append, read, hread]
          · rfl
          · exact fun _ => entryTokens_ne entry entries rest _

theorem items_complete {fuel : Nat} (ih : Complete fuel) (items : List Value) (rest : List Token)
    (hne : items ≠ []) (h : (itemTokens items).length ≤ fuel + 1) :
    readItems (fuel + 1) (itemTokens items ++ rest) = some (items, rest) := by
  obtain ⟨item, items, rfl⟩ := List.exists_cons_of_ne_nil hne
  cases items with
  | nil =>
      rw [itemTokens, List.length_append] at h
      rw [itemTokens, readItems, List.append_assoc, ih.value item _ (Nat.le_of_succ_le_succ h)]
      rfl
  | cons next items =>
      have hpos := length_tokens_pos item
      rw [itemTokens, List.length_append, List.length_cons] at h
      have hread := ih.items (next :: items) rest (List.cons_ne_nil _ _) (by omega)
      rw [itemTokens, readItems, List.append_assoc, ih.value item _ (by omega)]
      show (readItems fuel (itemTokens (next :: items) ++ rest) >>= fun r =>
        some (item :: r.1, r.2)) = _
      rw [hread]
      rfl

theorem entries_complete {fuel : Nat} (ih : Complete fuel)
    (entries : List (Option String × Value)) (rest : List Token) (hne : entries ≠ [])
    (h : (entryTokens entries).length ≤ fuel + 1) :
    readEntries (fuel + 1) (entryTokens entries ++ rest) = some (entries, rest) := by
  obtain ⟨⟨name, value⟩, entries, rfl⟩ := List.exists_cons_of_ne_nil hne
  cases entries with
  | nil =>
      rw [entryTokens, List.length_cons, List.length_cons, List.length_append] at h
      rw [entryTokens, List.cons_append, List.cons_append, readEntries, List.append_assoc,
        ih.value value _ (by omega)]
      rfl
  | cons next entries =>
      rw [entryTokens, List.length_cons, List.length_cons, List.length_append,
        List.length_cons] at h
      have hread := ih.entries (next :: entries) rest (List.cons_ne_nil _ _) (by omega)
      rw [entryTokens, List.cons_append, List.cons_append, readEntries, List.append_assoc,
        ih.value value _ (by omega)]
      show (readEntries fuel (entryTokens (next :: entries) ++ rest) >>= fun r =>
        some ((name, value) :: r.1, r.2)) = _
      rw [hread]
      rfl

theorem complete (fuel : Nat) : Complete fuel := by
  induction fuel with
  | zero =>
      refine ⟨fun v rest h => ?_, fun items rest hne h => ?_, fun entries rest hne h => ?_⟩
      · exact absurd (length_tokens_pos v) (by omega)
      · exact absurd (length_itemTokens_pos items) (by omega)
      · exact absurd (length_entryTokens_pos entries) (by omega)
  | succ fuel ih => exact ⟨value_complete ih, items_complete ih, entries_complete ih⟩

/-- A text is a value exactly if its tokens are those of the value. -/
theorem ofText_eq_some_iff {text : String} {v : Value} :
    ofText text = some v ↔ Token.ofText text.toList = some (tokens v) := by
  constructor
  · intro h
    obtain ⟨all, hall, hvalue⟩ := Option.bind_eq_some_iff.mp h
    obtain ⟨⟨v', rest⟩, hread, hempty⟩ := Option.bind_eq_some_iff.mp hvalue
    obtain ⟨hrest, heq⟩ := Option.ite_none_right_eq_some.mp hempty
    obtain rfl := List.isEmpty_iff.mp hrest
    cases heq
    rw [hall, (sound _).value hread, List.append_nil]
  · intro h
    have hread := (complete (tokens v).length).value v [] (Nat.le_refl _)
    rw [List.append_nil] at hread
    refine Option.bind_eq_some_iff.mpr ⟨_, h, Option.bind_eq_some_iff.mpr ⟨_, hread, ?_⟩⟩
    rfl

end Value

/-! ## The documented behaviour -/

open Token (Lexes EndsNumber)

theorem read_strict_iff {text : String} {value : Value} :
    strict.read text = some value ↔ Lexes text.toList value.tokens :=
  Value.ofText_eq_some_iff.trans Token.ofText_eq_some_iff

/-- An item and what follows it. -/
theorem lexes_item {text : String} {value : Value} (h : strict.read text = some value)
    {rest : List Char} {tokens : List Token} (hrest : Lexes rest tokens) (hends : EndsNumber rest) :
    Lexes (text.toList ++ rest) (value.tokens ++ tokens) :=
  (read_strict_iff.mp h).append hrest hends

theorem lexes_items {texts : List String} {items : List Value}
    (h : texts.map strict.read = items.map some) :
    Lexes ([','].intercalate (texts.map String.toList) ++ [']']) (Value.itemTokens items) := by
  induction texts generalizing items with
  | nil =>
      obtain rfl := List.map_eq_nil_iff.mp h.symm
      exact .token rfl .nil
  | cons text texts ih =>
      obtain ⟨item, items, rfl, hitem, hitems⟩ := List.map_eq_cons_iff.mp h.symm
      cases texts with
      | nil =>
          obtain rfl := List.map_eq_nil_iff.mp hitems
          rw [List.map_singleton, List.intercalate_singleton, Value.itemTokens]
          exact lexes_item hitem.symm (.token rfl .nil) (Token.endsNumber_cons rfl _)
      | cons next texts =>
          have hne : items ≠ [] := by
            rintro rfl
            cases hitems
          rw [List.map_cons, List.map_cons, List.intercalate_cons_cons, List.append_assoc,
            List.append_assoc, Value.itemTokens_cons item hne]
          exact lexes_item hitem.symm (.token rfl (ih hitems.symm)) (Token.endsNumber_cons rfl _)

/-- A name, its value and what follows them. -/
theorem lexes_member {member : String × String} {entry : Option String × Value}
    (h : strict.entry member = some entry) {rest : List Char} {tokens : List Token}
    (hrest : Lexes rest tokens) (hends : EndsNumber rest) :
    Lexes ((member.1 ++ ":" ++ member.2).toList ++ rest)
      (.string entry.1 :: .colon :: (entry.2.tokens ++ tokens)) := by
  obtain ⟨hname, hvalue⟩ := Format.entry_eq_some_iff.mp h
  rw [String.toList_append, String.toList_append, List.append_assoc, List.append_assoc]
  exact lexes_item hname (.token rfl (lexes_item hvalue hrest hends)) (Token.endsNumber_cons rfl _)

theorem lexes_members {members : List (String × String)} {entries : List (Option String × Value)}
    (h : members.map strict.entry = entries.map some) :
    Lexes ([','].intercalate
      (members.map fun member => (member.1 ++ ":" ++ member.2).toList) ++ ['\x7d'])
      (Value.entryTokens entries) := by
  induction members generalizing entries with
  | nil =>
      obtain rfl := List.map_eq_nil_iff.mp h.symm
      exact .token rfl .nil
  | cons member members ih =>
      obtain ⟨entry, entries, rfl, hentry, hentries⟩ := List.map_eq_cons_iff.mp h.symm
      cases members with
      | nil =>
          obtain rfl := List.map_eq_nil_iff.mp hentries
          rw [List.map_singleton, List.intercalate_singleton, Value.entryTokens]
          exact lexes_member hentry.symm (.token rfl .nil) (Token.endsNumber_cons rfl _)
      | cons next members =>
          have hne : entries ≠ [] := by
            rintro rfl
            cases hentries
          rw [List.map_cons, List.map_cons, List.intercalate_cons_cons, List.append_assoc,
            List.append_assoc, Value.entryTokens_cons _ _ hne]
          exact lexes_member hentry.symm (.token rfl (ih hentries.symm)) (Token.endsNumber_cons rfl _)

theorem memberTexts_eq (entries : List (String × Value)) :
    Value.memberTexts (entries.map fun entry => (some entry.1, entry.2)) =
      entries.map fun entry => (quote entry.1, entry.2.toText) := by
  induction entries with
  | nil => rfl
  | cons entry entries ih => rw [List.map_cons, Value.memberTexts, ih]; rfl

theorem strict_documented : strict.Documented where
  read_blanks before text behind value hbefore hbehind h := by
    rw [read_strict_iff] at h ⊢
    rw [String.toList_append, String.toList_append, List.append_assoc]
    exact (h.append_blanks hbehind).blanks_append hbefore
  read_null := read_strict_iff.mpr (.token rfl .nil)
  read_size n _ := by
    have hread : Token.read ((Nat.repr n).toList ++ []) = some (.number (some n), []) :=
      Token.read_repr n (by rintro _ ⟨⟩)
    rw [List.append_nil] at hread
    exact read_strict_iff.mpr (.token hread .nil)
  read_name name hplain := by
    have hread := Token.read_plain hplain []
    rw [String.ofList_toList] at hread
    exact read_strict_iff.mpr (.token (by simpa [quote] using hread) .nil)
  read_array texts items h := by
    rw [read_strict_iff, arrayText, String.toList_append, String.toList_append,
      String.toList_intercalate]
    exact .token rfl (lexes_items h)
  read_object members entries h := by
    rw [read_strict_iff, objectText, String.toList_append, String.toList_append,
      String.toList_intercalate, List.map_map]
    exact .token rfl (lexes_members h)
  write_size n _ := rfl
  write_name name _ := rfl
  write_object entries _ := congrArg objectText (memberTexts_eq entries)

end CryptoPrimes.Json
