import Mathlib.Data.List.Basic
import Mathlib.Data.List.TakeDrop
import Mathlib.Data.List.TakeWhile
import CryptoPrimes.Json.Token

/-!
# Tokens of a text

A reader takes some characters off the front of a text.  Which ones it takes is
decided by these characters and at most one behind them: a number ends where no
digit, point or exponent follows, and everything else ends by itself.  `Local` says
so for one reader, and two readers in turn are local if both are (`Local.andThen`).
That a token takes at least one character is a case of it (`read_shortens`).

The relation `Lexes` is what a text is as a list of tokens, without fuel
(`ofText_eq_some_iff`).  Because tokens are local, two texts can be put together
wherever the second begins with a character that continues no number
(`Lexes.append`); a blank is such a character, and so is all punctuation.
-/

namespace CryptoPrimes.Json.Token

variable {α β : Type}

/-! ## Readers -/

/-- The characters that a number goes on with. -/
def inNumber (c : Char) : Bool := c.isDigit || c == '.' || c == 'e' || c == 'E'

/-- No number goes on at the front of this text. -/
def EndsNumber (text : List Char) : Prop := ∀ c ∈ text.head?, inNumber c = false

theorem endsNumber_cons {c : Char} (hc : inNumber c = false) (text : List Char) :
    EndsNumber (c :: text) := by
  rintro _ ⟨⟩
  exact hc

/-- A reader that has stopped before `rest` stops before `rest'` as well. -/
def StopsToo (rest rest' : List Char) : Prop := rest'.head? = rest.head? ∨ EndsNumber rest'

/-- What is read at the front of `text` does not depend on the text behind it. -/
def LocalAt (read : List Char → Option (α × List Char)) (text : List Char) : Prop :=
  ∀ x rest, read text = some (x, rest) → ∃ taken, text = taken ++ rest ∧
    ∀ rest', StopsToo rest rest' → read (taken ++ rest') = some (x, rest')

/-- What is read never depends on the text behind it. -/
def Local (read : List Char → Option (α × List Char)) : Prop := ∀ text, LocalAt read text

theorem StopsToo.append {rest rest' : List Char} (h : StopsToo rest rest') (taken : List Char) :
    StopsToo (taken ++ rest) (taken ++ rest') := by
  cases taken with
  | nil => exact h
  | cons c taken => exact .inl rfl

theorem StopsToo.behind (rest : List Char) {text : List Char} (h : EndsNumber text) :
    StopsToo rest (rest ++ text) := by
  cases rest with
  | nil => exact .inr h
  | cons c rest => exact .inl rfl

/-- Where a number goes on, it did before. -/
theorem StopsToo.head {rest rest' : List Char} (h : StopsToo rest rest') {c : Char}
    (hc : inNumber c = true) (hhead : rest'.head? = some c) : rest.head? = some c := by
  rcases h with hsame | hends
  · exact hsame.symm.trans hhead
  · rw [hends c hhead] at hc
    cases hc

/-- Two readers in turn. -/
def andThen (first : List Char → Option (α × List Char))
    (second : α → List Char → Option (β × List Char)) (text : List Char) :
    Option (β × List Char) :=
  first text >>= fun r => second r.1 r.2

theorem andThen_eq {first : List Char → Option (α × List Char)} {text rest : List Char} {x : α}
    (h : first text = some (x, rest)) (second : α → List Char → Option (β × List Char)) :
    andThen first second text = second x rest := by
  rw [andThen, h]
  rfl

theorem Local.andThen {first : List Char → Option (α × List Char)}
    {second : α → List Char → Option (β × List Char)} (hfirst : Local first)
    (hsecond : ∀ x, Local (second x)) : Local (andThen first second) := by
  intro text y rest h
  obtain ⟨⟨x, middle⟩, hx, hy⟩ := Option.bind_eq_some_iff.mp h
  obtain ⟨taken, rfl, htaken⟩ := hfirst _ _ _ hx
  obtain ⟨taken', rfl, htaken'⟩ := hsecond x _ _ _ hy
  refine ⟨taken ++ taken', (List.append_assoc ..).symm, fun rest' hrest => ?_⟩
  rw [List.append_assoc]
  exact Option.bind_eq_some_iff.mpr ⟨_, htaken _ (hrest.append taken'), htaken' _ hrest⟩

theorem Local.done (x : α) : Local fun rest => some (x, rest) := by
  intro text y rest h
  cases h
  exact ⟨[], rfl, fun _ _ => rfl⟩

/-- A first character that leaves the rest to another reader. -/
theorem LocalAt.cons {read reader : List Char → Option (α × List Char)} {c : Char}
    (h : ∀ text, read (c :: text) = reader text) (hreader : Local reader) (text : List Char) :
    LocalAt read (c :: text) := by
  intro x rest hread
  rw [h] at hread
  obtain ⟨taken, rfl, hlocal⟩ := hreader _ _ _ hread
  exact ⟨c :: taken, rfl, fun rest' hrest => (h _).trans (hlocal rest' hrest)⟩

/-- A reader that finds nothing in an empty text takes something. -/
theorem Local.exists_cons {read : List Char → Option (α × List Char)} (h : Local read)
    (hnil : read [] = none) {text rest : List Char} {x : α} (hread : read text = some (x, rest)) :
    ∃ c taken, text = c :: taken ++ rest ∧
      ∀ rest', StopsToo rest rest' → read (c :: taken ++ rest') = some (x, rest') := by
  obtain ⟨taken, htext, hlocal⟩ := h _ _ _ hread
  cases taken with
  | nil =>
      have hempty := hlocal [] (.inr (by rintro _ ⟨⟩))
      rw [List.append_nil, hnil] at hempty
      cases hempty
  | cons c taken => exact ⟨c, taken, htext, hlocal⟩

/-! ## Digits -/

theorem spanDigits_eq (text : List Char) :
    spanDigits text = (text.takeWhile Char.isDigit, text.dropWhile Char.isDigit) :=
  List.span_eq_takeWhile_dropWhile _ _

theorem spanDigits_append {digits rest : List Char} (hdigits : ∀ c ∈ digits, c.isDigit = true)
    (hrest : ∀ c ∈ rest.head?, ¬ c.isDigit = true) :
    spanDigits (digits ++ rest) = (digits, rest) := by
  have hsplit : rest.takeWhile Char.isDigit = [] ∧ rest.dropWhile Char.isDigit = rest := by
    cases rest with
    | nil => exact ⟨rfl, rfl⟩
    | cons c rest =>
        exact ⟨List.takeWhile_cons_of_neg (hrest c rfl), List.dropWhile_cons_of_neg (hrest c rfl)⟩
  rw [spanDigits_eq, List.takeWhile_append_of_pos hdigits, List.dropWhile_append_of_pos hdigits,
    hsplit.1, hsplit.2, List.append_nil]

theorem head?_dropWhile_isDigit {text : List Char} {c : Char}
    (h : (text.dropWhile Char.isDigit).head? = some c) : ¬ c.isDigit = true := by
  have hstop := List.head?_dropWhile_not Char.isDigit text
  rw [h] at hstop
  simp [hstop]

/-- Read all digits at the front; `value` says what they are, if anything. -/
def readDigits (value : List Char → Option α) (text : List Char) : Option (α × List Char) :=
  (value (spanDigits text).1).map (·, (spanDigits text).2)

theorem readDigits_local (value : List Char → Option α) : Local (readDigits value) := by
  intro text x rest h
  obtain ⟨y, hvalue, heq⟩ := Option.map_eq_some_iff.mp h
  cases heq
  rw [spanDigits_eq] at hvalue ⊢
  refine ⟨_, List.takeWhile_append_dropWhile.symm, fun rest' hrest => ?_⟩
  -- a digit at the front of `rest'` would be one at the front of `rest`, which has none
  have hspan : spanDigits (text.takeWhile Char.isDigit ++ rest') =
      (text.takeWhile Char.isDigit, rest') :=
    spanDigits_append (fun c hc => List.mem_takeWhile_imp hc) fun c hc hdigit =>
      head?_dropWhile_isDigit (hrest.head (by simp [inNumber, hdigit]) hc) hdigit
  rw [readDigits, hspan, hvalue]
  rfl

/-! ## Numbers -/

/-- Digits that are the whole part of a number. -/
def wholePart (digits : List Char) : Option (List Char) :=
  if digits = [] ∨ digits.head? = some '0' ∧ digits ≠ ['0'] then none else some digits

/-- Digits that must not be missing. -/
def somePart (digits : List Char) : Option Bool := if digits = [] then none else some true

theorem isDigit_of_readDigits {value : List Char → Option α} (hvalue : value [] = none)
    {text : List Char} {c : Char} {r : α × List Char}
    (h : readDigits value (c :: text) = some r) : c.isDigit = true := by
  by_contra hc
  have hspan : spanDigits ([] ++ c :: text) = ([], c :: text) :=
    spanDigits_append (by simp) (by rintro _ ⟨⟩; exact hc)
  rw [List.nil_append] at hspan
  rw [readDigits, hspan, hvalue] at h
  cases h

theorem readWhole_eq (text : List Char) : readWhole text = readDigits wholePart text := by
  rw [readWhole, readDigits]
  generalize spanDigits text = span
  obtain ⟨digits, rest⟩ := span
  split
  · next heq => cases heq; rfl
  · next heq => cases heq; rfl
  · next hmore heq =>
      cases heq
      rw [wholePart, if_pos (.inr ⟨rfl, fun hzero => hmore (List.cons.inj hzero).2⟩)]
      rfl
  · next hnone hzero hmore heq =>
      cases heq
      have hpart : ¬ (digits = [] ∨ digits.head? = some '0' ∧ digits ≠ ['0']) := by
        rintro (hnil | ⟨hhead, -⟩)
        · exact hnone hnil
        · obtain ⟨tail, htail⟩ := List.head?_eq_some_iff.mp hhead
          exact hmore tail htail
      rw [wholePart, if_neg hpart]
      rfl

theorem readFraction_point (text : List Char) :
    readFraction ('.' :: text) = readDigits somePart text := by
  rw [readFraction, readDigits, somePart]
  split
  · next h => rw [h]; rfl
  · next hnone h =>
      rw [h, if_neg hnone]
      rfl

theorem readFraction_of_ne {text : List Char} (h : text.head? ≠ some '.') :
    readFraction text = some (false, text) := by
  rw [readFraction]
  rintro rest rfl
  exact h rfl

theorem readFraction_local : Local readFraction := by
  intro text
  by_cases hhead : text.head? = some '.'
  · obtain ⟨text, rfl⟩ := List.head?_eq_some_iff.mp hhead
    exact .cons readFraction_point (readDigits_local _) text
  · intro found rest h
    rw [readFraction_of_ne hhead] at h
    cases h
    exact ⟨[], rfl, fun rest' hrest => readFraction_of_ne (mt (hrest.head (by decide)) hhead)⟩

theorem readExponent_letter {c : Char} (hc : c = 'e' ∨ c = 'E') (text : List Char) :
    readExponent (c :: text) = readDigits somePart (skipSign text) := by
  rw [readExponent, if_pos hc, readDigits, somePart]
  split
  · next h => rw [h]; rfl
  · next hnone h =>
      rw [h, if_neg hnone]
      rfl

theorem readExponent_of_ne {text : List Char} (he : text.head? ≠ some 'e')
    (hE : text.head? ≠ some 'E') : readExponent text = some (false, text) := by
  cases text with
  | nil => rfl
  | cons c text =>
      rw [readExponent, if_neg]
      rintro (rfl | rfl)
      · exact he rfl
      · exact hE rfl

/-- A sign is skipped whatever stands behind the digit that follows it. -/
theorem skipSign_append {text rest : List Char} {c : Char} (h : skipSign text = c :: rest)
    (hc : c.isDigit = true) :
    ∃ sign, text = sign ++ c :: rest ∧ ∀ rest', skipSign (sign ++ c :: rest') = c :: rest' := by
  have hkeep : ∀ rest', skipSign (c :: rest') = c :: rest' := by
    intro rest'
    rw [skipSign]
    · rintro _ ⟨⟩
      cases hc
    · rintro _ ⟨⟩
      cases hc
  rw [skipSign.eq_def] at h
  split at h
  · next text => exact ⟨['+'], congrArg _ h, fun _ => rfl⟩
  · next text => exact ⟨['-'], congrArg _ h, fun _ => rfl⟩
  · exact ⟨[], h, hkeep⟩

theorem readExponent_local : Local readExponent := by
  intro text found rest h
  by_cases hletter : text.head? = some 'e' ∨ text.head? = some 'E'
  · obtain ⟨letter, text, rfl, hl⟩ : ∃ c tail, text = c :: tail ∧ (c = 'e' ∨ c = 'E') := by
      rcases hletter with hhead | hhead <;> obtain ⟨tail, htail⟩ := List.head?_eq_some_iff.mp hhead
      · exact ⟨_, tail, htail, .inl rfl⟩
      · exact ⟨_, tail, htail, .inr rfl⟩
    rw [readExponent_letter hl] at h
    -- the digit that the exponent must have holds the place of the sign
    obtain ⟨c, taken, hrest, hlocal⟩ := (readDigits_local somePart).exists_cons rfl h
    have hc := isDigit_of_readDigits rfl (hrest ▸ h)
    obtain ⟨sign, rfl, hsign⟩ := skipSign_append hrest hc
    refine ⟨letter :: (sign ++ c :: taken), by simp, fun rest' hrest' => ?_⟩
    rw [List.cons_append, List.append_assoc, readExponent_letter hl]
    exact (congrArg _ (hsign _)).trans (hlocal rest' hrest')
  · have hne := not_or.mp hletter
    rw [readExponent_of_ne hne.1 hne.2] at h
    cases h
    exact ⟨[], rfl, fun rest' hrest => readExponent_of_ne (mt (hrest.head (by decide)) hne.1)
      (mt (hrest.head (by decide)) hne.2)⟩

/-- The token that the parts of a number make up. -/
def numberToken (negative : Bool) (digits : List Char) (fraction exponent : Bool) : Token :=
  if negative || fraction || exponent then .number none else .number (some (digitsValue digits))

theorem readNumber_eq (negative : Bool) : readNumber negative =
    andThen (readDigits wholePart) fun digits => andThen readFraction fun fraction =>
      andThen readExponent fun exponent rest =>
        some (numberToken negative digits fraction exponent, rest) := by
  funext text
  rw [readNumber, readWhole_eq]
  refine bind_congr fun digits => bind_congr fun fraction => bind_congr fun exponent => ?_
  simp only [numberToken]
  split <;> rfl

theorem readNumber_local (negative : Bool) : Local (readNumber negative) := by
  rw [readNumber_eq]
  exact (readDigits_local _).andThen fun _ => readFraction_local.andThen fun _ =>
    readExponent_local.andThen fun _ => .done _

/-! ## Strings -/

/-- A piece that is spelled by `taken` at the front of any text. -/
def Spells (taken : List Char) (piece : Piece) : Prop :=
  ∀ text, readPieces (taken ++ text) =
    readPieces text >>= fun r => some (piece :: r.1, r.2)

theorem spells_unit {a b c d : Char} {code : Nat} (h : hexValue4? a b c d = some code) :
    Spells ['\\', 'u', a, b, c, d] (.unit code) := by
  intro text
  show readPieces ('\\' :: 'u' :: a :: b :: c :: d :: text) = _
  rw [readPieces, h]
  rfl

theorem spells_escape {c c' : Char} (h : escaped? c = some c') :
    Spells ['\\', c] (.char c') := by
  intro text
  show readPieces ('\\' :: c :: text) = _
  rw [readPieces, h]
  · rfl
  · rintro _ _ _ _ _ rfl
    cases h

theorem spells_char {c : Char} (hquote : c ≠ '"') (hescape : c ≠ '\\') (hcontrol : ¬ c.toNat < 32) :
    Spells [c] (.char c) := by
  intro text
  rw [List.singleton_append, readPieces, if_neg hcontrol]
  · rfl
  · exact hquote
  · exact fun _ _ _ _ _ h => absurd h hescape
  · exact fun _ _ h => absurd h hescape

theorem Spells.localAt {taken text : List Char} {piece : Piece} (h : Spells taken piece)
    (ih : LocalAt readPieces text) : LocalAt readPieces (taken ++ text) := by
  intro pieces rest hread
  rw [h text] at hread
  obtain ⟨⟨pieces', _⟩, hread', heq⟩ := Option.bind_eq_some_iff.mp hread
  cases heq
  obtain ⟨taken', rfl, hlocal⟩ := ih _ _ hread'
  refine ⟨taken ++ taken', (List.append_assoc ..).symm, fun rest' hrest => ?_⟩
  rw [List.append_assoc, h, hlocal rest' hrest]
  rfl

theorem readPieces_local : Local readPieces := by
  intro text
  induction text using readPieces.induct with
  | case1 => rintro _ _ ⟨⟩
  | case2 text => rintro _ _ ⟨⟩; exact ⟨['"'], rfl, fun _ _ => rfl⟩
  | case3 a b c d text ih =>
      cases hcode : hexValue4? a b c d with
      | some code => exact (spells_unit hcode).localAt ih
      | none =>
          intro _ _ h
          rw [readPieces, hcode] at h
          cases h
  | case4 c text hunit ih =>
      cases hescaped : escaped? c with
      | some c' => exact (spells_escape hescaped).localAt ih
      | none =>
          intro _ _ h
          rw [readPieces, hescaped] at h
          · cases h
          · exact hunit
  | case5 c text hquote hunit hescape hcontrol =>
      intro _ _ h
      rw [readPieces, if_pos hcontrol] at h
      · cases h
      · exact hquote
      · exact hunit
      · exact hescape
  | case6 c text hquote hunit hescape hcontrol ih =>
      -- a backslash stands for itself nowhere: at the end of the text nothing is read
      by_cases hc : c = '\\'
      · cases text with
        | nil => rintro _ _ h; subst hc; cases h
        | cons c' text => exact absurd rfl (hescape c' text hc)
      · exact (spells_char hquote hc hcontrol).localAt ih

/-! ## Tokens -/

theorem read_digit {c : Char} (hc : c.isDigit = true) (text : List Char) :
    read (c :: text) = readNumber false (c :: text) := by
  rw [read]
  · rintro ⟨⟩
  all_goals
    rintro _ ⟨⟩
    cases hc

/-- A sign, a word or a bracket: its characters alone make the token. -/
theorem localAt_word (word : List Char) (token : Token)
    (h : ∀ text, read (word ++ text) = some (token, text)) (text : List Char) :
    LocalAt read (word ++ text) := by
  intro _ _ hread
  rw [h text] at hread
  cases hread
  exact ⟨word, rfl, fun rest' _ => h rest'⟩

/-- The token of a string with these pieces. -/
def stringToken (pieces : List Piece) : Token := .string ((decodePieces pieces).map String.ofList)

theorem read_quote (text : List Char) :
    read ('"' :: text) =
      andThen readPieces (fun pieces rest => some (stringToken pieces, rest)) text := rfl

theorem readNumber_localAt {text : List Char} (h : read text = readNumber false text) :
    LocalAt read text := by
  intro token rest hread
  rw [h] at hread
  obtain ⟨c, taken, rfl, hlocal⟩ := (readNumber_local false).exists_cons rfl hread
  have hc : c.isDigit = true := by
    rw [readNumber_eq] at hread
    obtain ⟨r, hdigits, -⟩ := Option.bind_eq_some_iff.mp hread
    exact isDigit_of_readDigits rfl hdigits
  exact ⟨c :: taken, rfl, fun rest' hrest => (read_digit hc _).trans (hlocal rest' hrest)⟩

theorem read_local : Local read := by
  intro text
  fun_cases read text with
  | case1 => rintro _ _ ⟨⟩
  | case2 text => exact localAt_word ['{'] .openBrace (fun _ => rfl) text
  | case3 text => exact localAt_word ['}'] .closeBrace (fun _ => rfl) text
  | case4 text => exact localAt_word ['['] .openBracket (fun _ => rfl) text
  | case5 text => exact localAt_word [']'] .closeBracket (fun _ => rfl) text
  | case6 text => exact localAt_word [':'] .colon (fun _ => rfl) text
  | case7 text => exact localAt_word [','] .comma (fun _ => rfl) text
  | case8 text => exact localAt_word ['n', 'u', 'l', 'l'] .null (fun _ => rfl) text
  | case9 text => exact localAt_word ['t', 'r', 'u', 'e'] (.bool true) (fun _ => rfl) text
  | case10 text => exact localAt_word ['f', 'a', 'l', 's', 'e'] (.bool false) (fun _ => rfl) text
  | case11 text => exact .cons read_quote (readPieces_local.andThen fun _ => .done _) text
  | case12 text => exact .cons (fun _ => rfl) (readNumber_local true) text
  | case13 text => exact readNumber_localAt (by rw [read] <;> assumption)

/-- A token takes at least one character. -/
theorem read_shortens {text rest : List Char} {token : Token}
    (h : read text = some (token, rest)) : rest.length < text.length := by
  obtain ⟨c, taken, rfl, -⟩ := read_local.exists_cons rfl h
  rw [List.length_append, List.length_cons]
  omega

theorem isBlank_iff {c : Char} : isBlank c = true ↔ c = ' ' ∨ c = '\t' ∨ c = '\n' ∨ c = '\r' := by
  simp [isBlank, or_assoc]

theorem read_blank {c : Char} (hc : isBlank c = true) (text : List Char) :
    read (c :: text) = none := by
  rcases isBlank_iff.mp hc with rfl | rfl | rfl | rfl <;> rfl

theorem inNumber_blank {c : Char} (hc : isBlank c = true) : inNumber c = false := by
  rcases isBlank_iff.mp hc with rfl | rfl | rfl | rfl <;> rfl

/-! ## Texts -/

/-- The text consists of these tokens, with blanks before and behind each. -/
inductive Lexes : List Char → List Token → Prop
  | nil : Lexes [] []
  | blank {c : Char} {text : List Char} {tokens : List Token} :
      isBlank c = true → Lexes text tokens → Lexes (c :: text) tokens
  | token {token : Token} {text rest : List Char} {tokens : List Token} :
      read text = some (token, rest) → Lexes rest tokens → Lexes text (token :: tokens)

theorem lexes_nil_iff {tokens : List Token} : Lexes [] tokens ↔ tokens = [] := by
  constructor
  · rintro (_ | _ | ⟨⟨⟩, _⟩)
    rfl
  · rintro rfl
    exact .nil

theorem lexes_blank_iff {c : Char} (hc : isBlank c = true) {text : List Char}
    {tokens : List Token} : Lexes (c :: text) tokens ↔ Lexes text tokens := by
  refine ⟨fun h => ?_, .blank hc⟩
  cases h with
  | blank _ h => exact h
  | token h _ =>
      rw [read_blank hc] at h
      cases h

theorem lexes_token_iff {c : Char} (hc : isBlank c = false) {text : List Char}
    {tokens : List Token} : Lexes (c :: text) tokens ↔
      ∃ token rest tokens', read (c :: text) = some (token, rest) ∧ Lexes rest tokens' ∧
        tokens = token :: tokens' := by
  constructor
  · intro h
    cases h with
    | blank h _ =>
        rw [hc] at h
        cases h
    | token h hrest => exact ⟨_, _, _, h, hrest, rfl⟩
  · rintro ⟨token, rest, tokens', h, hrest, rfl⟩
    exact .token h hrest

theorem readAll_iff {fuel : Nat} {text : List Char} (h : text.length ≤ fuel) {tokens : List Token} :
    readAll fuel text = some tokens ↔ Lexes text tokens := by
  induction fuel generalizing text tokens with
  | zero =>
      obtain rfl := List.length_eq_zero_iff.mp (Nat.le_zero.mp h)
      rw [lexes_nil_iff, readAll, Option.some.injEq, eq_comm]
  | succ fuel ih =>
      cases text with
      | nil => rw [lexes_nil_iff, readAll, Option.some.injEq, eq_comm]
      | cons c text =>
          rw [List.length_cons] at h
          cases hc : isBlank c with
          | true => rw [lexes_blank_iff hc, readAll, if_pos hc, ih (by omega)]
          | false =>
              rw [lexes_token_iff hc, readAll, if_neg (by simp [hc])]
              constructor
              · intro hread
                obtain ⟨⟨token, rest⟩, htoken, hread⟩ := Option.bind_eq_some_iff.mp hread
                obtain ⟨tokens', hrest, heq⟩ := Option.bind_eq_some_iff.mp hread
                have hshort := read_shortens htoken
                rw [List.length_cons] at hshort
                exact ⟨token, rest, tokens', htoken, (ih (by omega)).mp hrest,
                  (Option.some.inj heq).symm⟩
              · rintro ⟨token, rest, tokens', htoken, hrest, rfl⟩
                have hshort := read_shortens htoken
                rw [List.length_cons] at hshort
                exact Option.bind_eq_some_iff.mpr ⟨_, htoken,
                  Option.bind_eq_some_iff.mpr ⟨tokens', (ih (by omega)).mpr hrest, rfl⟩⟩

/-- Every text has as much fuel as it needs. -/
theorem ofText_eq_some_iff {text : List Char} {tokens : List Token} :
    ofText text = some tokens ↔ Lexes text tokens := readAll_iff (Nat.le_refl _)

/-- Two texts one behind the other have their tokens one behind the other, if no
number can go on in the second. -/
theorem Lexes.append {text text' : List Char} {tokens tokens' : List Token}
    (h : Lexes text tokens) (h' : Lexes text' tokens') (hends : EndsNumber text') :
    Lexes (text ++ text') (tokens ++ tokens') := by
  induction h with
  | nil => exact h'
  | blank hc _ ih => exact .blank hc ih
  | token hread _ ih =>
      obtain ⟨taken, rfl, hlocal⟩ := read_local _ _ _ hread
      rw [List.append_assoc]
      exact .token (hlocal _ (.behind _ hends)) ih

theorem Lexes.blanks_append {blanks text : List Char} {tokens : List Token}
    (hblanks : blanks.all isBlank = true) (h : Lexes text tokens) :
    Lexes (blanks ++ text) tokens := by
  induction blanks with
  | nil => exact h
  | cons c blanks ih =>
      rw [List.all_cons, Bool.and_eq_true] at hblanks
      exact .blank hblanks.1 (ih hblanks.2)

/-- Blanks behind a text add no token. -/
theorem Lexes.append_blanks {text blanks : List Char} {tokens : List Token} (h : Lexes text tokens)
    (hblanks : blanks.all isBlank = true) : Lexes (text ++ blanks) tokens := by
  have hnil : Lexes blanks [] := List.append_nil blanks ▸ Lexes.nil.blanks_append hblanks
  have hends : EndsNumber blanks := fun c hc =>
    inNumber_blank (List.all_eq_true.mp hblanks c (List.mem_of_mem_head? hc))
  exact List.append_nil tokens ▸ h.append hnil hends

/-! ## Numbers and strings as they are written -/

theorem digitsValue_toDigits (n : Nat) : digitsValue (Nat.toDigits 10 n) = n := by
  have hvalue := Nat.ofDigitChars_ten_toDigits (n := n)
  rw [Nat.ofDigitChars_eq_foldl] at hvalue
  simp only [Nat.mul_comm 10] at hvalue
  exact hvalue

theorem toDigits_of_zero {n : Nat} (h : (Nat.toDigits 10 n).head? = some '0') :
    Nat.toDigits 10 n = ['0'] := by
  induction n using Nat.strongRecOn with
  | ind n ih =>
      rw [Nat.toDigits_eq_if (by decide)] at h ⊢
      split at h
      · next hlt => rw [if_pos hlt, Option.some.inj h]
      · next hge =>
          rw [List.head?_append_of_ne_nil _ Nat.toDigits_ne_nil] at h
          have hzero := congrArg digitsValue (ih (n / 10) (by omega) h)
          rw [digitsValue_toDigits] at hzero
          change n / 10 = 0 at hzero
          omega

/-- No zero stands in front. -/
theorem wholePart_toDigits (n : Nat) :
    wholePart (Nat.toDigits 10 n) = some (Nat.toDigits 10 n) := by
  rw [wholePart, if_neg]
  rintro (hnil | ⟨hhead, hmore⟩)
  · exact Nat.toDigits_ne_nil hnil
  · exact hmore (toDigits_of_zero hhead)

/-- A decimal number is read where it ends. -/
theorem read_repr (n : Nat) {rest : List Char} (h : EndsNumber rest) :
    read ((Nat.repr n).toList ++ rest) = some (.number (some n), rest) := by
  have hdigits : ∀ c ∈ Nat.toDigits 10 n, c.isDigit = true := fun c hc =>
    Nat.isDigit_of_mem_toDigits (by decide) (by decide) hc
  have hstop : ∀ c, inNumber c = true → rest.head? ≠ some c := by
    intro c hc hhead
    rw [h c hhead] at hc
    cases hc
  have hread : read (Nat.toDigits 10 n ++ rest) = readNumber false (Nat.toDigits 10 n ++ rest) := by
    obtain ⟨c, digits, hcons⟩ := List.exists_cons_of_ne_nil (Nat.toDigits_ne_nil (n := n) (b := 10))
    rw [hcons] at hdigits ⊢
    exact read_digit (hdigits c List.mem_cons_self) _
  have hwhole : readDigits wholePart (Nat.toDigits 10 n ++ rest) =
      some (Nat.toDigits 10 n, rest) := by
    rw [readDigits, spanDigits_append hdigits fun c hc hdigit =>
      hstop c (by simp [inNumber, hdigit]) hc, wholePart_toDigits]
    rfl
  rw [Nat.toList_repr, hread, readNumber_eq, andThen_eq hwhole,
    andThen_eq (readFraction_of_ne (hstop _ rfl)),
    andThen_eq (readExponent_of_ne (hstop _ rfl) (hstop _ rfl)), numberToken,
    digitsValue_toDigits]
  rfl

theorem spells_plain {c : Char} (h : isPlain c = true) : Spells [c] (.char c) := by
  simp only [isPlain, Bool.and_eq_true, bne_iff_ne, Bool.not_eq_true', decide_eq_false_iff_not] at h
  exact spells_char h.1.1 h.1.2 h.2

theorem readPieces_plain {name : List Char} (h : name.all isPlain = true) (rest : List Char) :
    readPieces (name ++ '"' :: rest) = some (name.map .char, rest) := by
  induction name with
  | nil => rfl
  | cons c name ih =>
      rw [List.all_cons, Bool.and_eq_true] at h
      have hstep := spells_plain h.1 (name ++ '"' :: rest)
      rw [ih h.2] at hstep
      exact hstep

theorem decodePieces_chars (name : List Char) : decodePieces (name.map .char) = some name := by
  induction name with
  | nil => rfl
  | cons c name ih => rw [List.map_cons, decodePieces, ih]; rfl

/-- A plain string is read as it stands between its quotes. -/
theorem read_plain {name : List Char} (h : name.all isPlain = true) (rest : List Char) :
    read ('"' :: name ++ '"' :: rest) = some (.string (some (String.ofList name)), rest) := by
  rw [List.cons_append, read_quote, andThen_eq (readPieces_plain h rest), stringToken,
    decodePieces_chars]
  rfl

end CryptoPrimes.Json.Token
