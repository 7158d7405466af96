import CryptoPrimes.Json.Token

/-!
# Strict JSON

A format that reads what its documentation asks for and no more: one value, no trailing
commas, nothing behind it but blanks.  Objects keep their entries in order, with
repetitions; what a repeated name means is for the reader of the value to say.

Sizes and names are written as they stand, without blanks and without escapes.
-/

namespace CryptoPrimes.Json

namespace Value

mutual

/-- The value at the front of some tokens, whose number `fuel` bounds. -/
def read : Nat → List Token → Option (Value × List Token)
  | _, .null :: rest => some (.null, rest)
  | _, .bool value :: rest => some (.bool value, rest)
  | _, .number value :: rest => some (.number value, rest)
  | _, .string content :: rest => some (.string content, rest)
  | _, .openBracket :: .closeBracket :: rest => some (.array [], rest)
  | _, .openBrace :: .closeBrace :: rest => some (.object [], rest)
  | fuel + 1, .openBracket :: rest => do
    let (items, rest) ← readItems fuel rest
    return (.array items, rest)
  | fuel + 1, .openBrace :: rest => do
    let (entries, rest) ← readEntries fuel rest
    return (.object entries, rest)
  | _, _ => none

/-- The items of an array up to its closing bracket. -/
def readItems : Nat → List Token → Option (List Value × List Token)
  | 0, _ => none
  | fuel + 1, tokens => do
    let (item, rest) ← read fuel tokens
    match rest with
    | .closeBracket :: rest => return ([item], rest)
    | .comma :: rest =>
      let (items, rest) ← readItems fuel rest
      return (item :: items, rest)
    | _ => none

/-- The entries of an object up to its closing brace. -/
def readEntries : Nat → List Token → Option (List (Option String × Value) × List Token)
  | fuel + 1, .string name :: .colon :: tokens => do
    let (value, rest) ← read fuel tokens
    match rest with
    | .closeBrace :: rest => return ([(name, value)], rest)
    | .comma :: rest =>
      let (entries, rest) ← readEntries fuel rest
      return ((name, value) :: entries, rest)
    | _ => none
  | _, _ => none

end

/-- The value that a text is, if it is one. -/
def ofText (text : String) : Option Value := do
  let tokens ← Token.ofText text.toList
  let (value, rest) ← read tokens.length tokens
  if rest.isEmpty then return value else none

mutual

/-- The text of a value. -/
def toText : Value → String
  | .null => "null"
  | .bool value => toString value
  | .number value => Nat.repr (value.getD 0)
  | .string content => quote (content.getD "")
  | .array items => arrayText (itemTexts items)
  | .object entries => objectText (memberTexts entries)

/-- The texts of some items. -/
def itemTexts : List Value → List String
  | [] => []
  | item :: items => toText item :: itemTexts items

/-- The texts of some names and values. -/
def memberTexts : List (Option String × Value) → List (String × String)
  | [] => []
  | (name, value) :: entries => (quote (name.getD ""), toText value) :: memberTexts entries

end

end Value

/-- Strict JSON as a format. -/
def strict : Format := ⟨Value.ofText, Value.toText⟩

end CryptoPrimes.Json
