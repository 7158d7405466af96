import CryptoPrimes.Json.Format

/-!
# JSON tokens

The lexical level of one format, strict JSON: a text is cut into punctuation, the
three words, numbers and strings, with blanks between them.

Of a number, only a plain natural number keeps its value; a sign, a fraction or
an exponent makes it a number without one here.  Of a string, the escapes are
decoded; a string with an unpaired surrogate is well formed but has no content.
-/

namespace CryptoPrimes.Json

/-- The tokens of JSON. -/
inductive Token where
  | openBrace
  | closeBrace
  | openBracket
  | closeBracket
  | colon
  | comma
  | null
  | bool (value : Bool)
  | number (value : Option Nat)
  | string (content : Option String)
deriving DecidableEq

namespace Token

/-! ## Strings -/

/-- A piece of a string: a character as it stands, or an escaped code unit. -/
inductive Piece where
  | char (c : Char)
  | unit (code : Nat)
deriving DecidableEq

/-- The value of a hexadecimal digit of either case. -/
def hexValue? (c : Char) : Option Nat :=
  if '0' ≤ c ∧ c ≤ '9' then some (c.toNat - 48)
  else if 'a' ≤ c ∧ c ≤ 'f' then some (c.toNat - 87)
  else if 'A' ≤ c ∧ c ≤ 'F' then some (c.toNat - 55)
  else none

/-- The value of four hexadecimal digits. -/
def hexValue4? (a b c d : Char) : Option Nat := do
  let a ← hexValue? a
  let b ← hexValue? b
  let c ← hexValue? c
  let d ← hexValue? d
  return ((a * 16 + b) * 16 + c) * 16 + d

/-- The character that a backslash and `c` stand for. -/
def escaped? (c : Char) : Option Char :=
  match c with
  | '"' => some '"'
  | '\\' => some '\\'
  | '/' => some '/'
  | 'b' => some '\x08'
  | 'f' => some '\x0c'
  | 'n' => some '\n'
  | 'r' => some '\r'
  | 't' => some '\t'
  | _ => none

/-- The pieces of a string up to its closing quote, and the text behind it.
Control characters must be escaped. -/
def readPieces : List Char → Option (List Piece × List Char)
  | [] => none
  | '"' :: rest => some ([], rest)
  | '\\' :: 'u' :: a :: b :: c :: d :: rest => do
    let code ← hexValue4? a b c d
    let (pieces, rest) ← readPieces rest
    return (.unit code :: pieces, rest)
  | '\\' :: c :: rest => do
    let c ← escaped? c
    let (pieces, rest) ← readPieces rest
    return (.char c :: pieces, rest)
  | c :: rest =>
    if c.toNat < 32 then none
    else do
      let (pieces, rest) ← readPieces rest
      return (.char c :: pieces, rest)

/-- The characters of a string.  Two escaped surrogates, high and low, make up
one character; unpaired ones make up none. -/
def decodePieces : List Piece → Option (List Char)
  | [] => some []
  | .char c :: rest => (decodePieces rest).map (c :: ·)
  | .unit high :: .unit low :: rest =>
    if 0xd800 ≤ high ∧ high < 0xdc00 then
      if 0xdc00 ≤ low ∧ low < 0xe000 then
        (decodePieces rest).map
          (Char.ofNat (0x10000 + (high - 0xd800) * 0x400 + (low - 0xdc00)) :: ·)
      else none
    else if 0xdc00 ≤ high ∧ high < 0xe000 then none
    else (decodePieces (.unit low :: rest)).map (Char.ofNat high :: ·)
  | .unit code :: rest =>
    if 0xd800 ≤ code ∧ code < 0xe000 then none
    else (decodePieces rest).map (Char.ofNat code :: ·)

/-! ## Numbers -/

/-- The decimal digits at the front of a text, and what follows them. -/
def spanDigits (text : List Char) : List Char × List Char := text.span Char.isDigit

/-- The value of decimal digits. -/
def digitsValue (digits : List Char) : Nat :=
  digits.foldl (fun n c => n * 10 + (c.toNat - 48)) 0

/-- The whole part of a number: no digit follows a leading zero. -/
def readWhole (text : List Char) : Option (List Char × List Char) :=
  match spanDigits text with
  | ([], _) => none
  | (['0'], rest) => some (['0'], rest)
  | ('0' :: _, _) => none
  | (digits, rest) => some (digits, rest)

/-- The fraction of a number, if it has one, and whether it has. -/
def readFraction (text : List Char) : Option (Bool × List Char) :=
  match text with
  | '.' :: rest =>
    match spanDigits rest with
    | ([], _) => none
    | (_, rest) => some (true, rest)
  | _ => some (false, text)

/-- An optional sign. -/
def skipSign : List Char → List Char
  | '+' :: rest => rest
  | '-' :: rest => rest
  | text => text

/-- The exponent of a number, if it has one, and whether it has. -/
def readExponent (text : List Char) : Option (Bool × List Char) :=
  match text with
  | c :: rest =>
    if c = 'e' ∨ c = 'E' then
      match spanDigits (skipSign rest) with
      | ([], _) => none
      | (_, rest) => some (true, rest)
    else some (false, text)
  | [] => some (false, [])

/-- A number at the front of a text that follows a minus sign or not. -/
def readNumber (negative : Bool) (text : List Char) : Option (Token × List Char) := do
  let (digits, rest) ← readWhole text
  let (fraction, rest) ← readFraction rest
  let (exponent, rest) ← readExponent rest
  if negative || fraction || exponent then return (.number none, rest)
  else return (.number (some (digitsValue digits)), rest)

/-! ## Tokens -/

/-- The token at the front of a text that starts with no blank. -/
def read : List Char → Option (Token × List Char)
  | [] => none
  | '{' :: rest => some (.openBrace, rest)
  | '}' :: rest => some (.closeBrace, rest)
  | '[' :: rest => some (.openBracket, rest)
  | ']' :: rest => some (.closeBracket, rest)
  | ':' :: rest => some (.colon, rest)
  | ',' :: rest => some (.comma, rest)
  | 'n' :: 'u' :: 'l' :: 'l' :: rest => some (.null, rest)
  | 't' :: 'r' :: 'u' :: 'e' :: rest => some (.bool true, rest)
  | 'f' :: 'a' :: 'l' :: 's' :: 'e' :: rest => some (.bool false, rest)
  | '"' :: rest => do
    let (pieces, rest) ← readPieces rest
    return (.string ((decodePieces pieces).map String.ofList), rest)
  | '-' :: rest => readNumber true rest
  | text => readNumber false text

/-- The tokens of a text of at most `fuel` characters. -/
def readAll : Nat → List Char → Option (List Token)
  | _, [] => some []
  | 0, _ => none
  | fuel + 1, c :: rest =>
    if isBlank c then readAll fuel rest
    else do
      let (token, rest) ← read (c :: rest)
      let tokens ← readAll fuel rest
      return token :: tokens

/-- The tokens of a text. -/
def ofText (text : List Char) : Option (List Token) := readAll text.length text

end Token

end CryptoPrimes.Json
