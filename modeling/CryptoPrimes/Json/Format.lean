import CryptoPrimes.Width

/-!
# Records as text

Records are kept as JSON by code that is not part of this library: a format, which
reads texts as values and writes values as texts, and for each record the two
directions between its members and values, derived from the declaration of its fields.
Both are parameters (`Format`, `Codec`).  What is relied on is what is documented of
them, as far as records need it: `Format.Documented`, `Codec.Derived` and, where a type
has nothing but names, `Codec.Named`.

A value keeps of a number whether it is a plain natural one, and of a string whether it
has characters at all: no record asks for more.
-/

namespace CryptoPrimes.Json

/-- A JSON value.  A signed, broken or scaled number has no value here, and a string
with an unpaired surrogate has no content. -/
inductive Value where
  | null
  | bool (value : Bool)
  | number (value : Option Nat)
  | string (content : Option String)
  | array (items : List Value)
  | object (entries : List (Option String × Value))

/-- A reader and a writer of texts. -/
structure Format where
  read : String → Option Value
  write : Value → String

/-- A reader and a writer of members of a type as values. -/
structure Codec (T : Type) where
  ofValue : Value → Option T
  toValue : T → Value

/-! ## Texts -/

/-- Blanks between tokens. -/
def isBlank (c : Char) : Bool := c = ' ' || c = '\t' || c = '\n' || c = '\r'

/-- A character that stands for itself in a string. -/
def isPlain (c : Char) : Bool := c != '"' && c != '\\' && !decide (c.toNat < 32)

/-- The text of a name without escapes. -/
def quote (name : String) : String := "\"" ++ name ++ "\""

/-- The text of an array from the texts of its items. -/
def arrayText (items : List String) : String := "[" ++ ",".intercalate items ++ "]"

/-- The text of an object from the texts of its names and values. -/
def objectText (members : List (String × String)) : String :=
  "\x7b" ++ ",".intercalate (members.map fun member => member.1 ++ ":" ++ member.2) ++ "\x7d"

namespace Format

/-- The name and the value that a pair of texts is read as. -/
def entry (format : Format) (member : String × String) : Option (Option String × Value) :=
  match format.read member.1 with
  | some (.string name) => (format.read member.2).map fun value => (name, value)
  | _ => none

/-- What is documented of a format: it reads JSON, and writes it without blanks.  Values
are read however deep they are nested, since what no record asks for is only skipped. -/
structure Documented (format : Format) : Prop where
  read_blanks : ∀ (before text behind : String) (value : Value),
    before.toList.all isBlank = true → behind.toList.all isBlank = true →
    format.read text = some value → format.read (before ++ text ++ behind) = some value
  read_null : format.read "null" = some .null
  read_size : ∀ n < 2 ^ 64, format.read (Nat.repr n) = some (.number (some n))
  read_name : ∀ name : String, name.toList.all isPlain = true →
    format.read (quote name) = some (.string (some name))
  read_array : ∀ (texts : List String) (items : List Value),
    texts.map format.read = items.map some → format.read (arrayText texts) = some (.array items)
  read_object : ∀ (members : List (String × String)) (entries : List (Option String × Value)),
    members.map format.entry = entries.map some →
    format.read (objectText members) = some (.object entries)
  write_size : ∀ n < 2 ^ 64, format.write (.number (some n)) = Nat.repr n
  write_name : ∀ name : String, name.toList.all isPlain = true →
    format.write (.string (some name)) = quote name
  write_object : ∀ entries : List (String × Value),
    (∀ entry ∈ entries, entry.1.toList.all isPlain = true) →
    format.write (.object (entries.map fun entry => (some entry.1, entry.2))) =
      objectText (entries.map fun entry => (quote entry.1, format.write entry.2))

end Format

/-! ## Records -/

/-- A declared field of a record. -/
structure RecordField (T : Type) where
  name : String
  value : T → Value
  /-- It is left out when the record is written. -/
  skipped : T → Bool := fun _ => false
  /-- It has its default, so that it may be missing where the record is read. -/
  missing : T → Bool := fun _ => false

section

variable {T : Type}

/-- The values of all entries of one name. -/
def valuesOf (name : String) (entries : List (Option String × Value)) : List Value :=
  (entries.filter (·.1 = some name)).map (·.2)

/-- The entries of a record, in the order of its fields. -/
def entriesOf (fields : List (RecordField T)) (x : T) : List (String × Value) :=
  (fields.filter fun field => !field.skipped x).map fun field => (field.name, field.value x)

/-- The values that a record can be read from. -/
inductive Denotes (fields : List (RecordField T)) : Value → T → Prop
  /-- The fields in any order and among any other entries, each of them once. -/
  | object {entries : List (Option String × Value)} {x : T}
      (names : ∀ entry ∈ entries, entry.1 ≠ none)
      (once : ∀ field ∈ fields, valuesOf field.name entries = [field.value x] ∨
        valuesOf field.name entries = [] ∧ field.missing x = true) :
      Denotes fields (.object entries) x
  /-- The fields in their order, without names and perhaps without the last ones. -/
  | array {taken left : List (RecordField T)} {x : T} (all : fields = taken ++ left)
      (rest : ∀ field ∈ left, field.missing x = true) :
      Denotes fields (.array (taken.map fun field => field.value x)) x

/-- What is documented of the two directions derived for a record: its fields are written
in their order, and read from whatever denotes a member that `Fits` its types. -/
structure Codec.Derived (codec : Codec T) (fields : List (RecordField T)) (Fits : T → Prop) :
    Prop where
  toValue : ∀ x, Fits x → codec.toValue x =
    .object ((entriesOf fields x).map fun entry => (some entry.1, entry.2))
  ofValue : ∀ value x, codec.ofValue value = some x ↔ Fits x ∧ Denotes fields value x

/-- What is documented of the two directions derived for a type of names: a member is
written as its name, and read from it or from an object that has it as its only name. -/
structure Codec.Named (codec : Codec T) (name : T → String) : Prop where
  toValue : ∀ x, codec.toValue x = .string (some (name x))
  ofValue : ∀ value x, codec.ofValue value = some x ↔
    value = .string (some (name x)) ∨ value = .object [(some (name x), .null)]

/-- Read a member of a type. -/
def Codec.parse (codec : Codec T) (format : Format) (text : String) : Option T :=
  format.read text >>= codec.ofValue

/-- Write a member of a type. -/
def Codec.render (codec : Codec T) (format : Format) (x : T) : String :=
  format.write (codec.toValue x)

end

end CryptoPrimes.Json
