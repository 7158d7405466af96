import CryptoPrimes.Json.Format
import CryptoPrimes.Prime.Params

/-!
# Search parameters as text

What is declared of parameters and presets for their texts.  Parameters are a record of
three fields; a bit limit of none is not written, and is what a missing one stands for.
A preset is its name.

`SearchParams.codec` and `Preset.codec` are directions between values and both types as
these declarations ask for, for running searches with parameters that are given as text.
-/

namespace CryptoPrimes.Prime

open Json

/-! ## Parameters -/

namespace SearchParams

/-- A size as a value. -/
def sizeValue (n : Nat) : Value := .number (some n)

/-- A bit limit as a value, which may be none. -/
def limitValue : Option Nat → Value
  | none => .null
  | some limit => sizeValue limit

/-- How many trials there are. -/
def trialsField : RecordField SearchParams where
  name := "trials"
  value params := sizeValue params.trials

/-- How many primes are sieved by. -/
def sieveField : RecordField SearchParams where
  name := "sieve_primes"
  value params := sizeValue params.sievePrimes

/-- The bit limit, which is not written if there is none. -/
def limitField : RecordField SearchParams where
  name := "bit_limit"
  value params := limitValue params.bitLimit
  skipped params := params.bitLimit.isNone
  missing params := params.bitLimit.isNone

/-- The declared fields. -/
def fields : List (RecordField SearchParams) := [trialsField, sieveField, limitField]

/-- A size: a natural number that fits a machine word. -/
def readSize : Value → Option Nat
  | .number (some n) => if n < 2 ^ 64 then some n else none
  | _ => none

/-- A size or nothing. -/
def readLimit : Value → Option (Option Nat)
  | .null => some none
  | value => (readSize value).map some

/-- Parameters from the values of their fields. -/
def ofParts (trials sievePrimes bitLimit : Value) : Option SearchParams := do
  return ⟨← readSize trials, ← readSize sievePrimes, ← readLimit bitLimit⟩

/-- The value of the only entry of a name; `missing` stands for it if there is none. -/
def sole (name : String) (missing : Option Value) (entries : List (Option String × Value)) :
    Option Value :=
  match valuesOf name entries with
  | [] => missing
  | [value] => some value
  | _ => none

/-- Parameters and their values. -/
def codec : Codec SearchParams where
  ofValue
    | .object entries =>
      if entries.all (·.1.isSome) then do
        ofParts (← sole trialsField.name none entries) (← sole sieveField.name none entries)
          (← sole limitField.name (some .null) entries)
      else none
    | .array [trials, sievePrimes] => ofParts trials sievePrimes .null
    | .array [trials, sievePrimes, bitLimit] => ofParts trials sievePrimes bitLimit
    | _ => none
  toValue params := .object ((entriesOf fields params).map fun entry => (some entry.1, entry.2))

end SearchParams

/-! ## Presets -/

namespace Preset

/-- The name of a preset. -/
def name : Preset → String
  | quick => "Quick"
  | standard => "Standard"
  | exhaustive => "Exhaustive"

/-- The preset of a name. -/
def ofName (text : String) : Option Preset :=
  [quick, standard, exhaustive].find? fun preset => preset.name = text

/-- Presets and their values. -/
def codec : Codec Preset where
  ofValue
    | .string (some text) => ofName text
    | .object [(some text, .null)] => ofName text
    | _ => none
  toValue preset := .string (some preset.name)

end Preset

end CryptoPrimes.Prime
