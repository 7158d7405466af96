/-!
# Reported errors

Most faults of a caller stop a computation without a word (`Fault`).  A few
boundaries check their input and say what is wrong with it: sizing and carving
of memory regions, reading of digests, and the parameters of a prime search.
Each constructor of `Error` names the cause and carries its data; `message` is
the only place where the wording lives.
-/

namespace CryptoPrimes

/-- What is wrong with a parameter of a search. -/
inductive ParameterFault where
  /-- A search must be allowed at least one trial. -/
  | noTrials
  /-- More sieving primes are asked for than the factor base has. -/
  | sieveTooDeep (primes limit : Nat)
  /-- The prime asked for has more bits than its words. -/
  | tooManyBits (bits words : Nat)
deriving DecidableEq

/-- Errors reported at the boundaries of the library. -/
inductive Error where
  /-- A region or scratch area is shorter than required; octets for a region,
  words for scratch. -/
  | scratchTooSmall (needed available : Nat)
  /-- The sizes of a layout do not fit a machine word. -/
  | layoutOverflow
  /-- Octets of the wrong number. -/
  | invalidLength (expected actual : Nat)
  /-- A parameter out of its range. -/
  | invalidParameter (cause : ParameterFault)
deriving DecidableEq

/-- The wording of a parameter fault. -/
def ParameterFault.message : ParameterFault → String
  | noTrials => "trials must be at least 1"
  | sieveTooDeep primes limit =>
    "sieve_primes " ++ Nat.repr primes ++ " exceeds factor base size " ++ Nat.repr limit
  | tooManyBits bits words =>
    "p_bits " ++ Nat.repr bits ++ " does not fit " ++ Nat.repr words ++ " words"

/-- The wording of an error. -/
def Error.message : Error → String
  | scratchTooSmall needed available =>
    "scratch region too small: " ++ Nat.repr needed ++ " needed, " ++ Nat.repr available ++
      " available"
  | layoutOverflow => "scratch layout size overflows usize"
  | invalidLength expected actual =>
    "invalid length: expected " ++ Nat.repr expected ++ " bytes, got " ++ Nat.repr actual
  | invalidParameter cause => "invalid parameter: " ++ cause.message

end CryptoPrimes
