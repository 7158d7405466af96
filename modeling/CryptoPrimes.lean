import CryptoPrimes.Prime.ParamsText
import CryptoPrimes.Proofs.FactorBase
import CryptoPrimes.Proofs.Region
import CryptoPrimes.Proofs.Sample
import CryptoPrimes.Proofs.Scratch
import CryptoPrimes.Proofs.Belt.Cipher
import CryptoPrimes.Proofs.Belt.Collision
import CryptoPrimes.Proofs.Belt.Hash
import CryptoPrimes.Proofs.Belt.Reference
import CryptoPrimes.Proofs.Belt.Session
import CryptoPrimes.Proofs.Belt.Stream
import CryptoPrimes.Proofs.InPlace.Carry
import CryptoPrimes.Proofs.InPlace.Finds
import CryptoPrimes.Proofs.InPlace.Leaks
import CryptoPrimes.Proofs.InPlace.Masked
import CryptoPrimes.Proofs.InPlace.Octets
import CryptoPrimes.Proofs.InPlace.Power
import CryptoPrimes.Proofs.InPlace.Product
import CryptoPrimes.Proofs.InPlace.QuotientRoom
import CryptoPrimes.Proofs.InPlace.Residues
import CryptoPrimes.Proofs.InPlace.Sample
import CryptoPrimes.Proofs.InPlace.StrongTest
import CryptoPrimes.Proofs.Limbs.Bits
import CryptoPrimes.Proofs.Limbs.Division
import CryptoPrimes.Proofs.Limbs.Octets
import CryptoPrimes.Proofs.Limbs.Product
import CryptoPrimes.Proofs.Limbs.Remainder
import CryptoPrimes.Proofs.Limbs.Select
import CryptoPrimes.Proofs.Limbs.Shift
import CryptoPrimes.Proofs.Limbs.Value
import CryptoPrimes.Proofs.Modular.Masked
import CryptoPrimes.Proofs.Modular.Montgomery
import CryptoPrimes.Proofs.Modular.Power
import CryptoPrimes.Proofs.Prime.ErrorBound
import CryptoPrimes.Proofs.Prime.Extend
import CryptoPrimes.Proofs.Prime.Next
import CryptoPrimes.Proofs.Prime.Params
import CryptoPrimes.Proofs.Prime.ParamsText
import CryptoPrimes.Proofs.Prime.Range
import CryptoPrimes.Proofs.Prime.Sieve
import CryptoPrimes.Proofs.Prime.Rounds
import CryptoPrimes.Proofs.Prime.Search
import CryptoPrimes.Proofs.Prime.SingleWord
import CryptoPrimes.Proofs.Prime.Strong
import CryptoPrimes.Proofs.Prime.StrongBases
import CryptoPrimes.Proofs.Prime.Test
import CryptoPrimes.Proofs.Prime.Witnesses
import CryptoPrimes.Proofs.Sample.Blocks
import CryptoPrimes.Proofs.Sample.Uniform
import CryptoPrimes.Proofs.Trapping.Depths
import CryptoPrimes.Proofs.Trapping.Queries
import CryptoPrimes.Proofs.Trapping.QuotientDigit
import CryptoPrimes.Proofs.Trapping.Shift
import CryptoPrimes.Proofs.Trapping.Sieve
import CryptoPrimes.Proofs.Word.Bits
import CryptoPrimes.Proofs.Word.Count
import CryptoPrimes.Proofs.Word.Inverse
import CryptoPrimes.Proofs.Word.Permute
import CryptoPrimes.InPlace.Carry
