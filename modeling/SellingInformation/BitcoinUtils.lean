import SellingInformation.CryptoPP

/-!
# What the Bitcoin service tells the recovery

`bitcoin_utils.thrift` and `BitcoinUtilsHandler.getSignature`.  The service finds the
transaction that spends the payment and hands out the two numbers of its signature, as the
bytes that `BigInteger.toByteArray` writes.  Finding the transaction and reading its script
is the work of a library that is outside this repository.

* `ofBytes_toByteArray` — an unsigned reader gets a non-negative number back, with the sign
  bit or without.
-/

namespace SellingInformation.BitcoinUtils

open CryptoPP

/-- `BigInteger.bitLength`: the bits of the two's complement form, without the sign bit. -/
def bitLength (x : ℤ) : ℕ := bitCount (if x < 0 then -x - 1 else x)

/-- `BigInteger.toByteArray`: the two's complement form, most significant byte first, in the
least number of bytes that has room for a sign bit. -/
def toByteArray (x : ℤ) : Bytes :=
  Radix.toBytes (bitLength x / 8 + 1) (x % 256 ^ (bitLength x / 8 + 1)).toNat

/-- Reading the bytes as an unsigned number loses the sign and nothing else. -/
theorem ofBytes_toByteArray_emod (x : ℤ) :
    ofBytes (toByteArray x) = x % 256 ^ (bitLength x / 8 + 1) := by
  have hpow : (0 : ℤ) < 256 ^ (bitLength x / 8 + 1) := by positivity
  have hlt := Int.emod_lt_of_pos x hpow
  have h0 := Int.emod_nonneg x hpow.ne'
  rw [ofBytes, toByteArray, Radix.ofBytes_toBytes_of_lt, Int.toNat_of_nonneg h0]
  rw [← Int.ofNat_lt, Int.toNat_of_nonneg h0]
  exact_mod_cast hlt

theorem lt_pow_bitLength {x : ℤ} (h : 0 ≤ x) : x < 256 ^ (bitLength x / 8 + 1) := by
  have hbits : bitLength x = bitCount x := by
    rw [bitLength, if_neg (not_lt.2 h)]
  have hlt := lt_two_pow_bitCount x
  rw [hbits]
  calc x = x.natAbs := (Int.natAbs_of_nonneg h).symm
    _ < 2 ^ bitCount x := by exact_mod_cast hlt
    _ ≤ 2 ^ (8 * (bitCount x / 8 + 1)) := by
      apply pow_le_pow_right₀ one_le_two
      omega
    _ = 256 ^ (bitCount x / 8 + 1) := by
      rw [pow_mul]
      norm_num

/-- The reader of the other language gets a non-negative number back. -/
theorem ofBytes_toByteArray {x : ℤ} (h : 0 ≤ x) : ofBytes (toByteArray x) = x := by
  rw [ofBytes_toByteArray_emod, Int.emod_eq_of_lt h (lt_pow_bitLength h)]

/-- With the highest bit set there is a byte for the sign. -/
example : toByteArray 127 = [127] ∧ toByteArray 128 = [0, 128] ∧ toByteArray (-1) = [255] := by
  decide

/-- `IntegerPair`. -/
structure IntegerPair where
  r : Bytes
  s : Bytes

/-- `BitcoinUtilsHandler.getSignature`, from the numbers in the script of the transaction. -/
def getSignature (r s : ℤ) : IntegerPair where
  r := toByteArray r
  s := toByteArray s

/-- The calls of `bitcoin_utils.thrift` that the buyer makes after it has paid.  Every one may
fail. -/
structure RecoveryClient where
  waitForTransactionByOutput : Bytes → Int32 → Except Exn Bool
  getSignature : Bytes → Except Exn IntegerPair
  redeemTransaction : Bytes → Bytes → Bytes → Bytes → Except Exn Bool

end SellingInformation.BitcoinUtils
