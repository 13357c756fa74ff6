import SellingInformation.CryptoPP

/-!
# Shared constants and helpers

The security parameters of `common.h`, the byte encodings of `common.cpp` and the
length checks `aes.cpp` puts in front of the cipher.
-/

namespace SellingInformation.Common

open CryptoPP

/-- How many instances go through cut and choose. -/
def T : ℕ := 10

/-- The parameter of the time lock. -/
def K : UInt32 := 29

/-- How many keys an instance has. -/
def L : ℕ := 10

/-- Looking for an index in a set of them. -/
instance decidableMemIndices (ind : Fin L) (inds : List (Fin L)) : Decidable (ind ∈ inds) :=
  inferInstance

/-- `to_bytes`. -/
def toBytes (x : ℤ) : Bytes := encode x (minEncodedSize x)

/-- `integer2string`. -/
def integer2string (ix : ℤ) : Bytes := toBytes ix

/-- `concatenate`. -/
def concatenate {α : Type} (x y : List α) : List α := x ++ y

/-- The encoding loses the sign and nothing else. -/
theorem ofBytes_toBytes (x : ℤ) : ofBytes (toBytes x) = x.natAbs :=
  ofBytes_encode (le_max_right _ _)

theorem ofBytes_toBytes_of_nonneg {x : ℤ} (hx : 0 ≤ x) : ofBytes (toBytes x) = x := by
  rw [ofBytes_toBytes, Int.natAbs_of_nonneg hx]

/-- A byte vector as a key, if it has the length of one. -/
def asKey (key : Bytes) : Option Bytes32 :=
  if h : key.length = 32 then some ⟨key.toArray, by simpa using h⟩ else none

@[simp] theorem asKey_toList (key : Bytes32) : asKey key.toList = some key := by
  unfold asKey
  rw [dif_pos (by simp)]
  exact congrArg some (Vector.toArray_inj.1 Array.toArray_toList)

/-- `enc` with a key of any length. -/
def enc (aes : Cipher) (key msg : Bytes) : Except Exn Bytes :=
  match asKey key with
  | none => .error (.protocolException "Invalid length")
  | some k => .ok (aes.enc k msg)

/-- `dec` with a key of any length. -/
def dec (aes : Cipher) (key msg : Bytes) : Except Exn Bytes :=
  match asKey key with
  | none => .error .stdException
  | some k => aes.dec k msg

theorem enc_toList (aes : Cipher) (key : Bytes32) (msg : Bytes) :
    enc aes key.toList msg = .ok (aes.enc key msg) := by
  simp [enc]

theorem dec_toList (aes : Cipher) (key : Bytes32) (msg : Bytes) :
    dec aes key.toList msg = aes.dec key msg := by
  simp [dec]

/-- Whatever `enc` returned, `dec` under the same key gives the message back. -/
theorem dec_of_enc {aes : Cipher} (haes : aes.Lawful) {key msg c : Bytes}
    (h : enc aes key msg = .ok c) : dec aes key c = .ok msg := by
  unfold enc at h
  cases hk : asKey key with
  | none => simp [hk] at h
  | some k =>
    rw [hk] at h
    cases h
    simp [dec, hk, haes.dec_enc]

end SellingInformation.Common
