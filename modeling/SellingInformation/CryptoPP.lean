import Mathlib.Algebra.GroupWithZero.Units.Basic
import Mathlib.Data.Int.GCD
import Mathlib.Data.ZMod.Units
import Mathlib.GroupTheory.OrderOfElement
import Mathlib.Algebra.Group.Defs
import Mathlib.Tactic.LinearCombination
import SellingInformation.Lib.Radix
import SellingInformation.Lib.TwoPrimes
import SellingInformation.Protocol

/-!
# What the code takes from Crypto++

The functions of `CryptoPP::Integer` and of `nbtheory.h` that the repository
calls, by their documented behaviour.  `Integer` is `ℤ`; its `%` and `/` by a
positive number are `Int.emod` and `Int.ediv`.

What is not determined by its documentation is a parameter of the model: the
hash, the block cipher, the modular square root and the elliptic curve.  Each
comes with the property the code relies on (`Cipher.Lawful`,
`ModularSquareRoot.Lawful`, the fields of `ECParameters`).
-/

namespace SellingInformation

/-- `std::vector<byte>`. -/
abbrev Bytes := List UInt8

/-- `std::array<byte, 32>` and `byte[32]`. -/
abbrev Bytes32 := Vector UInt8 32

namespace CryptoPP

/-! ## Integers -/

/-- `a_times_b_mod_c`, for a modulus that is not zero: by zero the source throws `DivideByZero`, and
so do the callers here that the other party can send such a modulus. -/
def aTimesBModC (a b c : ℤ) : ℤ := a * b % c

/-- `a_exp_b_mod_c`, for a non-negative exponent and a modulus that is not zero. -/
def aExpBModC (a b c : ℤ) : ℤ := a ^ b.toNat % c

/-- `Integer::InverseMod`: the inverse in `[0, m)`, and zero for a number that
has none. -/
def inverseMod (a m : ℤ) : ℤ := if Int.gcd a m = 1 then Int.gcdA a m % m else 0

/-- The remainder sequence of `EuclideanDomain::Gcd`, whose loop keeps the last
two elements `g[i0]` and `g[i1]`. -/
def euclid (g0 g1 : ℤ) : ℤ :=
  if _h : g1 = 0 then g0 else euclid g1 (g0 % g1)
termination_by g1.natAbs
decreasing_by
  have hnn := Int.emod_nonneg g0 _h
  have hlt := Int.emod_lt g0 _h
  omega

/-- `GCD(a, b)`: the sequence starts with `g[0] = b` and `g[1] = a`. -/
def gcd (a b : ℤ) : ℤ := euclid b a

/-- `CRT(xp, p, xq, q, u)`, where `u` is the inverse of `p` modulo `q`. -/
def crt (xp p xq q u : ℤ) : ℤ := p * (u * (xq - xp) % q) + xp

/-- `Integer::GetBit(0)`: the lowest bit of the magnitude. -/
def getBit0 (x : ℤ) : Bool := x.natAbs.testBit 0

/-- `Integer::BitCount`. -/
def bitCount (x : ℤ) : ℕ := if x = 0 then 0 else x.natAbs.log2 + 1

/-- `Integer::ByteCount`. -/
def byteCount (x : ℤ) : ℕ := Radix.byteLength x.natAbs

/-- `Integer::MinEncodedSize`: at least one byte. -/
def minEncodedSize (x : ℤ) : ℕ := max 1 (byteCount x)

/-- `Integer::Encode` into `len` bytes: the low bytes of the magnitude, most
significant byte first.  The sign is not written. -/
def encode (x : ℤ) (len : ℕ) : Bytes := Radix.toBytes len x.natAbs

/-- The constructor `Integer(const byte *, size_t)`: an unsigned big-endian number. -/
def ofBytes (b : Bytes) : ℤ := Radix.ofBytes b

section
variable (a b c m : ℤ)

theorem aTimesBModC_modEq : aTimesBModC a b c ≡ a * b [ZMOD c] := Int.mod_modEq _ _

theorem aExpBModC_modEq : aExpBModC a b c ≡ a ^ b.toNat [ZMOD c] := Int.mod_modEq _ _

@[simp] theorem aExpBModC_natCast (e : ℕ) : aExpBModC a (e : ℤ) c = a ^ e % c := rfl

theorem aTimesBModC_emod : aTimesBModC a b c % c = aTimesBModC a b c :=
  Int.emod_emod_of_dvd _ dvd_rfl

theorem aExpBModC_emod : aExpBModC a b c % c = aExpBModC a b c :=
  Int.emod_emod_of_dvd _ dvd_rfl

variable {a b c m}

theorem inverseMod_of_gcd_ne_one (h : Int.gcd a m ≠ 1) : inverseMod a m = 0 := if_neg h

/-- The inverse modulo `m` of a number coprime to `m`. -/
theorem mul_inverseMod_modEq (h : Int.gcd a m = 1) : a * inverseMod a m ≡ 1 [ZMOD m] := by
  have hbez := Int.gcd_eq_gcd_ab a m
  rw [h] at hbez
  unfold inverseMod
  rw [if_pos h]
  calc a * (Int.gcdA a m % m) ≡ a * Int.gcdA a m [ZMOD m] := (Int.mod_modEq _ _).mul_left _
    _ ≡ 1 [ZMOD m] := by
      refine Int.modEq_iff_dvd.2 ⟨Int.gcdB a m, ?_⟩
      push_cast at hbez
      linear_combination hbez

theorem inverseMod_one (hm : 1 < m) : inverseMod 1 m = 1 := by
  have h := mul_inverseMod_modEq (@Int.one_gcd m)
  have hrange : inverseMod 1 m % m = inverseMod 1 m := by
    rw [inverseMod, if_pos Int.one_gcd, Int.emod_emod_of_dvd _ dvd_rfl]
  rwa [one_mul, Int.ModEq, hrange, Int.emod_eq_of_lt zero_le_one hm] at h

theorem euclid_natAbs (g0 g1 : ℤ) : (euclid g0 g1).natAbs = Int.gcd g0 g1 := by
  fun_induction euclid g0 g1 with
  | case1 g0 => simp
  | case2 g0 g1 h ih => rw [ih, Int.gcd_comm g1, Int.gcd_emod, Int.gcd_comm]

theorem euclid_nonneg {g0 g1 : ℤ} (h0 : 0 ≤ g0) (h1 : 0 ≤ g1) : 0 ≤ euclid g0 g1 := by
  fun_induction euclid g0 g1 with
  | case1 g0 => exact h0
  | case2 g0 g1 h ih => exact ih h1 (Int.emod_nonneg _ h)

/-- On non-negative numbers `GCD` is the greatest common divisor. -/
theorem gcd_eq (ha : 0 ≤ a) (hb : 0 ≤ b) : gcd a b = Int.gcd a b := by
  have h := euclid_natAbs b a
  have hnn : 0 ≤ euclid b a := euclid_nonneg hb ha
  unfold gcd
  rw [← Int.natAbs_of_nonneg hnn, h, Int.gcd_comm]

theorem length_encode (x : ℤ) (len : ℕ) : (encode x len).length = len :=
  Radix.length_toBytes _ _

/-- Reading back what `Encode` wrote gives the magnitude, provided it fits. -/
theorem ofBytes_encode {x : ℤ} {len : ℕ} (h : byteCount x ≤ len) :
    ofBytes (encode x len) = x.natAbs := by
  unfold ofBytes
  rw [encode, Radix.ofBytes_toBytes_of_lt (Radix.byteLength_le_iff.1 h)]

theorem lt_two_pow_bitCount (x : ℤ) : x.natAbs < 2 ^ bitCount x := by
  unfold bitCount
  by_cases hx : x = 0
  · simp [hx]
  · rw [if_neg hx]
    exact (Nat.log2_lt (by simpa using hx)).1 (Nat.lt_succ_self _)

end

/-! ### In the ring of residues -/

section
variable {n : ℕ}

theorem cast_aTimesBModC (a b : ℤ) : ((aTimesBModC a b n : ℤ) : ZMod n) = a * b := by
  unfold aTimesBModC
  rw [ZMod.intCast_mod]
  push_cast
  rfl

theorem cast_aExpBModC (a b : ℤ) : ((aExpBModC a b n : ℤ) : ZMod n) = a ^ b.toNat := by
  unfold aExpBModC
  rw [ZMod.intCast_mod]
  push_cast
  rfl

theorem isUnit_cast_iff (w : ℤ) : IsUnit (w : ZMod n) ↔ Int.gcd w n = 1 := by
  rw [ZMod.coe_int_isUnit_iff_isCoprime, isCoprime_comm, Int.isCoprime_iff_gcd_eq_one]

/-- `InverseMod` is the inverse of the ring, zero where there is none. -/
theorem cast_inverseMod (w : ℤ) :
    ((inverseMod w n : ℤ) : ZMod n) = Ring.inverse (w : ZMod n) := by
  by_cases h : Int.gcd w n = 1
  · have hmul : (w : ZMod n) * ((inverseMod w n : ℤ) : ZMod n) = 1 := by
      have hcast := (ZMod.intCast_eq_intCast_iff _ _ n).2 (mul_inverseMod_modEq h)
      push_cast at hcast
      exact hcast
    have hunit := (isUnit_cast_iff w).2 h
    rw [← mul_one (Ring.inverse _), ← hmul, Ring.inverse_mul_cancel_left _ _ hunit]
  · rw [inverseMod_of_gcd_ne_one h, Int.cast_zero,
      Ring.inverse_non_unit _ ((isUnit_cast_iff w).not.2 h)]

end

end CryptoPP

/-! ## The hash, the block cipher and the modular square root -/

/-- `SHA256::CalculateDigest`. -/
abbrev Sha256 := Bytes → Bytes32

/-- AES with a 32-byte key in ECB mode behind a `StreamTransformationFilter`,
which pads the message to whole blocks. -/
structure Cipher where
  enc : Bytes32 → Bytes → Bytes
  dec : Bytes32 → Bytes → Except Exn Bytes

/-- What the code relies on: decryption undoes encryption under the same key, and
the padding makes a ciphertext one block longer than the whole blocks of the
message. -/
structure Cipher.Lawful (aes : Cipher) : Prop where
  dec_enc : ∀ key msg, aes.dec key (aes.enc key msg) = .ok msg
  length_enc : ∀ key msg, (aes.enc key msg).length = 16 * (msg.length / 16 + 1)

theorem Cipher.Lawful.enc_ne_nil {aes : Cipher} (h : aes.Lawful) (key : Bytes32) (msg : Bytes) :
    aes.enc key msg ≠ [] := by
  intro hc
  have hlen := h.length_enc key msg
  rw [hc, List.length_nil] at hlen
  omega

/-- The padding alone, with no encryption: as many bytes as are missing to whole blocks,
each of which is that number. -/
def Cipher.padding : Cipher where
  enc _ msg :=
    msg ++ List.replicate (16 - msg.length % 16) (UInt8.ofNat (16 - msg.length % 16))
  dec _ c :=
    match c.getLast? with
    | none => .error .invalidCiphertext
    | some pad => .ok (c.take (c.length - pad.toNat))

theorem Cipher.lawful_padding : Cipher.padding.Lawful := by
  refine ⟨?_, ?_⟩
  · intro key msg
    have hpad : 16 - msg.length % 16 ≠ 0 := by omega
    have hbyte : (UInt8.ofNat (16 - msg.length % 16)).toNat = 16 - msg.length % 16 := by
      rw [UInt8.toNat_ofNat']
      omega
    simp [Cipher.padding, List.getLast?_append, List.getLast?_replicate, hpad, hbyte]
  · intro key msg
    simp only [Cipher.padding, List.length_append, List.length_replicate]
    omega

/-- The padding, where a ciphertext that is not made of whole blocks is refused. -/
def Cipher.blocks : Cipher where
  enc := Cipher.padding.enc
  dec key c := if c.length % 16 = 0 then Cipher.padding.dec key c else .error .invalidCiphertext

theorem Cipher.lawful_blocks : Cipher.blocks.Lawful := by
  refine ⟨fun key msg => ?_, Cipher.lawful_padding.length_enc⟩
  have hlen := Cipher.lawful_padding.length_enc key msg
  have hwhole : (Cipher.padding.enc key msg).length % 16 = 0 := by omega
  exact (if_pos hwhole).trans (Cipher.lawful_padding.dec_enc key msg)

/-- `ModularSquareRoot(a, p)`. -/
abbrev ModularSquareRoot := ℤ → ℤ → ℤ

/-- Modulo a prime, the function returns a root in `[0, p)` when there is one;
otherwise it may return anything. -/
def ModularSquareRoot.Lawful (msr : ModularSquareRoot) : Prop :=
  ∀ (p : ℕ) (a x : ℤ), p.Prime → x * x ≡ a [ZMOD p] →
    0 ≤ msr a p ∧ msr a p < p ∧ msr a p * msr a p ≡ a [ZMOD p]

/-- The first root below `p`, by trying all numbers. -/
def searchRoot : ModularSquareRoot := fun a p =>
  (((List.range p.toNat).map fun k : ℕ => (k : ℤ)).find? fun x => x * x % p = a % p).getD 0

theorem lawful_searchRoot : ModularSquareRoot.Lawful searchRoot := by
  intro p a x hp hx
  have hp0 : (0 : ℤ) < p := by exact_mod_cast hp.pos
  have hmem : ∀ y : ℤ, y ∈ (List.range (p : ℤ).toNat).map (fun k : ℕ => (k : ℤ)) ↔
      0 ≤ y ∧ y < p := by
    intro y
    rw [List.mem_map, Int.toNat_natCast]
    constructor
    · rintro ⟨k, hk, rfl⟩
      have := List.mem_range.1 hk
      omega
    · rintro ⟨h0, hlt⟩
      exact ⟨y.toNat, List.mem_range.2 (by omega), by omega⟩
  have hroot : x % p * (x % p) % p = a % p :=
    ((Int.mod_modEq x p).mul (Int.mod_modEq x p)).trans hx
  cases hfind : ((List.range (p : ℤ).toNat).map fun k : ℕ => (k : ℤ)).find?
      (fun x => decide (x * x % p = a % p)) with
  | none =>
    have hno := List.find?_eq_none.1 hfind (x % p)
      ((hmem _).2 ⟨Int.emod_nonneg _ hp0.ne', Int.emod_lt_of_pos _ hp0⟩)
    exact absurd hroot (by simpa using hno)
  | some y =>
    have hy := (hmem y).1 (List.mem_of_find?_eq_some hfind)
    have hsq : y * y % p = a % p := by simpa using List.find?_some hfind
    unfold searchRoot
    rw [hfind, Option.getD_some]
    exact ⟨hy.1, hy.2, hsq⟩

/-! ## The curve -/

/-- `DL_GroupParameters_EC<ECP>`: the group of the curve, its base point `G`
of prime order `n`, and the coordinates of a point. -/
structure ECParameters (Point : Type) [AddCommGroup Point] where
  G : Point
  n : ℕ
  /-- The coordinates of a point; those of the identity are zero. -/
  x : Point → ℕ
  y : Point → ℕ
  n_prime : n.Prime
  two_lt_n : 2 < n
  /-- The order fits into 32 bytes, as the order of `secp256k1` does. -/
  byteCount_n : CryptoPP.byteCount n ≤ 32
  addOrderOf_G : addOrderOf G = n
  /-- The group is cyclic. -/
  exists_smul : ∀ P : Point, ∃ k : ℤ, P = k • G
  /-- A point and its inverse have the same `x`. -/
  x_neg : ∀ P : Point, x (-P) = x P
  x_zero : x 0 = 0

namespace ECParameters

variable {Point : Type} [AddCommGroup Point] (ec : ECParameters Point)

/-- On a curve, two points with one `x` are equal or inverse to each other.  The identity is not
on the curve. -/
def XUpToSign : Prop :=
  ∀ P P' : Point, P ≠ 0 → P' ≠ 0 → ec.x P = ec.x P' → P = P' ∨ P = -P'

theorem smul_G_eq_zero_iff (k : ℤ) : k • ec.G = 0 ↔ (ec.n : ℤ) ∣ k := by
  rw [← ec.addOrderOf_G]
  exact addOrderOf_dvd_iff_zsmul_eq_zero.symm

/-- Multiples of the base point are equal when the factors are, modulo the order. -/
theorem smul_G_eq_iff {a b : ℤ} : a • ec.G = b • ec.G ↔ (a : ZMod ec.n) = b := by
  rw [← sub_eq_zero, ← sub_smul, smul_G_eq_zero_iff, ZMod.intCast_eq_intCast_iff_dvd_sub,
    ← Int.dvd_neg, neg_sub]

theorem smul_G_congr {a b : ℤ} (h : (a : ZMod ec.n) = b) : a • ec.G = b • ec.G :=
  ec.smul_G_eq_iff.2 h

end ECParameters

end SellingInformation
