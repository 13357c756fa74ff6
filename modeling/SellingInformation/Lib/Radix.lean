import Mathlib.Data.List.Induction
import Mathlib.Data.Nat.Log
import Mathlib.Tactic.Ring

/-!
# Big-endian byte strings

Natural numbers as byte strings, most significant byte first: `ofBytes` reads a
string of any length, `toBytes len x` writes the `len` low bytes of `x`, and
`byteLength x` is the least length that holds `x`.

* `ofBytes_toBytes` — writing and reading back keeps `x` modulo `256 ^ len`;
* `ofBytes_toBytes_of_lt` — nothing is lost when `x` fits in `len` bytes;
* `byteLength_le_iff` — `byteLength x` is the least length in which it does.
-/

namespace Radix

/-- Read a byte string as a number, most significant byte first. -/
def ofBytes (b : List UInt8) : ℕ := b.foldl (fun acc x => 256 * acc + x.toNat) 0

/-- The `len` low bytes of `x`, most significant byte first. -/
def toBytes : ℕ → ℕ → List UInt8
  | 0, _ => []
  | len + 1, x => toBytes len (x / 256) ++ [UInt8.ofNat x]

/-- The number of bytes of `x`; zero for zero. -/
def byteLength (x : ℕ) : ℕ := if x = 0 then 0 else x.log2 / 8 + 1

@[simp] theorem ofBytes_nil : ofBytes [] = 0 := rfl

theorem ofBytes_append_singleton (b : List UInt8) (x : UInt8) :
    ofBytes (b ++ [x]) = 256 * ofBytes b + x.toNat := by
  simp [ofBytes]

@[simp] theorem length_toBytes (len x : ℕ) : (toBytes len x).length = len := by
  induction len generalizing x with
  | zero => rfl
  | succ len ih => simp [toBytes, ih]

theorem ofBytes_toBytes (len x : ℕ) : ofBytes (toBytes len x) = x % 256 ^ len := by
  induction len generalizing x with
  | zero => simp [toBytes, Nat.mod_one]
  | succ len ih =>
    have hbyte : (UInt8.ofNat x).toNat = x % 256 := UInt8.toNat_ofNat'
    unfold toBytes
    rw [ofBytes_append_singleton, ih, hbyte, pow_succ, mul_comm (256 ^ len),
      Nat.mod_mul]
    ring

theorem ofBytes_toBytes_of_lt {len x : ℕ} (h : x < 256 ^ len) : ofBytes (toBytes len x) = x := by
  rw [ofBytes_toBytes, Nat.mod_eq_of_lt h]

/-- Zero bytes in front change nothing. -/
theorem ofBytes_zeros_append (k : ℕ) (b : List UInt8) :
    ofBytes (List.replicate k 0 ++ b) = ofBytes b := by
  induction k with
  | zero => rfl
  | succ k ih => simpa [ofBytes, List.replicate_succ] using ih

/-- A byte string reads as zero exactly when all its bytes are zero. -/
theorem ofBytes_eq_zero_iff {b : List UInt8} : ofBytes b = 0 ↔ ∀ x ∈ b, x = 0 := by
  induction b using List.reverseRecOn with
  | nil => simp
  | append_singleton b x ih =>
    have hx : x.toNat = 0 ↔ x = 0 := by rw [← UInt8.toNat_inj, UInt8.toNat_zero]
    rw [ofBytes_append_singleton, Nat.add_eq_zero_iff, mul_eq_zero, ih, hx]
    simp [or_imp, forall_and]

theorem ofBytes_lt (b : List UInt8) : ofBytes b < 256 ^ b.length := by
  induction b using List.reverseRecOn with
  | nil => simp
  | append_singleton b x ih =>
    have hx := x.toNat_lt
    rw [ofBytes_append_singleton, List.length_append, List.length_singleton, pow_succ]
    omega

/-- `byteLength x` is the least number of bytes that holds `x`. -/
theorem byteLength_le_iff {x k : ℕ} : byteLength x ≤ k ↔ x < 256 ^ k := by
  have hpow : (256 : ℕ) ^ k = 2 ^ (8 * k) := by rw [pow_mul]; norm_num
  unfold byteLength
  by_cases hx : x = 0
  · simp [hx]
  · rw [if_neg hx, hpow, ← Nat.log2_lt hx]
    omega

end Radix
