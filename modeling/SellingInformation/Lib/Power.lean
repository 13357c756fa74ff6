import Mathlib.Data.Fintype.Pigeonhole
import Mathlib.Tactic.Ring

/-!
# Powers in a finite monoid

The powers of an element of a finite monoid repeat from some exponent on.  So a
factor `b` that takes one power of `a` to another does so from any exponent on, with
an exponent that is added and never taken away.

* `exists_period` — the powers repeat;
* `exists_pow_mul_pow` — if `a ^ y * b = a ^ y'`, multiplying a high power of `a` by a
  power of `b` adds a multiple of one number to the exponent.
-/

namespace Power

variable {M : Type*} [CommMonoid M]

/-- Once two powers agree, all later ones do. -/
theorem pow_add_mul_eq {a : M} {s t : ℕ} (h : a ^ (s + t) = a ^ s) {m : ℕ} (hm : s ≤ m) (j : ℕ) :
    a ^ (m + t * j) = a ^ m := by
  obtain ⟨d, rfl⟩ := Nat.exists_eq_add_of_le hm
  induction j with
  | zero => rfl
  | succ j ih =>
    calc a ^ (s + d + t * (j + 1)) = a ^ (s + t) * a ^ (d + t * j) := by
          rw [← pow_add]
          congr 1
          ring
      _ = a ^ s * a ^ (d + t * j) := by rw [h]
      _ = a ^ (s + d + t * j) := by rw [← pow_add, add_assoc]
      _ = a ^ (s + d) := ih

/-- The powers of an element of a finite monoid repeat. -/
theorem exists_period [Finite M] (a : M) : ∃ s t : ℕ, 0 < t ∧ a ^ (s + t) = a ^ s := by
  obtain ⟨i, j, hij, heq⟩ := Finite.exists_ne_map_eq_of_infinite fun k : ℕ => a ^ k
  rcases Nat.lt_or_gt_of_ne hij with hlt | hlt
  · exact ⟨i, j - i, by omega, by rw [Nat.add_sub_cancel' hlt.le]; exact heq.symm⟩
  · exact ⟨j, i - j, by omega, by rw [Nat.add_sub_cancel' hlt.le]; exact heq⟩

/-- A factor between two powers of `a` acts on a high power of `a` by adding to its exponent. -/
theorem exists_pow_mul_pow [Finite M] {a b : M} {y y' : ℕ} (h : a ^ y * b = a ^ y') (N : ℕ) :
    ∃ A e : ℕ, N ≤ A ∧ ∀ c : ℕ, a ^ A * b ^ c = a ^ (A + e * c) := by
  obtain ⟨s, t, ht, hst⟩ := exists_period a
  have hyt : y ≤ t * y := Nat.le_mul_of_pos_left y ht
  -- the exponent `y' - y` may be negative, so enough periods are added to it
  have hstep : a ^ (N + s + y) * b = a ^ (N + s + y + (y' + t * y - y)) := by
    calc a ^ (N + s + y) * b = a ^ (N + s) * (a ^ y * b) := by rw [pow_add, mul_assoc]
      _ = a ^ (N + s + y') := by rw [h, ← pow_add]
      _ = a ^ (N + s + y' + t * y) := (pow_add_mul_eq hst (by omega) y).symm
      _ = a ^ (N + s + y + (y' + t * y - y)) := by
        congr 1
        omega
  refine ⟨N + s + y, y' + t * y - y, by omega, ?_⟩
  intro c
  induction c with
  | zero => simp
  | succ c ih =>
    calc a ^ (N + s + y) * b ^ (c + 1) = a ^ (N + s + y) * b ^ c * b := by rw [pow_succ, mul_assoc]
      _ = a ^ (N + s + y) * b * a ^ ((y' + t * y - y) * c) := by rw [ih, pow_add, mul_right_comm]
      _ = a ^ (N + s + y + (y' + t * y - y) * (c + 1)) := by
        rw [hstep, ← pow_add]
        congr 1
        ring

end Power
