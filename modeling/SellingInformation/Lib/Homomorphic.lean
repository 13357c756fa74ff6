import Mathlib.NumberTheory.Basic
import SellingInformation.Lib.TwoPrimes

/-!
# Residues that carry a number

Modulo the square of `n` the powers of `1 + n` are linear in their exponent, and
the `n`-th powers of units vanish under the order of the units modulo `n`.  A
residue `c = (1 + n) ^ m * r ^ n` therefore carries `m` modulo `n`:

* `cipher_mul`, `cipher_pow`, `cipher_congr` — how the draw `r` travels through products
  and powers, and that only its residue modulo `n` counts;
* `Carries.mul`, `Carries.pow`, `Carries.prod` — the product of residues carries the
  sum, and a power the multiple;
* `Carries.isCoprime` — such a residue is a unit;
* `Carries.pow_eq` — for `n = p * q`, its power to `(p - 1) * (q - 1)` is
  `1 + n * x` with `x` the multiple of `m` by that exponent, reduced modulo `n`.
-/

namespace Homomorphic

/-- `1 + k * n` to a power, modulo `n * n`. -/
theorem one_add_mul_pow (n k : ℤ) (e : ℕ) :
    (1 + k * n) ^ e ≡ 1 + e * (k * n) [ZMOD n * n] := by
  induction e with
  | zero => simp
  | succ e ih =>
    have hstep : (1 + e * (k * n)) * (1 + k * n) ≡ 1 + ((e + 1 : ℕ) : ℤ) * (k * n) [ZMOD n * n] := by
      refine Int.modEq_iff_dvd.2 ⟨-(e * k * k), ?_⟩
      push_cast
      ring
    rw [pow_succ]
    exact (ih.mul_right _).trans hstep

/-! ## With a draw -/

/-- The number that carries `m` with the draw `r`. -/
def cipher (n m : ℕ) (r : ℤ) : ℤ := (1 + n) ^ m * r ^ n

theorem cipher_mul (n m m' : ℕ) (r r' : ℤ) :
    cipher n m r * cipher n m' r' = cipher n (m + m') (r * r') := by
  unfold cipher
  rw [pow_add, mul_pow]
  ring

theorem cipher_pow (n m : ℕ) (r : ℤ) (t : ℕ) : cipher n m r ^ t = cipher n (t * m) (r ^ t) := by
  unfold cipher
  rw [mul_pow, ← pow_mul, ← pow_mul, ← pow_mul, Nat.mul_comm m, Nat.mul_comm n]

/-- Modulo the square of `n`, only the residue of the draw modulo `n` counts. -/
theorem cipher_congr {n m : ℕ} {r r' : ℤ} (h : r ≡ r' [ZMOD n]) :
    cipher n m r ≡ cipher n m r' [ZMOD n * n] := by
  have hpow : r ^ n ≡ r' ^ n [ZMOD n * n] := by
    have hdvd := dvd_sub_pow_of_dvd_sub h.symm.dvd 1
    rw [pow_one, pow_two] at hdvd
    exact (Int.modEq_iff_dvd.2 hdvd).symm
  exact hpow.mul_left _

/-! ## With some draw -/

/-- The residue `c` carries `m`. -/
def Carries (n : ℕ) (c : ℤ) (m : ℕ) : Prop :=
  ∃ r : ℤ, IsCoprime r (n : ℤ) ∧ c ≡ (1 + n) ^ m * r ^ n [ZMOD n * n]

namespace Carries

variable {n m m' : ℕ} {c c' : ℤ}

theorem of_modEq (h : Carries n c m) (hc : c' ≡ c [ZMOD n * n]) : Carries n c' m := by
  obtain ⟨r, hr, hmod⟩ := h
  exact ⟨r, hr, hc.trans hmod⟩

/-- Products carry sums. -/
theorem mul (h : Carries n c m) (h' : Carries n c' m') : Carries n (c * c') (m + m') := by
  obtain ⟨r, hr, hmod⟩ := h
  obtain ⟨r', hr', hmod'⟩ := h'
  refine ⟨r * r', hr.mul_left hr', ?_⟩
  have hsplit := cipher_mul n m m' r r'
  unfold cipher at hsplit
  rw [← hsplit]
  exact hmod.mul hmod'

/-- Powers carry multiples. -/
theorem pow (h : Carries n c m) (t : ℕ) : Carries n (c ^ t) (t * m) := by
  obtain ⟨r, hr, hmod⟩ := h
  refine ⟨r ^ t, hr.pow_left, ?_⟩
  have hsplit := cipher_pow n m r t
  unfold cipher at hsplit
  rw [← hsplit]
  exact hmod.pow t

/-- The product of a list of residues carries the sum. -/
theorem prod {α : Type} {l : List α} {c : α → ℤ} {m : α → ℕ}
    (h : ∀ a ∈ l, Carries n (c a) (m a)) : Carries n (l.map c).prod (l.map m).sum := by
  induction l with
  | nil => exact ⟨1, isCoprime_one_left, by simp⟩
  | cons a l ih =>
    rw [List.map_cons, List.prod_cons, List.map_cons, List.sum_cons]
    exact (h a List.mem_cons_self).mul (ih fun b hb => h b (List.mem_cons_of_mem _ hb))

theorem isCoprime (h : Carries n c m) : IsCoprime c (n : ℤ) := by
  obtain ⟨r, hr, hmod⟩ := h
  have h1 : IsCoprime ((1 : ℤ) + n) n := ⟨1, -1, by ring⟩
  have hprod : IsCoprime (((1 : ℤ) + n) ^ m * r ^ n) n := (h1.pow_left).mul_left hr.pow_left
  have hmodn : c ≡ (1 + n) ^ m * r ^ n [ZMOD n] := hmod.of_mul_left _
  rw [Int.isCoprime_iff_gcd_eq_one] at hprod ⊢
  rw [← Int.gcd_emod c, hmodn.eq, Int.gcd_emod, hprod]

/-- The `n`-th power of a unit modulo `p * q` has an order dividing `(p - 1) * (q - 1)`,
also modulo the square. -/
theorem unit_pow {p q : ℕ} (hp : p.Prime) (hq : q.Prime) (hpq : p ≠ q) {r : ℤ}
    (hr : IsCoprime r (p * q : ℤ)) :
    (r ^ (p * q)) ^ ((p - 1) * (q - 1)) ≡ 1 [ZMOD (p * q : ℤ) * (p * q)] := by
  obtain ⟨k, hk⟩ := (TwoPrimes.pow_modEq_one hp hq hpq hr).symm.dvd
  have hpow : r ^ ((p - 1) * (q - 1)) = 1 + k * (p * q) := by
    linear_combination hk
  rw [← pow_mul, Nat.mul_comm, pow_mul, hpow]
  refine (one_add_mul_pow _ k (p * q)).trans (Int.modEq_iff_dvd.2 ⟨-k, ?_⟩)
  push_cast
  ring

/-- What decryption computes before it divides by `n`. -/
theorem pow_eq {p q : ℕ} (hp : p.Prime) (hq : q.Prime) (hpq : p ≠ q) (h : Carries (p * q) c m) :
    c ^ ((p - 1) * (q - 1)) % ((p * q : ℤ) * (p * q)) =
      1 + (p * q) * (m * ((p - 1) * (q - 1) : ℕ) % (p * q)) := by
  obtain ⟨r, hr, hmod⟩ := h
  push_cast at hr hmod
  set n : ℤ := p * q with hn
  have hn2 : 2 ≤ n := by
    have h4 : 2 * 2 ≤ p * q := Nat.mul_le_mul hp.two_le hq.two_le
    have : (4 : ℤ) ≤ p * q := by exact_mod_cast h4
    omega
  set e := (p - 1) * (q - 1) with he
  have hlin : c ^ e ≡ 1 + n * (m * e) [ZMOD n * n] := by
    have h1 : (1 + n) ^ (m * e) ≡ 1 + n * (m * e) [ZMOD n * n] := by
      have := one_add_mul_pow n 1 (m * e)
      push_cast at this
      rwa [one_mul, mul_comm ((m : ℤ) * e)] at this
    have h2 : ((1 + n) ^ m * r ^ (p * q)) ^ e ≡ 1 + n * (m * e) [ZMOD n * n] := by
      rw [mul_pow, ← pow_mul]
      simpa using h1.mul (unit_pow hp hq hpq hr)
    exact (hmod.pow e).trans h2
  have hred : 1 + n * (m * e) ≡ 1 + n * ((m * e : ℤ) % n) [ZMOD n * n] := by
    have := Int.emod_add_mul_ediv (m * e : ℤ) n
    refine Int.modEq_iff_dvd.2 ⟨-((m * e : ℤ) / n), ?_⟩
    linear_combination n * this
  have hx0 := Int.emod_nonneg (m * e : ℤ) (by omega : n ≠ 0)
  have hxn := Int.emod_lt_of_pos (m * e : ℤ) (by omega : 0 < n)
  have hlt : 1 + n * ((m * e : ℤ) % n) < n * n := by
    nlinarith
  have hnn : 0 ≤ 1 + n * ((m * e : ℤ) % n) := by positivity
  rw [(hlin.trans hred).eq, Int.emod_eq_of_lt hnn hlt]

end Carries

end Homomorphic
