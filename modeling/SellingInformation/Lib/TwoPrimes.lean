import Mathlib.Data.Int.ModEq
import Mathlib.RingTheory.Int.Basic
import Mathlib.FieldTheory.Finite.Basic
import Mathlib.GroupTheory.OrderOfElement
import Mathlib.Algebra.Field.ZMod
import Mathlib.Tactic.Ring
import Mathlib.Tactic.LinearCombination

/-!
# Arithmetic modulo a product of two primes

General facts about `ℤ` modulo `n = p * q`, stated with `Int.ModEq` so that they
apply to programs that reduce with `%`:

* **exponents** — `pow_modEq_pow`: a base coprime to `n` only sees its
  exponent modulo `(p - 1) * (q - 1)`;
* **roots of order a power of two** — `modEq_of_pow_two_pow`: among the `M`-th
  powers, with `M` divisible by a large power of two, `2 ^ l`-th roots are
  unique.  The argument is in the cyclic group of each prime, and zero is its
  own case;
* **square roots** — `modEq_or_modEq_neg_of_sq`: two of them modulo a prime;
  `SquareRoots.complete`: up to sign two modulo `n`, and `SquareRoots.coincide_of_dvd`,
  `SquareRoots.dvd_of_coincide` say when these are one;
* **factoring** — `gcd_eq_of_sq_modEq`: two square roots of one number that are
  neither equal nor opposite split `n`;
* **iterated squaring** — `iterate_sq_eq`.
-/

namespace TwoPrimes

/-! ## Chinese remaindering of congruences -/

section
variable {p q : ℕ}

theorem coprime_of_ne (hp : p.Prime) (hq : q.Prime) (hpq : p ≠ q) :
    (p : ℤ).natAbs.Coprime (q : ℤ).natAbs := by
  simpa using (Nat.coprime_primes hp hq).2 hpq

theorem cast_mul_ne_zero (hp : p.Prime) (hq : q.Prime) : (p * q : ℤ) ≠ 0 :=
  mul_ne_zero (Nat.cast_ne_zero.2 hp.ne_zero) (Nat.cast_ne_zero.2 hq.ne_zero)

/-- Congruence modulo both primes is congruence modulo the product. -/
theorem modEq_mul_iff (hp : p.Prime) (hq : q.Prime) (hpq : p ≠ q) {a b : ℤ} :
    a ≡ b [ZMOD p * q] ↔ a ≡ b [ZMOD p] ∧ a ≡ b [ZMOD q] :=
  (Int.modEq_and_modEq_iff_modEq_mul (coprime_of_ne hp hq hpq)).symm

theorem dvd_mul_iff (hp : p.Prime) (hq : q.Prime) (hpq : p ≠ q) {a : ℤ} :
    (p * q : ℤ) ∣ a ↔ (p : ℤ) ∣ a ∧ (q : ℤ) ∣ a := by
  have h := modEq_mul_iff hp hq hpq (a := 0) (b := a)
  simpa [Int.modEq_iff_dvd] using h

/-! ## Exponents -/

/-- **Euler's theorem for two primes.** -/
theorem pow_modEq_one (hp : p.Prime) (hq : q.Prime) (hpq : p ≠ q) {g : ℤ}
    (hg : IsCoprime g (p * q : ℤ)) : g ^ ((p - 1) * (q - 1)) ≡ 1 [ZMOD p * q] := by
  have h1 : g ^ (p - 1) ≡ 1 [ZMOD p] :=
    Int.ModEq.pow_card_sub_one_eq_one hp hg.of_mul_right_left
  have h2 : g ^ (q - 1) ≡ 1 [ZMOD q] :=
    Int.ModEq.pow_card_sub_one_eq_one hq hg.of_mul_right_right
  refine (modEq_mul_iff hp hq hpq).2 ⟨?_, ?_⟩
  · rw [pow_mul]
    simpa using h1.pow (q - 1)
  · rw [mul_comm, pow_mul]
    simpa using h2.pow (p - 1)

end

/-- If `g ^ d` is one, exponents of `g` count modulo `d`. -/
theorem pow_modEq_pow {n g : ℤ} {d a b : ℕ} (hd : g ^ d ≡ 1 [ZMOD n]) (hab : a ≡ b [MOD d]) :
    g ^ a ≡ g ^ b [ZMOD n] := by
  have key : ∀ e : ℕ, g ^ e ≡ g ^ (e % d) [ZMOD n] := by
    intro e
    have h : g ^ (d * (e / d)) ≡ 1 [ZMOD n] := by
      rw [pow_mul]
      simpa using hd.pow (e / d)
    calc g ^ e = g ^ (d * (e / d)) * g ^ (e % d) := by rw [← pow_add, Nat.div_add_mod]
      _ ≡ 1 * g ^ (e % d) [ZMOD n] := h.mul_right _
      _ = g ^ (e % d) := one_mul _
  calc g ^ a ≡ g ^ (a % d) [ZMOD n] := key a
    _ = g ^ (b % d) := by rw [hab]
    _ ≡ g ^ b [ZMOD n] := (key b).symm

/-! ## Roots of order a power of two -/

/-- In the group of units of a prime field, an `M`-th power with `2 ^ k ∣ M` and
`p - 1 < 2 ^ k` has odd order, so it is one as soon as a `2 ^ l`-th power of it is. -/
theorem pow_eq_one_of_pow_two_pow {p : ℕ} [Fact p.Prime] {k M l : ℕ} (hk : p - 1 < 2 ^ k)
    (hM : 2 ^ k ∣ M) {t : ZMod p} (ht : t ≠ 0) (h : (t ^ M) ^ 2 ^ l = 1) : t ^ M = 1 := by
  have hp1 : p - 1 ≠ 0 := by
    have := (Fact.out : p.Prime).two_le
    omega
  obtain ⟨a, o, ho, hao⟩ := Nat.exists_eq_two_pow_mul_odd hp1
  have hak : a < k := by
    have hle : 2 ^ a ≤ p - 1 := by
      rw [hao]
      exact Nat.le_mul_of_pos_right _ ho.pos
    exact (Nat.pow_lt_pow_iff_right (by norm_num)).1 (lt_of_le_of_lt hle hk)
  have hodd : (t ^ M) ^ o = 1 := by
    have hdvd : p - 1 ∣ M * o := by
      rw [hao]
      exact Nat.mul_dvd_mul ((Nat.pow_dvd_pow 2 hak.le).trans hM) dvd_rfl
    obtain ⟨c, hc⟩ := hdvd
    rw [← pow_mul, hc, pow_mul, ZMod.pow_card_sub_one_eq_one ht, one_pow]
  have hgcd : (2 ^ l).gcd o = 1 :=
    Nat.Coprime.pow_left l (Nat.coprime_two_left.2 ho)
  have := pow_gcd_eq_one.2 ⟨h, hodd⟩
  rwa [hgcd, pow_one] at this

/-- Two `M`-th powers of a prime field with one `2 ^ l`-th power are equal: zero
is its own case, and the quotient of two units has odd order. -/
theorem pow_eq_of_pow_two_pow {p : ℕ} [Fact p.Prime] {k M l : ℕ} (hk : p - 1 < 2 ^ k)
    (hM : 2 ^ k ∣ M) {x y : ZMod p} (h : (x ^ M) ^ 2 ^ l = (y ^ M) ^ 2 ^ l) :
    x ^ M = y ^ M := by
  have hl : 2 ^ l ≠ 0 := by positivity
  by_cases hy0 : y ^ M = 0
  · rw [hy0, zero_pow hl] at h
    rw [hy0]
    exact eq_zero_of_pow_eq_zero h
  by_cases hx0 : x ^ M = 0
  · rw [hx0, zero_pow hl] at h
    exact absurd (eq_zero_of_pow_eq_zero h.symm) hy0
  by_cases hM0 : M = 0
  · rw [hM0, pow_zero, pow_zero]
  have hx : x ≠ 0 := fun hc => hx0 (by rw [hc, zero_pow hM0])
  have hy : y ≠ 0 := fun hc => hy0 (by rw [hc, zero_pow hM0])
  have hdiv : ((x / y) ^ M) ^ 2 ^ l = 1 := by
    rw [div_pow, div_pow, h, div_self (pow_ne_zero _ hy0)]
  have hone : (x / y) ^ M = 1 := pow_eq_one_of_pow_two_pow hk hM (div_ne_zero hx hy) hdiv
  rw [div_pow, div_eq_one_iff_eq hy0] at hone
  exact hone

/-- **Uniqueness of roots among high powers**, modulo a product of two primes. -/
theorem modEq_of_pow_two_pow {p q k M l : ℕ} (hp : p.Prime) (hq : q.Prime) (hpq : p ≠ q)
    (hpk : p < 2 ^ k) (hqk : q < 2 ^ k) (hM : 2 ^ k ∣ M) {x y : ℤ}
    (h : (x ^ M) ^ 2 ^ l ≡ (y ^ M) ^ 2 ^ l [ZMOD p * q]) : x ^ M ≡ y ^ M [ZMOD p * q] := by
  have key : ∀ r : ℕ, r.Prime → r < 2 ^ k → (x ^ M) ^ 2 ^ l ≡ (y ^ M) ^ 2 ^ l [ZMOD r] →
      x ^ M ≡ y ^ M [ZMOD r] := by
    intro r hr hrk hmod
    have : Fact r.Prime := ⟨hr⟩
    have hcast := (ZMod.intCast_eq_intCast_iff _ _ r).2 hmod
    push_cast at hcast
    have := pow_eq_of_pow_two_pow (k := k) (by omega) hM hcast
    exact (ZMod.intCast_eq_intCast_iff _ _ r).1 (by push_cast; exact this)
  obtain ⟨h1, h2⟩ := (modEq_mul_iff hp hq hpq).1 h
  exact (modEq_mul_iff hp hq hpq).2 ⟨key p hp hpk h1, key q hq hqk h2⟩

/-- Squaring is injective on the powers of a base of odd order. -/
theorem pow_modEq_pow_of_odd {n g : ℤ} {o : ℕ} (ho : Odd o) (hg : g ^ o ≡ 1 [ZMOD n]) {a b k : ℕ}
    (h : g ^ (a * 2 ^ k) ≡ g ^ (b * 2 ^ k) [ZMOD n]) : g ^ a ≡ g ^ b [ZMOD n] := by
  obtain ⟨t, rfl⟩ := ho
  -- `t + 1` is the inverse of two modulo the order
  have hhalf : 2 ^ k * (t + 1) ^ k ≡ 1 [MOD 2 * t + 1] := by
    have htwo : 2 * (t + 1) ≡ 1 [MOD 2 * t + 1] := by
      rw [show 2 * (t + 1) = 1 + (2 * t + 1) by ring]
      exact Nat.add_modEq_right
    rw [← mul_pow]
    simpa using htwo.pow k
  have key : ∀ e : ℕ, g ^ e ≡ (g ^ (e * 2 ^ k)) ^ (t + 1) ^ k [ZMOD n] := by
    intro e
    rw [← pow_mul, mul_assoc]
    exact pow_modEq_pow hg (by simpa using (hhalf.mul_left e).symm)
  exact (key a).trans ((h.pow _).trans (key b).symm)

/-! ## Square roots and factoring -/

/-- Modulo a prime, a number has at most two square roots, opposite to each other. -/
theorem modEq_or_modEq_neg_of_sq {p : ℕ} (hp : p.Prime) {x y : ℤ}
    (h : x * x ≡ y * y [ZMOD p]) : x ≡ y [ZMOD p] ∨ x ≡ -y [ZMOD p] := by
  have hd : (p : ℤ) ∣ (y - x) * (y + x) := by
    have := h.dvd
    rwa [show y * y - x * x = (y - x) * (y + x) by ring] at this
  rcases Int.Prime.dvd_mul' hp hd with h1 | h1
  · exact Or.inl (Int.modEq_iff_dvd.2 h1)
  · refine Or.inr (Int.modEq_iff_dvd.2 ?_)
    have := Int.dvd_neg.2 h1
    rwa [show -(y + x) = -y - x by ring] at this

/-- A square root of a number is divisible by the primes that divide the number. -/
theorem dvd_iff_of_sq {p : ℕ} (hp : p.Prime) {x a : ℤ} (h : x * x ≡ a [ZMOD p]) :
    (p : ℤ) ∣ x ↔ (p : ℤ) ∣ a := by
  rw [← h.dvd_iff]
  constructor
  · intro hx
    exact dvd_mul_of_dvd_left hx x
  · intro hxx
    exact (Int.Prime.dvd_mul' hp hxx).elim id id

theorem modEq_neg_self_of_dvd {p : ℕ} {x : ℤ} (h : (p : ℤ) ∣ x) : x ≡ -x [ZMOD p] :=
  (Int.modEq_zero_iff_dvd.2 h).trans (Int.modEq_zero_iff_dvd.2 (Int.dvd_neg.2 h)).symm

/-- Modulo an odd prime, only zero is its own opposite. -/
theorem dvd_of_modEq_neg_self {p : ℕ} (hp : p.Prime) (hp2 : p ≠ 2) {x : ℤ}
    (h : x ≡ -x [ZMOD p]) : (p : ℤ) ∣ x := by
  have htwo : (p : ℤ) ∣ 2 * x := by
    have := h.symm.dvd
    rwa [sub_neg_eq_add, ← two_mul] at this
  rcases Int.Prime.dvd_mul' hp htwo with h2 | hx
  · exact absurd ((Nat.prime_dvd_prime_iff_eq hp Nat.prime_two).1 (by exact_mod_cast h2)) hp2
  · exact hx

section
variable {p q : ℕ}

/-- `A` and `B` are square roots of `a` modulo `p * q`, opposite modulo `p` and equal modulo `q`. -/
structure SquareRoots (p q : ℕ) (a A B : ℤ) : Prop where
  left_sq : A * A ≡ a [ZMOD p * q]
  right_sq : B * B ≡ a [ZMOD p * q]
  opposite : B ≡ -A [ZMOD p]
  agree : B ≡ A [ZMOD q]

namespace SquareRoots

variable {a A B : ℤ}

/-- The two roots that come from a root `x` modulo `p` and a root `y` modulo `q`. -/
theorem of_residues (hp : p.Prime) (hq : q.Prime) (hpq : p ≠ q) {x y : ℤ}
    (hx : x * x ≡ a [ZMOD p]) (hy : y * y ≡ a [ZMOD q]) (hAp : A ≡ x [ZMOD p])
    (hAq : A ≡ y [ZMOD q]) (hBp : B ≡ -x [ZMOD p]) (hBq : B ≡ y [ZMOD q]) :
    SquareRoots p q a A B := by
  have hneg : -x * -x ≡ a [ZMOD p] := by rwa [neg_mul_neg]
  exact {
    left_sq := (modEq_mul_iff hp hq hpq).2 ⟨(hAp.mul hAp).trans hx, (hAq.mul hAq).trans hy⟩
    right_sq := (modEq_mul_iff hp hq hpq).2 ⟨(hBp.mul hBp).trans hneg, (hBq.mul hBq).trans hy⟩
    opposite := hBp.trans hAp.neg.symm
    agree := hBq.trans hAq.symm }

/-- **Completeness.**  Every square root is one of the two, up to its sign. -/
theorem complete (h : SquareRoots p q a A B) (hp : p.Prime) (hq : q.Prime) (hpq : p ≠ q) {z : ℤ}
    (hz : z * z ≡ a [ZMOD p * q]) : (z ≡ A [ZMOD p * q] ∨ z ≡ -A [ZMOD p * q]) ∨
      (z ≡ B [ZMOD p * q] ∨ z ≡ -B [ZMOD p * q]) := by
  have hsq := hz.trans h.left_sq.symm
  obtain ⟨hsqp, hsqq⟩ := (modEq_mul_iff hp hq hpq).1 hsq
  have hnegp : -B ≡ A [ZMOD p] := by simpa using h.opposite.neg
  -- the four combinations of signs modulo the two primes
  rcases modEq_or_modEq_neg_of_sq hp hsqp with hzp | hzp <;>
    rcases modEq_or_modEq_neg_of_sq hq hsqq with hzq | hzq
  · exact Or.inl (Or.inl ((modEq_mul_iff hp hq hpq).2 ⟨hzp, hzq⟩))
  · exact Or.inr (Or.inr ((modEq_mul_iff hp hq hpq).2
      ⟨hzp.trans hnegp.symm, hzq.trans h.agree.neg.symm⟩))
  · exact Or.inr (Or.inl ((modEq_mul_iff hp hq hpq).2
      ⟨hzp.trans h.opposite.symm, hzq.trans h.agree.symm⟩))
  · exact Or.inl (Or.inr ((modEq_mul_iff hp hq hpq).2 ⟨hzp, hzq⟩))

/-- The two coincide up to sign where `a` shares a factor with `p * q`. -/
theorem coincide_of_dvd (h : SquareRoots p q a A B) (hp : p.Prime) (hq : q.Prime) (hpq : p ≠ q)
    (hdvd : (p : ℤ) ∣ a ∨ (q : ℤ) ∣ a) : A ≡ B [ZMOD p * q] ∨ A ≡ -B [ZMOD p * q] := by
  obtain ⟨hsqp, hsqq⟩ := (modEq_mul_iff hp hq hpq).1 h.left_sq
  rcases hdvd with hpa | hqa
  · have hself := modEq_neg_self_of_dvd ((dvd_iff_of_sq hp hsqp).2 hpa)
    exact Or.inl ((modEq_mul_iff hp hq hpq).2 ⟨hself.trans h.opposite.symm, h.agree.symm⟩)
  · have hself := modEq_neg_self_of_dvd ((dvd_iff_of_sq hq hsqq).2 hqa)
    exact Or.inr ((modEq_mul_iff hp hq hpq).2
      ⟨by simpa using h.opposite.neg.symm, hself.trans h.agree.neg.symm⟩)

/-- Modulo odd primes they coincide nowhere else. -/
theorem dvd_of_coincide (h : SquareRoots p q a A B) (hp : p.Prime) (hq : q.Prime) (hpq : p ≠ q)
    (hp2 : p ≠ 2) (hq2 : q ≠ 2) (hAB : A ≡ B [ZMOD p * q] ∨ A ≡ -B [ZMOD p * q]) :
    (p : ℤ) ∣ a ∨ (q : ℤ) ∣ a := by
  obtain ⟨hsqp, hsqq⟩ := (modEq_mul_iff hp hq hpq).1 h.left_sq
  rcases hAB with hAB | hAB
  · obtain ⟨hABp, -⟩ := (modEq_mul_iff hp hq hpq).1 hAB
    exact Or.inl ((dvd_iff_of_sq hp hsqp).1
      (dvd_of_modEq_neg_self hp hp2 (hABp.trans h.opposite)))
  · obtain ⟨-, hABq⟩ := (modEq_mul_iff hp hq hpq).1 hAB
    exact Or.inr ((dvd_iff_of_sq hq hsqq).1
      (dvd_of_modEq_neg_self hq hq2 (hABq.trans h.agree.neg)))

end SquareRoots

theorem gcd_mul_of_dvd_of_not_dvd (hp : p.Prime) (hq : q.Prime) (hpq : p ≠ q) {x : ℤ}
    (h1 : (p : ℤ) ∣ x) (h2 : ¬ (q : ℤ) ∣ x) : Int.gcd x (p * q) = p := by
  have hgcd : Int.gcd x (p * q) = x.natAbs.gcd (p * q) := by
    unfold Int.gcd
    rw [Int.natAbs_mul, Int.natAbs_natCast, Int.natAbs_natCast]
  have hx1 : x.natAbs.gcd p = p := Nat.gcd_eq_right (Int.natCast_dvd.1 h1)
  have hx2 : x.natAbs.gcd q = 1 :=
    ((Nat.Prime.coprime_iff_not_dvd hq).2 fun hc => h2 (Int.natCast_dvd.2 hc)).symm
  rw [hgcd, Nat.Coprime.gcd_mul _ ((Nat.coprime_primes hp hq).2 hpq), hx1, hx2, mul_one]

/-- **Factoring from two square roots.**  If `a` and `b` have the same square
modulo `n = p * q` and are neither equal nor opposite modulo `n`, then the
greatest common divisors of `a - b` and `a + b` with `n` are the two primes. -/
theorem gcd_eq_of_sq_modEq (hp : p.Prime) (hq : q.Prime) (hpq : p ≠ q) {a b : ℤ}
    (h : a * a ≡ b * b [ZMOD p * q]) (hsub : ¬ (p * q : ℤ) ∣ a - b)
    (hadd : ¬ (p * q : ℤ) ∣ a + b) :
    (Int.gcd (a - b) (p * q) = p ∧ Int.gcd (a + b) (p * q) = q) ∨
      (Int.gcd (a - b) (p * q) = q ∧ Int.gcd (a + b) (p * q) = p) := by
  obtain ⟨h1, h2⟩ := (modEq_mul_iff hp hq hpq).1 h
  have split : ∀ r : ℕ, r.Prime → a * a ≡ b * b [ZMOD r] → (r : ℤ) ∣ a - b ∨ (r : ℤ) ∣ a + b := by
    intro r hr hmod
    rcases modEq_or_modEq_neg_of_sq hr hmod with hc | hc
    · exact Or.inl hc.symm.dvd
    · exact Or.inr (by simpa using hc.symm.dvd)
  have hqp : q ≠ p := hpq.symm
  rcases split p hp h1 with hpa | hpa <;> rcases split q hq h2 with hqa | hqa
  · exact absurd ((dvd_mul_iff hp hq hpq).2 ⟨hpa, hqa⟩) hsub
  · left
    have hnq : ¬ (q : ℤ) ∣ a - b := fun hc => hsub ((dvd_mul_iff hp hq hpq).2 ⟨hpa, hc⟩)
    have hnp : ¬ (p : ℤ) ∣ a + b := fun hc => hadd ((dvd_mul_iff hp hq hpq).2 ⟨hc, hqa⟩)
    refine ⟨gcd_mul_of_dvd_of_not_dvd hp hq hpq hpa hnq, ?_⟩
    rw [mul_comm (p : ℤ) q]
    exact gcd_mul_of_dvd_of_not_dvd hq hp hqp hqa hnp
  · right
    have hnp : ¬ (p : ℤ) ∣ a - b := fun hc => hsub ((dvd_mul_iff hp hq hpq).2 ⟨hc, hqa⟩)
    have hnq : ¬ (q : ℤ) ∣ a + b := fun hc => hadd ((dvd_mul_iff hp hq hpq).2 ⟨hpa, hc⟩)
    refine ⟨?_, gcd_mul_of_dvd_of_not_dvd hp hq hpq hpa hnq⟩
    rw [mul_comm (p : ℤ) q]
    exact gcd_mul_of_dvd_of_not_dvd hq hp hqp hqa hnp
  · exact absurd ((dvd_mul_iff hp hq hpq).2 ⟨hpa, hqa⟩) hadd

end

/-! ## Iterated squaring -/

theorem iterate_sq_modEq (n v : ℤ) (k : ℕ) :
    (fun v => v * v % n)^[k] v ≡ v ^ 2 ^ k [ZMOD n] := by
  induction k with
  | zero => simp
  | succ k ih =>
    rw [Function.iterate_succ_apply', pow_succ 2 k, pow_mul]
    calc _ ≡ (fun v => v * v % n)^[k] v * (fun v => v * v % n)^[k] v [ZMOD n] := Int.mod_modEq _ _
      _ ≡ v ^ 2 ^ k * v ^ 2 ^ k [ZMOD n] := ih.mul ih
      _ = (v ^ 2 ^ k) ^ 2 := (sq _).symm

/-- Squaring a residue `k` times and reducing at every step raises it to the power `2 ^ k`. -/
theorem iterate_sq_eq {n v : ℤ} (hv : v % n = v) (k : ℕ) :
    (fun v => v * v % n)^[k] v = v ^ 2 ^ k % n := by
  have hred : (fun v => v * v % n)^[k] v % n = (fun v => v * v % n)^[k] v := by
    cases k with
    | zero => exact hv
    | succ k =>
      rw [Function.iterate_succ_apply']
      exact Int.emod_emod_of_dvd _ dvd_rfl
  rw [← hred]
  exact iterate_sq_modEq n v k

end TwoPrimes
