import Mathlib.GroupTheory.OrderOfElement

/-!
# Finding an order by dividing out factors

An exponent `r` with `x ^ r = 1` is a multiple of the order of `x`.  A search for
the order starts from such an exponent and divides factors out of it as long as the
power stays one; `Exhausted x q r` says that this is over for the factor `q`.

* `Exhausted.of_dvd` — what is exhausted stays so when other factors are divided out;
* `exhausted_of_sq_not_dvd` — a prime of the order that is in `r` only once;
* `orderOf_eq_of_exhausted` — when all primes of `r` are exhausted, `r` is the order.
-/

namespace Order

variable {M : Type*} [Monoid M] {x : M} {q r r' : ℕ}

/-- `q` cannot be divided out of the exponent `r`. -/
def Exhausted (x : M) (q r : ℕ) : Prop := q ∣ r → x ^ (r / q) ≠ 1

theorem exhausted_of_not_dvd (h : ¬ q ∣ r) : Exhausted x q r := fun hqr => absurd hqr h

theorem Exhausted.of_dvd (h : Exhausted x q r') (hr : r ∣ r') : Exhausted x q r := by
  intro hqr hone
  obtain ⟨k, rfl⟩ := hr
  have hquot : r * k / q = r / q * k := by
    rw [mul_comm, Nat.mul_div_assoc _ hqr, mul_comm]
  refine h (hqr.mul_right k) ?_
  rw [hquot, pow_mul, hone, one_pow]

/-- Dividing out a prime of the order twice is not possible. -/
theorem exhausted_of_sq_not_dvd (hq : q ∣ orderOf x) (hsq : ¬ q * q ∣ r) : Exhausted x q r := by
  intro hqr hone
  have hquot : q ∣ r / q := hq.trans (orderOf_dvd_of_pow_eq_one hone)
  exact hsq (Nat.mul_dvd_of_dvd_div hqr hquot)

/-- An exponent none of whose primes can be divided out is the order. -/
theorem orderOf_eq_of_exhausted (hr : 0 < r) (hx : x ^ r = 1)
    (h : ∀ q, q.Prime → q ∣ r → Exhausted x q r) : orderOf x = r :=
  orderOf_eq_of_pow_and_pow_div_prime hr hx fun q hq hqr => h q hq hqr hqr

end Order
