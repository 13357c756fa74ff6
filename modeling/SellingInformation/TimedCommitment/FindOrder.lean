import Mathlib.Tactic.NormNum.Prime
import SellingInformation.Lib.Order
import SellingInformation.TimedCommitment.Opening

/-!
# The search for the order

`find_order` divides `q1`, `q2` and `2` out of `phi` as long as the base keeps power
one.  For `q1` it takes the prime `(p1 - 1) / 2`; for `q2` it takes `(p2 - 2) / 2`,
which is one less than the prime `(p2 - 1) / 2` and coprime to it.

* `divideOut_spec`, `findOrder_spec` — what the inner loop and the search end with;
* `findOrder_ok` — the search for the order of a unit always ends;
* `findsOrder_iff` — it ends with the order exactly when the base is neither `1` nor
  `-1` modulo `p2`: the prime `(p2 - 1) / 2` stays in the result.
-/

namespace SellingInformation.TimedCommitment

open CryptoPP Common Fallible Order

/-- What `gen_prime` returns: a safe prime congruent to three modulo four. -/
structure IsSafePrime (p : ℕ) : Prop where
  prime : p.Prime
  half_prime : ((p - 1) / 2).Prime
  mod_four : p % 4 = 3

theorem IsSafePrime.seven_le {p : ℕ} (h : IsSafePrime p) : 7 ≤ p := by
  have h2 := h.half_prime.two_le
  have h4 := h.mod_four
  omega

/-! ## The inner loop -/

theorem intCast_pow_eq_one_iff {n : ℕ} {g : ℤ} {e : ℕ} :
    (g : ZMod n) ^ e = 1 ↔ g ^ e ≡ 1 [ZMOD n] := by
  rw [← ZMod.intCast_eq_intCast_iff]
  push_cast
  rfl

theorem aExpBModC_eq_one_iff {n : ℕ} (hn : 1 < n) {g : ℤ} {e : ℕ} :
    aExpBModC g (e : ℤ) n = 1 ↔ (g : ZMod n) ^ e = 1 := by
  have hone : (1 : ℤ) % n = 1 := Int.emod_eq_of_lt zero_le_one (by exact_mod_cast hn)
  rw [intCast_pow_eq_one_iff, aExpBModC_natCast, Int.ModEq, hone]

/-- Dividing out a factor ends, and keeps an exponent that gives one. -/
theorem divideOut_spec {n : ℕ} (hn : 1 < n) {g : ℤ} {q : ℕ} (hq : 2 ≤ q) {fuel order : ℕ}
    (hpos : 0 < order) (hfuel : order < fuel) (hg : (g : ZMod n) ^ order = 1) :
    ∃ o i : ℕ, divideOut g n q fuel order = .ok (o : ℤ) ∧ order = o * q ^ i ∧
      (g : ZMod n) ^ o = 1 ∧ Exhausted (g : ZMod n) q o := by
  induction fuel generalizing order with
  | zero => omega
  | succ fuel ih =>
    have hq0 : (q : ℤ) ≠ 0 := by omega
    have hdvd : (order : ℤ) % q ≠ 0 ↔ ¬ q ∣ order := by
      rw [ne_eq, ← Int.dvd_iff_emod_eq_zero, Int.natCast_dvd_natCast]
    have hquot : (order : ℤ) / q = (order / q : ℕ) := by push_cast; rfl
    rw [divideOut, if_neg hq0, hquot]
    by_cases hmod : (order : ℤ) % q ≠ 0
    · rw [if_pos hmod]
      exact ⟨order, 0, rfl, by simp, hg, exhausted_of_not_dvd (hdvd.1 hmod)⟩
    rw [if_neg hmod]
    have hqo : q ∣ order := not_not.1 (hdvd.not.1 hmod)
    by_cases hone : aExpBModC g (order / q : ℕ) n = 1
    · rw [if_pos hone]
      have hlt : order / q < order := Nat.div_lt_self hpos (by omega)
      have hpos' : 0 < order / q := Nat.div_pos (Nat.le_of_dvd hpos hqo) (by omega)
      obtain ⟨o, i, ho, hmul, hgo, hex⟩ := ih hpos' (by omega) ((aExpBModC_eq_one_iff hn).1 hone)
      refine ⟨o, i + 1, ho, ?_, hgo, hex⟩
      rw [pow_succ, ← mul_assoc, ← hmul, Nat.div_mul_cancel hqo]
    · rw [if_neg hone]
      exact ⟨order, 0, rfl, by simp, hg, fun _ h => hone ((aExpBModC_eq_one_iff hn).2 h)⟩

/-! ## The whole search -/

section
variable {p q : ℕ} {g : ℤ}

/-- The exponent `phi`, as the committer computes it. -/
theorem phi_eq (hp : 1 ≤ p) (hq : 1 ≤ q) : ((p : ℤ) - 1) * (q - 1) = ((p - 1) * (q - 1) : ℕ) := by
  push_cast [Nat.cast_sub hp, Nat.cast_sub hq]
  ring

/-- For safe primes the three factors that are divided out are at least two, so the
search ends.  What is exhausted for `q1` stays so while the other factors are tried. -/
theorem findOrder_spec (hp : IsSafePrime p) (hq : IsSafePrime q) (hpq : p ≠ q)
    (hg : IsCoprime g (p * q : ℤ)) :
    ∃ r i j k : ℕ, findOrder p q g = .ok (r : ℤ) ∧
      (p - 1) * (q - 1) = r * 2 ^ k * ((q - 2) / 2) ^ j * ((p - 1) / 2) ^ i ∧
      (g : ZMod (p * q)) ^ r = 1 ∧ Exhausted (g : ZMod (p * q)) ((p - 1) / 2) r ∧
      Exhausted (g : ZMod (p * q)) 2 r := by
  have hp7 := hp.seven_le
  have hq7 := hq.seven_le
  have hn : 1 < p * q := by nlinarith
  have hphi0 : 0 < (p - 1) * (q - 1) := Nat.mul_pos (by omega) (by omega)
  have hphi : (g : ZMod (p * q)) ^ ((p - 1) * (q - 1)) = 1 := by
    rw [intCast_pow_eq_one_iff, Nat.cast_mul]
    exact TwoPrimes.pow_modEq_one hp.prime hq.prime hpq hg
  have hq1 : ((p : ℤ) - 1) / 2 = ((p - 1) / 2 : ℕ) := by omega
  have hq2 : ((q : ℤ) - 2) / 2 = ((q - 2) / 2 : ℕ) := by omega
  obtain ⟨o1, i, h1, hmul1, hone1, hex1⟩ := divideOut_spec hn (q := (p - 1) / 2) (by omega) hphi0
    (Nat.lt_succ_self _) hphi
  have hpos1 : 0 < o1 := Nat.pos_of_mul_pos_right (hmul1 ▸ hphi0)
  obtain ⟨o2, j, h2, hmul2, hone2, -⟩ := divideOut_spec hn (q := (q - 2) / 2) (by omega) hpos1
    (Nat.lt_succ_self _) hone1
  have hpos2 : 0 < o2 := Nat.pos_of_mul_pos_right (hmul2 ▸ hpos1)
  obtain ⟨o3, k, h3, hmul3, hone3, hex3⟩ := divideOut_spec hn le_rfl hpos2
    (Nat.lt_succ_self _) hone2
  refine ⟨o3, i, j, k, ?_, by rw [hmul1, hmul2, hmul3], hone3, hex1.of_dvd ?_, hex3⟩
  · simp only [findOrder, List.foldlM_cons, List.foldlM_nil, phi_eq hp.prime.one_le hq.prime.one_le,
      hq1, hq2, Int.toNat_natCast, ← Nat.cast_mul, h1, except_ok_bind, h2]
    rw [Nat.cast_ofNat.symm, h3]
    rfl
  · rw [hmul2, hmul3, mul_assoc]
    exact dvd_mul_right _ _

theorem findOrder_ok (hp : IsSafePrime p) (hq : IsSafePrime q) (hpq : p ≠ q)
    (hg : IsCoprime g (p * q : ℤ)) :
    ∃ o, findOrder p q g = .ok o ∧ 0 < o ∧ g ^ o.toNat ≡ 1 [ZMOD p * q] := by
  have hp7 := hp.seven_le
  have hq7 := hq.seven_le
  obtain ⟨r, i, j, k, hr, hmul, hone, -⟩ := findOrder_spec hp hq hpq hg
  have hphi0 : 0 < (p - 1) * (q - 1) := Nat.mul_pos (by omega) (by omega)
  have hpos : 0 < r := by
    rw [hmul, mul_assoc, mul_assoc] at hphi0
    exact Nat.pos_of_mul_pos_right hphi0
  refine ⟨r, hr, by exact_mod_cast hpos, ?_⟩
  rw [intCast_pow_eq_one_iff, Nat.cast_mul] at hone
  rwa [Int.toNat_natCast]

/-! ## Whether it is the order -/

/-- `find_order` returns the least positive exponent that takes `g` to one. -/
def FindsOrder (p1 p2 g : ℤ) : Prop :=
  ∃ e : ℕ, findOrder p1 p2 g = .ok (e : ℤ) ∧ 0 < e ∧ g ^ e ≡ 1 [ZMOD p1 * p2] ∧
    ∀ e', 0 < e' → g ^ e' ≡ 1 [ZMOD p1 * p2] → e ≤ e'

theorem findsOrder_iff_orderOf {r : ℕ} (hr : findOrder p q g = .ok (r : ℤ)) (hpos : 0 < r)
    (hone : (g : ZMod (p * q)) ^ r = 1) :
    FindsOrder p q g ↔ orderOf (g : ZMod (p * q)) = r := by
  have hpow : ∀ e : ℕ, g ^ e ≡ 1 [ZMOD p * q] ↔ (g : ZMod (p * q)) ^ e = 1 := by
    intro e
    rw [intCast_pow_eq_one_iff, Nat.cast_mul]
  unfold FindsOrder
  simp only [hpow, hr, Except.ok.injEq, Nat.cast_inj, exists_eq_left']
  have hdvd := orderOf_dvd_of_pow_eq_one hone
  constructor
  · rintro ⟨-, -, hleast⟩
    have hpos' : 0 < orderOf (g : ZMod (p * q)) := Nat.pos_of_dvd_of_pos hdvd hpos
    exact le_antisymm (Nat.le_of_dvd hpos hdvd) (hleast _ hpos' (pow_orderOf_eq_one _))
  · intro horder
    refine ⟨hpos, hone, fun e' he' h => ?_⟩
    rw [← horder]
    exact orderOf_le_of_pow_eq_one he' h

/-- The half of a safe prime is odd, and the order of the group of units is four times
the product of both halves. -/
theorem phi_eq_halves (hp : IsSafePrime p) (hq : IsSafePrime q) :
    (p - 1) * (q - 1) = 4 * ((p - 1) / 2) * ((q - 1) / 2) := by
  have hp4 := hp.mod_four
  have hq4 := hq.mod_four
  have h1 : p - 1 = 2 * ((p - 1) / 2) := by omega
  have h2 : q - 1 = 2 * ((q - 1) / 2) := by omega
  generalize (p - 1) / 2 = a at *
  generalize (q - 1) / 2 = b at *
  rw [h1, h2]
  ring

theorem halves_ne (hp : IsSafePrime p) (hq : IsSafePrime q) (hpq : p ≠ q) :
    (p - 1) / 2 ≠ (q - 1) / 2 := by
  have hp4 := hp.mod_four
  have hq4 := hq.mod_four
  omega

/-- The prime `(q - 1) / 2` does not divide four times the other half. -/
theorem half_not_dvd (hp : IsSafePrime p) (hq : IsSafePrime q) (hpq : p ≠ q) :
    ¬ (q - 1) / 2 ∣ 4 * ((p - 1) / 2) := by
  have hq4 := hq.mod_four
  intro h
  rcases hq.half_prime.dvd_mul.1 h with h | h
  · have htwo : (q - 1) / 2 ∣ 2 ^ 2 := h
    have := Nat.le_of_dvd two_pos (hq.half_prime.dvd_of_dvd_pow htwo)
    have := hq.seven_le
    omega
  · exact halves_ne hp hq hpq ((Nat.prime_dvd_prime_iff_eq hq.half_prime hp.half_prime).1 h).symm

/-- The prime `(q - 1) / 2` is in the order of `g` unless `g` is `1` or `-1` modulo `q`. -/
theorem half_dvd_orderOf_iff (hp : IsSafePrime p) (hq : IsSafePrime q) (hpq : p ≠ q)
    (hg : IsCoprime g (p * q : ℤ)) :
    (q - 1) / 2 ∣ orderOf (g : ZMod (p * q)) ↔ ¬ (g ≡ 1 [ZMOD q] ∨ g ≡ -1 [ZMOD q]) := by
  have hpow : ∀ e : ℕ, (g : ZMod (p * q)) ^ e = 1 ↔
      g ^ e ≡ 1 [ZMOD p] ∧ g ^ e ≡ 1 [ZMOD q] := by
    intro e
    rw [intCast_pow_eq_one_iff, Nat.cast_mul, TwoPrimes.modEq_mul_iff hp.prime hq.prime hpq]
  have hfermat : g ^ (p - 1) ≡ 1 [ZMOD p] :=
    Int.ModEq.pow_card_sub_one_eq_one hp.prime hg.of_mul_right_left
  have hfermat' : g ^ (q - 1) ≡ 1 [ZMOD q] :=
    Int.ModEq.pow_card_sub_one_eq_one hq.prime hg.of_mul_right_right
  have hp4 := hp.mod_four
  have hq4 := hq.mod_four
  rw [← not_iff_not, not_not]
  constructor
  · intro hnot
    have hcop : Nat.Coprime (orderOf (g : ZMod (p * q))) ((q - 1) / 2) :=
      ((Nat.Prime.coprime_iff_not_dvd hq.half_prime).2 hnot).symm
    have hphi : (g : ZMod (p * q)) ^ ((p - 1) * (q - 1)) = 1 := by
      rw [intCast_pow_eq_one_iff, Nat.cast_mul]
      exact TwoPrimes.pow_modEq_one hp.prime hq.prime hpq hg
    have hdvd : orderOf (g : ZMod (p * q)) ∣ 4 * ((p - 1) / 2) := by
      rw [← orderOf_dvd_iff_pow_eq_one, phi_eq_halves hp hq] at hphi
      exact hcop.dvd_of_dvd_mul_right hphi
    have hsmall : g ^ (4 * ((p - 1) / 2)) ≡ 1 [ZMOD q] :=
      ((hpow _).1 (orderOf_dvd_iff_pow_eq_one.1 hdvd)).2
    have hgcd : Nat.gcd (4 * ((p - 1) / 2)) (q - 1) = 2 := by
      have hb : Nat.Coprime (2 * ((p - 1) / 2)) ((q - 1) / 2) := by
        refine ((Nat.Prime.coprime_iff_not_dvd hq.half_prime).2 fun h => ?_).symm
        exact half_not_dvd hp hq hpq (h.trans ⟨2, by ring⟩)
      have h1 : 4 * ((p - 1) / 2) = 2 * (2 * ((p - 1) / 2)) := by ring
      have h2 : q - 1 = 2 * ((q - 1) / 2) := by omega
      rw [h1, h2, Nat.gcd_mul_left, hb]
    have hsq : g ^ 2 ≡ 1 [ZMOD q] := by
      rw [← intCast_pow_eq_one_iff] at hsmall hfermat' ⊢
      rw [← hgcd]
      exact pow_gcd_eq_one.2 ⟨hsmall, hfermat'⟩
    refine TwoPrimes.modEq_or_modEq_neg_of_sq hq.prime ?_
    rwa [← sq, one_mul]
  · intro hone hdvd
    have hsq : g ^ 2 ≡ 1 [ZMOD q] := by
      rcases hone with h | h
      · simpa using h.pow 2
      · simpa using h.pow 2
    have hpq' : g ^ (p - 1) ≡ 1 [ZMOD q] := by
      have hhalf : p - 1 = 2 * ((p - 1) / 2) := by omega
      rw [hhalf, pow_mul]
      simpa using hsq.pow ((p - 1) / 2)
    have hsmall : orderOf (g : ZMod (p * q)) ∣ p - 1 :=
      orderOf_dvd_of_pow_eq_one ((hpow _).2 ⟨hfermat, hpq'⟩)
    have hfour : p - 1 ∣ 4 * ((p - 1) / 2) := ⟨2, by omega⟩
    exact half_not_dvd hp hq hpq ((hdvd.trans hsmall).trans hfour)

/-- The search ends with the order of `g` exactly when `g` is neither one nor minus one
modulo the second prime. -/
theorem findsOrder_iff (hp : IsSafePrime p) (hq : IsSafePrime q) (hpq : p ≠ q)
    (hg : IsCoprime g (p * q : ℤ)) :
    (∃ o, findOrder p q g = .ok o) ∧
      (FindsOrder p q g ↔ ¬ (g ≡ 1 [ZMOD q] ∨ g ≡ -1 [ZMOD q])) := by
  have hp7 := hp.seven_le
  have hq7 := hq.seven_le
  have hq4 := hq.mod_four
  obtain ⟨r, i, j, k, hr, hmul, hone, hexp, hex2⟩ := findOrder_spec hp hq hpq hg
  have hphi0 : 0 < (p - 1) * (q - 1) := Nat.mul_pos (by omega) (by omega)
  have hdvd : r ∣ (p - 1) * (q - 1) := ⟨2 ^ k * ((q - 2) / 2) ^ j * ((p - 1) / 2) ^ i, by
    rw [hmul, mul_assoc, mul_assoc, mul_assoc]⟩
  have hpos : 0 < r := Nat.pos_of_dvd_of_pos hdvd hphi0
  refine ⟨⟨r, hr⟩, ?_⟩
  rw [findsOrder_iff_orderOf hr hpos hone, ← half_dvd_orderOf_iff hp hq hpq hg]
  constructor
  · -- nothing that is divided out of `phi` contains the prime `(q - 1) / 2`
    intro horder
    rw [horder]
    have hb : (q - 1) / 2 ∣ r * 2 ^ k * ((q - 2) / 2) ^ j * ((p - 1) / 2) ^ i := by
      rw [← hmul, phi_eq_halves hp hq]
      exact dvd_mul_left _ _
    have hpred : ¬ (q - 1) / 2 ∣ (q - 2) / 2 := fun h => by
      have := Nat.le_of_dvd (by omega) h
      omega
    have hnot := half_not_dvd hp hq hpq
    have hprime := hq.half_prime
    rw [hprime.dvd_mul, hprime.dvd_mul, hprime.dvd_mul] at hb
    rcases hb with ((hb | hb) | hb) | hb
    · exact hb
    · exact absurd ((hprime.dvd_of_dvd_pow hb).trans ⟨2 * ((p - 1) / 2), by ring⟩) hnot
    · exact absurd (hprime.dvd_of_dvd_pow hb) hpred
    · exact absurd ((hprime.dvd_of_dvd_pow hb).mul_left 4) hnot
  · intro hb
    have hsq : ¬ (q - 1) / 2 * ((q - 1) / 2) ∣ r := by
      intro h
      have hfour := h.trans hdvd
      rw [phi_eq_halves hp hq] at hfour
      exact half_not_dvd hp hq hpq (Nat.dvd_of_mul_dvd_mul_right hq.half_prime.pos hfour)
    refine orderOf_eq_of_exhausted hpos hone fun l hl hlr => ?_
    have hphi := hlr.trans hdvd
    rw [phi_eq_halves hp hq, hl.dvd_mul, hl.dvd_mul] at hphi
    rcases hphi with (hphi | hphi) | hphi
    · have htwo : l ∣ 2 ^ 2 := hphi
      rw [(Nat.prime_dvd_prime_iff_eq hl Nat.prime_two).1 (hl.dvd_of_dvd_pow htwo)]
      exact hex2
    · rw [(Nat.prime_dvd_prime_iff_eq hl hp.half_prime).1 hphi]
      exact hexp
    · rw [(Nat.prime_dvd_prime_iff_eq hl hq.half_prime).1 hphi]
      exact exhausted_of_sq_not_dvd hb hsq

end

theorem isSafePrime_seven : IsSafePrime 7 := ⟨by norm_num, by norm_num, rfl⟩

theorem isSafePrime_eleven : IsSafePrime 11 := ⟨by norm_num, by norm_num, rfl⟩

theorem findsOrder_two : FindsOrder (7 : ℕ) (11 : ℕ) 2 :=
  (findsOrder_iff isSafePrime_seven isSafePrime_eleven (by decide) ⟨39, -1, by norm_num⟩).2.2
    (by decide)

/-- `45` is one modulo `11` and of order six modulo `7`; the search returns `30`. -/
theorem not_findsOrder_fortyFive : ¬ FindsOrder 7 11 45 := by
  have hthirty : findOrder 7 11 45 = .ok ((30 : ℕ) : ℤ) := rfl
  rintro ⟨e, he, -, -, hleast⟩
  rw [hthirty, Except.ok.injEq, Nat.cast_inj] at he
  have hsix := hleast 6 (by decide) (by decide)
  omega

end SellingInformation.TimedCommitment
