import SellingInformation.TimedCommitment.Honest

/-!
# The two forced openings

`force_open` squares the base `2 ^ K - l` times.  `force_open_smart` starts at
`W[K - 1]`, which is `2 ^ (K - 1)` squarings ahead, and counts `2 ^ (K - 1) - l` more.
For a message longer than `2 ^ (K - 1)` bits that count is negative, so nothing is
squared and the start is already past the value that opens the commitment.

* `getG_pow_odd` — the base of an honest commitment has odd order, so that a value
  with the right `2 ^ l`-th power is the right value;
* `openingsAgree_honest_iff` — the two openings agree when the squarings that are too
  many do not move the base.
-/

namespace SellingInformation.TimedCommitment

open CryptoPP Common Fallible

/-- Both forced openings return, with the same bits. -/
def OpeningsAgree (r : Receiver) : Prop :=
  ∃ bits, r.forceOpen = .ok bits ∧ r.forceOpenSmart = .ok bits

section
variable {p q : ℕ} {h : ℤ} {K : UInt32} {m : List Bool}

/-- For safe primes the odd part of `phi` kills the base. -/
theorem getG_pow_odd (hp : IsSafePrime p) (hq : IsSafePrime q) (hpq : p ≠ q)
    (hh : IsCoprime h (p * q : ℤ)) :
    ∃ o, Odd o ∧ getG (p * q) h ^ o ≡ 1 [ZMOD p * q] := by
  have hp4 := hp.mod_four
  have hq4 := hq.mod_four
  refine ⟨(p - 1) / 2 * ((q - 1) / 2), ?_, ?_⟩
  · have h1 : Odd ((p - 1) / 2) := Nat.odd_iff.2 (by omega)
    have h2 : Odd ((q - 1) / 2) := Nat.odd_iff.2 (by omega)
    exact h1.mul h2
  -- the exponent of the base brings the two factors two that are missing from `phi`
  have hfour : 4 ∣ mult.toNat := (Nat.pow_dvd_pow 2 (by decide : 2 ≤ BITS)).trans two_pow_dvd_mult
  obtain ⟨e, he⟩ := hfour
  have hexp : mult.toNat * ((p - 1) / 2 * ((q - 1) / 2)) = (p - 1) * (q - 1) * e := by
    have h1 : p - 1 = 2 * ((p - 1) / 2) := by omega
    have h2 : q - 1 = 2 * ((q - 1) / 2) := by omega
    calc mult.toNat * ((p - 1) / 2 * ((q - 1) / 2))
        = 2 * ((p - 1) / 2) * (2 * ((q - 1) / 2)) * e := by rw [he]; ring
      _ = (p - 1) * (q - 1) * e := by rw [← h1, ← h2]
  calc getG (p * q) h ^ ((p - 1) / 2 * ((q - 1) / 2))
      ≡ (h ^ mult.toNat) ^ ((p - 1) / 2 * ((q - 1) / 2)) [ZMOD p * q] := (Int.mod_modEq _ _).pow _
    _ = (h ^ ((p - 1) * (q - 1))) ^ e := by rw [← pow_mul, ← pow_mul, hexp]
    _ ≡ 1 ^ e [ZMOD p * q] := (TwoPrimes.pow_modEq_one hp.prime hq.prime hpq hh).pow e
    _ = 1 := one_pow e

/-- Two powers of the base pass the check of an opening only if they are equal. -/
theorem getG_modEq_of_pow (hp : IsSafePrime p) (hq : IsSafePrime q) (hpq : p ≠ q)
    (hh : IsCoprime h (p * q : ℤ)) {a b k : ℕ}
    (hpow : getG (p * q) h ^ (a * 2 ^ k) ≡ getG (p * q) h ^ (b * 2 ^ k) [ZMOD p * q]) :
    getG (p * q) h ^ a ≡ getG (p * q) h ^ b [ZMOD p * q] := by
  obtain ⟨o, ho, hone⟩ := getG_pow_odd hp hq hpq hh
  exact TwoPrimes.pow_modEq_pow_of_odd ho hone hpow

/-- The squarings that the shortcut makes too many must not move the base. -/
theorem openingsAgree_honest_iff (hp : IsSafePrime p) (hq : IsSafePrime q) (hpq : p ≠ q)
    (hK : 1 ≤ K.toNat) (hm : m.length ≤ 2 ^ K.toNat) (hh : IsCoprime h (p * q : ℤ))
    {r : Receiver} (hr : r.com = honestCom (p * q) h K m) : OpeningsAgree r ↔
      getG (p * q) h ^ 2 ^ ((UInt32.ofNat m.length).toNat - 2 ^ (K.toNat - 1)) ≡
        getG (p * q) h [ZMOD p * q] := by
  have hl := (length_unsigned_le m).trans hm
  have hn : (p * q : ℤ) ≠ 0 := TwoPrimes.cast_mul_ne_zero hp.prime hq.prime
  have hforce := forceOpen_honest hn hr hm
  have hsmart := forceOpenSmart_apply hr hK hm
  set l := (UInt32.ofNat m.length).toNat with hl_def
  set d := l - 2 ^ (K.toNat - 1) with hd
  constructor
  · rintro ⟨bits, -, hbits⟩
    rw [hsmart] at hbits
    obtain ⟨-, hu, -⟩ := Receiver.decodeChecked_eq_ok.1 hbits
    rw [hr] at hu
    have hpow : (getG (p * q) h ^ 2 ^ (2 ^ K.toNat - l + d)) ^ 2 ^ l ≡
        getG (p * q) h ^ 2 ^ 2 ^ K.toNat [ZMOD p * q] :=
      ((Int.mod_modEq _ _).pow _).symm.trans hu
    have hexp : 2 ^ (2 ^ K.toNat - l + d) * 2 ^ l = 2 ^ d * 2 ^ 2 ^ K.toNat := by
      rw [← pow_add, ← pow_add]
      congr 1
      omega
    rw [← pow_mul, hexp, ← Nat.one_mul (2 ^ 2 ^ K.toNat), ← Nat.mul_assoc, Nat.mul_one] at hpow
    simpa using getG_modEq_of_pow hp hq hpq hh hpow
  · intro hfix
    refine ⟨_, hforce, ?_⟩
    have hsecret : getG (p * q) h ^ 2 ^ (2 ^ K.toNat - l + d) % (p * q) =
        honestSecret (p * q) h K.toNat l := by
      rw [Nat.add_comm, pow_add, pow_mul]
      exact hfix.pow _
    rw [hsmart, hsecret]
    exact decodeChecked_honest hn hr hm

end

/-- **The two forced openings** of an honest commitment agree exactly when its length is
at most half of `2 ^ K`, or the squarings above half leave the base where it is. -/
theorem openingsAgree_iff {p q : ℕ} {c c' : Commiter} (hc : c.Honest p q) {K : UInt32}
    (hK : 1 ≤ K.toNat) {m : List Bool} (hm : m.length ≤ 2 ^ K.toNat) {h : ℤ}
    (hh : IsCoprime h (p * q : ℤ)) {com : Commitment}
    (hcommit : Commiter.commit K m h c = .ok com c') {r : Receiver} (hr : r.com = com) :
    OpeningsAgree r ↔ (UInt32.ofNat m.length).toNat ≤ 2 ^ (K.toNat - 1) ∨
      getG (p * q) h ^ 2 ^ ((UInt32.ofNat m.length).toNat - 2 ^ (K.toNat - 1)) ≡
        getG (p * q) h [ZMOD p * q] := by
  obtain ⟨rfl, -⟩ := commit_spec hc hh hcommit
  rw [openingsAgree_honest_iff hc.safe_p hc.safe_q hc.ne hK hm hh hr]
  constructor
  · exact Or.inr
  · rintro (hle | hfix)
    · rw [Nat.sub_eq_zero_of_le hle, pow_zero, pow_one]
    · exact hfix

/-! ## A commitment that only one of them opens -/

/-- The exponent of the base has no prime factor from `B` on. -/
theorem not_dvd_mult {r : ℕ} (hr : r.Prime) (hB : B ≤ r) : ¬ r ∣ mult.toNat := by
  rw [mult_eq_prod, Int.toNat_natCast]
  intro hdvd
  obtain ⟨a, ha, hra⟩ := (Prime.dvd_prod_iff hr.prime).1 hdvd
  obtain ⟨s, hs, rfl⟩ := List.mem_map.1 ha
  obtain ⟨hsB, hsp⟩ := mem_smallPrimes.1 hs
  have := (Nat.prime_dvd_prime_iff_eq hr hsp).1 (hr.dvd_of_dvd_pow hra)
  omega

theorem isSafePrime_twoHundredSixtyThree : IsSafePrime 263 := ⟨by norm_num, by norm_num, rfl⟩

/-- Modulo 263 the order of four is 131, which the exponent of the base does not contain. -/
theorem getG_four_ne_one : ¬ getG (263 * 7) 4 ≡ 1 [ZMOD 263 * 7] := by
  intro hone
  have : Fact (Nat.Prime 131) := ⟨by norm_num⟩
  have horder : orderOf (4 : ZMod 263) = 131 :=
    orderOf_eq_prime (by decide +kernel) (by decide)
  have hpow : (4 : ℤ) ^ mult.toNat ≡ 1 [ZMOD (263 : ℕ)] :=
    ((Int.mod_modEq _ _).symm.trans hone).of_mul_right 7
  have hcast := (ZMod.intCast_eq_intCast_iff _ _ _).2 hpow
  push_cast at hcast
  have hdvd := orderOf_dvd_of_pow_eq_one hcast
  rw [horder] at hdvd
  exact not_dvd_mult (by norm_num) (by decide) hdvd

theorem isCoprime_four : IsCoprime (4 : ℤ) ((263 : ℕ) * (7 : ℕ)) := ⟨-460, 1, by norm_num⟩

/-- `openingsAgree_iff` for one bit, which is at most half of two. -/
theorem openingsAgree_one_bit : ∃ com c', Commiter.commit 1 [true] 4 (Commiter.ofPrimes 263 7) =
    .ok com c' ∧ OpeningsAgree { Receiver.new with com } := by
  have hc := Commiter.honest_ofPrimes isSafePrime_twoHundredSixtyThree isSafePrime_seven (by decide)
  obtain ⟨order, -, -, hcommit⟩ :=
    commit_apply (K := 1) (m := [true]) hc (by decide) (by decide) isCoprime_four
  exact ⟨_, _, hcommit, (openingsAgree_iff hc (by decide) (by decide) isCoprime_four hcommit rfl).2
    (Or.inl (by decide))⟩

/-- Two bits with `K = 1` are committed to and accepted, and `force_open_smart` fails on them. -/
theorem not_openingsAgree_two_bits : ∃ com c' r',
    Commiter.commit 1 [true, true] 4 (Commiter.ofPrimes 263 7) = .ok com c' ∧
      Receiver.acceptCommitment com Receiver.new = .ok () r' ∧
      r'.forceOpen = .ok [true, true] ∧ ¬ OpeningsAgree r' := by
  have hp := isSafePrime_twoHundredSixtyThree
  have hq := isSafePrime_seven
  obtain ⟨order, -, -, hcommit⟩ := commit_apply (K := 1) (m := [true, true])
    (Commiter.honest_ofPrimes hp hq (by decide)) (by decide) (by decide) isCoprime_four
  have hm : [true, true].length ≤ 2 ^ (1 : UInt32).toNat := by decide
  refine ⟨_, _, _, hcommit, acceptCommitment_honest (by decide) (by decide) _,
    forceOpen_honest (by decide) rfl hm, ?_⟩
  rw [openingsAgree_honest_iff hp hq (by decide) (by decide) hm isCoprime_four rfl]
  intro hfix
  -- one squaring too many fixes the base only if the base is one
  have hfix' : getG (263 * 7) 4 ^ 2 ≡ getG (263 * 7) 4 [ZMOD 263 * 7] := hfix
  have hdvd : (263 * 7 : ℤ) ∣ getG (263 * 7) 4 * (1 - getG (263 * 7) 4) := by
    have := hfix'.dvd
    rwa [show ∀ g : ℤ, g - g ^ 2 = g * (1 - g) by intro g; ring] at this
  have hunit : IsCoprime (263 * 7 : ℤ) (getG (263 * 7) 4) := (isCoprime_getG isCoprime_four).symm
  exact getG_four_ne_one (Int.modEq_iff_dvd.2 (hunit.dvd_of_dvd_mul_left hdvd))

end SellingInformation.TimedCommitment
