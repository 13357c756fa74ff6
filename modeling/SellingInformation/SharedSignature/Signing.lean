import Mathlib.Algebra.Field.ZMod
import Mathlib.Data.ZMod.Basic
import Mathlib.Tactic.FieldSimp
import Mathlib.Tactic.Linarith
import Mathlib.Tactic.NormNum.Prime
import SellingInformation.SharedSignature.Basic

/-!
# Shared signatures verify

A run of the two parties, from fresh objects over any number of signatures.

* `parties_ok` — a key that the constructor can draw is long enough for `B`;
* `init_ok` — both sides arrive at the same public key;
* `Ready` — what holds between two signatures, and `sign_ok`, the step: from a
  ready state `exec` returns in a ready state, with a signature that verifies;
* `signatures_verify` — the same over a whole list of calls.

The equations between nonces, hash and key are checked in the field of residues
modulo the order of the curve; the sum under the encryption is bounded by the
cube of the order, so it never reaches the Paillier modulus.
-/

namespace SellingInformation.SharedSignature

open CryptoPP Common Fallible Homomorphic

/-! ## The size of the key -/

section
variable {Point : Type} [AddCommGroup Point] {ec : ECParameters Point} {p q : ℕ}

theorem n_lt_two_pow (ec : ECParameters Point) : ec.n < 2 ^ bitCount ec.n := by
  simpa using lt_two_pow_bitCount ec.n

theorem two_le_paillierBits : 2 ≤ S.paillierBits ec := by
  unfold S.paillierBits
  omega

/-- A Paillier modulus of the constructor exceeds twice the fourth power of the order. -/
theorem two_mul_pow_lt (hk : KeyPrimes (S.paillierBits ec) p q) :
    2 * ec.n * ec.n * ec.n * ec.n < p * q := by
  have hsq : ec.n * ec.n < 2 ^ (2 * bitCount ec.n) := by
    rw [two_mul, pow_add]
    exact Nat.mul_lt_mul'' (n_lt_two_pow ec) (n_lt_two_pow ec)
  have hbits : 2 ^ S.paillierBits ec = 2 ^ (2 * bitCount ec.n) * 8 := by
    unfold S.paillierBits
    rw [pow_add]
    norm_num
  have hp : ec.n * ec.n * 8 < p := by
    have := hk.le_p
    omega
  have hq : ec.n * ec.n * 8 < q := by
    have := hk.le_q
    omega
  have hprod : (ec.n * ec.n * 8) * (ec.n * ec.n * 8) < p * q := Nat.mul_lt_mul'' hp hq
  have hle : 2 * ec.n * ec.n * ec.n * ec.n ≤ (ec.n * ec.n * 8) * (ec.n * ec.n * 8) := by
    nlinarith
  omega

/-- Such a modulus exceeds the order. -/
theorem n_lt_modulus {N : ℕ} (hN : 2 * ec.n * ec.n * ec.n * ec.n < N) : ec.n < N := by
  have hn := ec.two_lt_n
  have hle : 2 * ec.n * 1 * 1 * 1 ≤ 2 * ec.n * ec.n * ec.n * ec.n := by gcongr <;> omega
  omega

/-- The order of the curve is odd. -/
theorem n_odd (ec : ECParameters Point) : ec.n % 2 = 1 := by
  rcases ec.n_prime.eq_two_or_odd with h2 | hodd
  · have := ec.two_lt_n
    omega
  · exact hodd

theorem one_lt_modulus (hk : KeyPrimes (S.paillierBits ec) p q) : 1 < p * q := by
  exact_mod_cast hk.one_lt

/-- `B` does not reject the key. -/
theorem parties_ok (hk : KeyPrimes (S.paillierBits ec) p q) :
    parties ec p q =
      .ok (S.new p q, B.ofPaillier (Paillier.ofKey ((p * q : ℕ) : ℤ) ((p * q : ℕ) + 1))) := by
  have hN := one_lt_modulus hk
  have hpub := Paillier.public_ofPrimes p q
  have hown : (S.new p q : S Point).paillier = Paillier.ofPrimes p q := rfl
  have hclient := Paillier.public_ofKey hpub
  rw [hpub.n_eq, hpub.g_eq] at hclient
  have hlong : ¬ (((p * q : ℕ) : ℤ) ≤ 2 * ec.n * ec.n * ec.n * ec.n) := by
    have hlt : ((2 * ec.n * ec.n * ec.n * ec.n : ℕ) : ℤ) < (p * q : ℕ) := by
      exact_mod_cast two_mul_pow_lt hk
    push_cast at hlt ⊢
    omega
  rw [parties, hown, hpub.getN hN, except_ok_bind, hpub.getG hN, except_ok_bind, B.new,
    hclient.getN hN, except_ok_bind, refuseIf_of_not hlong, except_ok_bind, except_ok_bind]

end

variable {Point : Type} [AddCommGroup Point] [DecidableEq Point]

/-! ## One signature -/

/-- One call: the hash to be signed and the draws. -/
structure Call where
  data : Bytes32
  ρ : SignRandom

namespace Call

section
variable {Point : Type} [AddCommGroup Point] (ec : ECParameters Point) (ds db : ℤ) (c : Call)

/-- The hash as a number. -/
def z : ℤ := ofBytes (c.data.toList.take (byteCount ec.n))

/-- The common nonce. -/
def K : Point := (c.ρ.ks * c.ρ.kb) • ec.G

/-- The first half of the signature. -/
def r : ℤ := ec.x (c.K ec) % ec.n

/-- The second half, before the smaller of two values is taken. -/
def s0 : ℤ := inverseMod (c.ρ.ks * c.ρ.kb) ec.n * (c.z ec + c.r ec * ds * db) % ec.n

/-- The multiple of the key share that `B` adds under the encryption. -/
def t : ℤ := aTimesBModC (aTimesBModC (inverseMod c.ρ.kb ec.n) (c.r ec) ec.n) db ec.n

/-- The number under the encryption that `B` sends. -/
def plain : ℤ := aTimesBModC (inverseMod c.ρ.kb ec.n) (c.z ec) ec.n + c.t ec db * ds + c.ρ.u * ec.n

/-- The draws are in their ranges, and the randomness of each encryption is coprime to the Paillier
modulus `N`, which the code does not check. -/
structure Drawn (N : ℕ) : Prop where
  ks : 1 ≤ c.ρ.ks ∧ c.ρ.ks ≤ ec.n - 1
  kb : 1 ≤ c.ρ.kb ∧ c.ρ.kb ≤ ec.n - 1
  u : 0 ≤ c.ρ.u ∧ c.ρ.u ≤ ec.n * ec.n - 1
  encDs : IsCoprime c.ρ.encDs (N : ℤ)
  encC1 : IsCoprime c.ρ.encC1 (N : ℤ)
  encU : IsCoprime c.ρ.encU (N : ℤ)

/-- The draws are in their ranges, the randomness of each encryption is coprime to the Paillier
modulus `N`, and the signature is not degenerate. -/
structure Regular (N : ℕ) : Prop where
  ks : 1 ≤ c.ρ.ks ∧ c.ρ.ks ≤ ec.n - 1
  kb : 1 ≤ c.ρ.kb ∧ c.ρ.kb ≤ ec.n - 1
  u : 0 ≤ c.ρ.u ∧ c.ρ.u ≤ ec.n * ec.n - 1
  encDs : IsCoprime c.ρ.encDs (N : ℤ)
  encC1 : IsCoprime c.ρ.encC1 (N : ℤ)
  encU : IsCoprime c.ρ.encU (N : ℤ)
  x_lt : ec.x (c.K ec) < ec.n
  r_ne : c.r ec ≠ 0
  sum_ne : (c.z ec + c.r ec * ds * db) % ec.n ≠ 0

end

end Call

/-- A call as a program: both sides set the hash and run `exec`. -/
def sign (ec : ECParameters Point) (c : Call) : Proc (S Point × B Point) Unit := do
  modify fun (s, b) => (s.setData c.data.toList, b.setData c.data.toList)
  exec ec c.ρ

/-- What a call leaves behind. -/
structure Signed (ec : ECParameters Point) (N : ℕ) (ds db : ℤ) (c : Call)
    (st : S Point × B Point) : Prop where
  r_eq : st.1.r = c.r ec
  s_eq : st.1.s = min (c.s0 ec ds db) (ec.n - c.s0 ec ds db)
  s_pos : 1 ≤ st.1.s
  s_le : st.1.s ≤ (ec.n - 1) / 2
  verified : verify ec st.1.Q c.data.toList st.1.r st.1.s = .ok true
  /-- The sum under the encryption is what was meant, and smaller than the modulus. -/
  dec_eq : st.1.paillier.dec st.2.cb = .ok (c.plain ec ds db)
  plain_lt : c.plain ec ds db < N

/-! ## The numbers of a signature -/

section
variable {Point : Type} [AddCommGroup Point] {ec : ECParameters Point} {N : ℕ} {ds db : ℤ} {c : Call}

theorem cast_ne_zero {n : ℕ} {k : ℤ} (h : 1 ≤ k ∧ k ≤ n - 1) : (k : ZMod n) ≠ 0 := by
  intro hk
  have hdvd := (ZMod.intCast_zmod_eq_zero_iff_dvd _ _).1 hk
  have hle := Int.le_of_dvd (by omega) hdvd
  omega

/-- In the field of residues, `InverseMod` is the inverse. -/
theorem cast_inverseMod_prime (ec : ECParameters Point) (k : ℤ) :
    ((inverseMod k ec.n : ℤ) : ZMod ec.n) = (k : ZMod ec.n)⁻¹ := by
  have : Fact ec.n.Prime := ⟨ec.n_prime⟩
  rw [cast_inverseMod, Ring.inverse_eq_inv']

theorem n_pos (ec : ECParameters Point) : (0 : ℤ) < ec.n := by
  have := ec.two_lt_n
  omega

theorem aTimesBModC_range (ec : ECParameters Point) (a b : ℤ) :
    0 ≤ aTimesBModC a b ec.n ∧ aTimesBModC a b ec.n < ec.n :=
  ⟨Int.emod_nonneg _ (n_pos ec).ne', Int.emod_lt_of_pos _ (n_pos ec)⟩

theorem Call.Regular.drawn (h : c.Regular ec ds db N) : c.Drawn ec N :=
  { ks := h.ks, kb := h.kb, u := h.u, encDs := h.encDs, encC1 := h.encC1, encU := h.encU }

theorem emod_range {a : ℤ} (h : a % ec.n ≠ 0) : 0 < a % ec.n ∧ a % ec.n < ec.n := by
  have h0 := Int.emod_nonneg a (n_pos ec).ne'
  have hlt := Int.emod_lt_of_pos a (n_pos ec)
  omega

theorem r_range (h : c.r ec ≠ 0) : 0 < c.r ec ∧ c.r ec < ec.n := emod_range h

/-- The abscissa of the common nonce is `r` when it is below the order. -/
theorem x_eq_iff : (ec.x (c.K ec) : ℤ) = c.r ec ↔ ec.x (c.K ec) < ec.n := by
  unfold Call.r
  constructor
  · intro h
    have hlt := Int.emod_lt_of_pos (ec.x (c.K ec) : ℤ) (n_pos ec)
    omega
  · intro h
    rw [Int.emod_eq_of_lt (by omega) (by omega)]

/-- The sum under the encryption stays below the modulus. -/
theorem Call.Drawn.plain_range (h : c.Drawn ec N) (hds : 1 ≤ ds ∧ ds ≤ ec.n - 1)
    (hN : 2 * ec.n * ec.n * ec.n * ec.n < N) :
    0 ≤ c.plain ec ds db ∧ c.plain ec ds db < N := by
  obtain ⟨ha0, han⟩ := aTimesBModC_range ec (inverseMod c.ρ.kb ec.n) (c.z ec)
  obtain ⟨ht0, htn⟩ := aTimesBModC_range ec (aTimesBModC (inverseMod c.ρ.kb ec.n) (c.r ec) ec.n) db
  obtain ⟨hu0, hun⟩ := h.u
  obtain ⟨hds1, hdsn⟩ := hds
  have hn : (3 : ℤ) ≤ ec.n := by
    have := ec.two_lt_n
    omega
  have htd : c.t ec db * ds ≤ ec.n * ec.n := mul_le_mul htn.le (by omega) (by omega) (by omega)
  have htd0 : 0 ≤ c.t ec db * ds := mul_nonneg ht0 (by omega)
  have hun' : c.ρ.u * ec.n ≤ (ec.n * ec.n - 1) * ec.n := mul_le_mul_of_nonneg_right hun (by omega)
  have hun0 : 0 ≤ c.ρ.u * ec.n := mul_nonneg hu0 (by omega)
  have hN' : (2 : ℤ) * ec.n * ec.n * ec.n * ec.n < N := by exact_mod_cast hN
  have hn2 : (3 : ℤ) * ec.n ≤ ec.n * ec.n := mul_le_mul_of_nonneg_right hn (by omega)
  have hn3 : (3 : ℤ) * (ec.n * ec.n) ≤ ec.n * (ec.n * ec.n) :=
    mul_le_mul_of_nonneg_right hn (by positivity)
  have hn4 : (3 : ℤ) * (ec.n * (ec.n * ec.n)) ≤ ec.n * (ec.n * (ec.n * ec.n)) :=
    mul_le_mul_of_nonneg_right hn (by positivity)
  unfold Call.plain
  constructor
  · omega
  · linarith

/-- The sum, as a residue. -/
theorem cast_plain : (c.plain ec ds db : ZMod ec.n) =
    (c.ρ.kb : ZMod ec.n)⁻¹ * (c.z ec + c.r ec * ds * db) := by
  have : Fact ec.n.Prime := ⟨ec.n_prime⟩
  simp only [Call.plain, Call.t, Int.cast_add, Int.cast_mul, cast_aTimesBModC,
    cast_inverseMod_prime, Int.cast_natCast, ZMod.natCast_self, mul_zero, add_zero]
  ring

theorem cast_s0 : (c.s0 ec ds db : ZMod ec.n) =
    ((c.ρ.ks : ZMod ec.n) * c.ρ.kb)⁻¹ * (c.z ec + c.r ec * ds * db) := by
  unfold Call.s0
  rw [ZMod.intCast_mod]
  push_cast [cast_inverseMod_prime]
  rfl

/-- The number that is divided by the nonces, as a residue. -/
theorem sum_eq_zero_iff : (c.z ec + c.r ec * ds * db) % ec.n = 0 ↔
    ((c.z ec : ZMod ec.n) + c.r ec * ds * db) = 0 := by
  have hcast := ZMod.intCast_zmod_eq_zero_iff_dvd (c.z ec + c.r ec * ds * db) ec.n
  push_cast at hcast
  rw [hcast]
  exact Int.dvd_iff_emod_eq_zero.symm

/-- The second half is zero when that number is. -/
theorem s0_eq_zero_iff (h : c.Drawn ec N) :
    c.s0 ec ds db = 0 ↔ (c.z ec + c.r ec * ds * db) % ec.n = 0 := by
  have : Fact ec.n.Prime := ⟨ec.n_prime⟩
  have hs0 : c.s0 ec ds db = 0 ↔ (c.s0 ec ds db : ZMod ec.n) = 0 := by
    rw [ZMod.intCast_zmod_eq_zero_iff_dvd, Int.dvd_iff_emod_eq_zero, Call.s0,
      Int.emod_emod_of_dvd _ dvd_rfl]
  have hinv : ((c.ρ.ks : ZMod ec.n) * c.ρ.kb)⁻¹ ≠ 0 :=
    inv_ne_zero (mul_ne_zero (cast_ne_zero h.ks) (cast_ne_zero h.kb))
  rw [hs0, cast_s0, sum_eq_zero_iff, mul_eq_zero, or_iff_right hinv]

theorem s0_range (h : c.s0 ec ds db ≠ 0) : 0 < c.s0 ec ds db ∧ c.s0 ec ds db < ec.n :=
  emod_range h

theorem Call.Regular.s0_ne (h : c.Regular ec ds db N) : c.s0 ec ds db ≠ 0 :=
  mt (s0_eq_zero_iff h.drawn).1 h.sum_ne

/-- `S` arrives at the second half from the decrypted sum. -/
theorem s0_eq : aTimesBModC (inverseMod c.ρ.ks ec.n) (c.plain ec ds db % ec.n) ec.n =
    c.s0 ec ds db := by
  have : Fact ec.n.Prime := ⟨ec.n_prime⟩
  have hcast : ((aTimesBModC (inverseMod c.ρ.ks ec.n) (c.plain ec ds db % ec.n) ec.n : ℤ) :
      ZMod ec.n) = c.s0 ec ds db := by
    rw [cast_aTimesBModC, cast_inverseMod_prime, ZMod.intCast_mod, cast_plain, cast_s0, mul_inv]
    ring
  have hmod := (ZMod.intCast_eq_intCast_iff _ _ _).1 hcast
  rw [← aTimesBModC_emod, hmod.eq, Call.s0]
  exact Int.emod_emod_of_dvd _ dvd_rfl

theorem publicKey_ne_zero (hds : 1 ≤ ds ∧ ds ≤ ec.n - 1) (hdb : 1 ≤ db ∧ db ≤ ec.n - 1) :
    (ds * db) • ec.G ≠ 0 := by
  have : Fact ec.n.Prime := ⟨ec.n_prime⟩
  intro h0
  have hdvd := (ec.smul_G_eq_zero_iff _).1 h0
  have hcast := (ZMod.intCast_zmod_eq_zero_iff_dvd _ ec.n).2 hdvd
  push_cast at hcast
  exact mul_ne_zero (cast_ne_zero hds) (cast_ne_zero hdb) hcast

theorem n_smul_publicKey (k : ℤ) : (ec.n : ℤ) • k • ec.G = 0 := by
  rw [smul_smul]
  exact (ec.smul_G_eq_zero_iff _).2 (dvd_mul_right _ _)

end

/-! ## The two halves of a signature -/

section
variable {ec : ECParameters Point} {N p q : ℕ} {ds db : ℤ} {c : Call}

omit [DecidableEq Point] in
/-- Either half leads `verify` to the common nonce or its opposite, and these have one
abscissa. -/
theorem x_verifyPoint (h : c.Drawn ec N) (h0 : c.s0 ec ds db ≠ 0) {s : ℤ}
    (hs : s = c.s0 ec ds db ∨ s = ec.n - c.s0 ec ds db) :
    ec.x (aTimesBModC (c.z ec) (inverseMod s ec.n) ec.n • ec.G +
      aTimesBModC (c.r ec) (inverseMod s ec.n) ec.n • ((ds * db) • ec.G)) = ec.x (c.K ec) := by
  have : Fact ec.n.Prime := ⟨ec.n_prime⟩
  have hks := cast_ne_zero h.ks
  have hkb := cast_ne_zero h.kb
  have hsum : ((c.z ec : ZMod ec.n) + c.r ec * ds * db) ≠ 0 :=
    mt (fun hz => (s0_eq_zero_iff h).2 (sum_eq_zero_iff.2 hz)) h0
  have hpoint : aTimesBModC (c.z ec) (inverseMod s ec.n) ec.n • ec.G +
      aTimesBModC (c.r ec) (inverseMod s ec.n) ec.n • ((ds * db) • ec.G) = c.K ec ∨
        aTimesBModC (c.z ec) (inverseMod s ec.n) ec.n • ec.G +
      aTimesBModC (c.r ec) (inverseMod s ec.n) ec.n • ((ds * db) • ec.G) = -c.K ec := by
    rw [smul_smul, ← add_smul, Call.K, ← neg_smul]
    rcases hs with rfl | rfl
    · left
      apply ec.smul_G_congr
      push_cast [cast_aTimesBModC, cast_inverseMod_prime, cast_s0]
      field_simp
    · right
      apply ec.smul_G_congr
      push_cast [cast_aTimesBModC, cast_inverseMod_prime, cast_s0, ZMod.natCast_self]
      rw [zero_sub, inv_neg]
      field_simp
      ring
  rcases hpoint with hK | hK
  · rw [hK]
  · rw [hK, ec.x_neg]

/-- Either half verifies when the abscissa of the common nonce is below the order, and
neither does otherwise. -/
theorem verify_halves (h : c.Drawn ec N) (hds : 1 ≤ ds ∧ ds ≤ ec.n - 1)
    (hdb : 1 ≤ db ∧ db ≤ ec.n - 1) (hr : c.r ec ≠ 0) (h0 : c.s0 ec ds db ≠ 0) {s : ℤ}
    (hs : s = c.s0 ec ds db ∨ s = ec.n - c.s0 ec ds db) :
    verify ec ((ds * db) • ec.G) c.data.toList (c.r ec) s =
      .ok (decide (ec.x (c.K ec) < ec.n)) := by
  have hsr : 0 < s ∧ s < ec.n := by
    have hrange := s0_range h0
    omega
  have hz : hashMToInt c.data.toList (byteCount ec.n) = .ok (c.z ec) :=
    hashMToInt_toList c.data ec.byteCount_n
  rw [verify_of_range hz (publicKey_ne_zero hds hdb) (n_smul_publicKey _) (r_range hr) hsr,
    x_verifyPoint h h0 hs]
  exact congrArg Except.ok (decide_eq_decide.2 x_eq_iff)

/-- Both square roots of the ambiguity in `s` verify: the point is the common nonce or
its opposite, and they have one abscissa. -/
theorem verify_ok (h : c.Regular ec ds db N) (hds : 1 ≤ ds ∧ ds ≤ ec.n - 1)
    (hdb : 1 ≤ db ∧ db ≤ ec.n - 1) {s : ℤ} (hs : s = c.s0 ec ds db ∨ s = ec.n - c.s0 ec ds db) :
    verify ec ((ds * db) • ec.G) c.data.toList (c.r ec) s = .ok true := by
  rw [verify_halves h.drawn hds hdb h.r_ne h.s0_ne hs, decide_eq_true h.x_lt]

/-! ## The other half of a signature -/

theorem verify_eq_true_iff {Q : Point} {m : Bytes} {r s : ℤ} : verify ec Q m r s = .ok true ↔
    ∃ z, hashMToInt m (byteCount ec.n) = .ok z ∧ Q ≠ 0 ∧ (ec.n : ℤ) • Q = 0 ∧
      (0 < r ∧ r < ec.n) ∧ (0 < s ∧ s < ec.n) ∧
      (ec.x (aTimesBModC z (inverseMod s ec.n) ec.n • ec.G +
        aTimesBModC r (inverseMod s ec.n) ec.n • Q) : ℤ) = r := by
  constructor
  · intro h
    simp only [verify, except_bind_eq_ok] at h
    obtain ⟨z, hz, h⟩ := h
    split at h
    · cases h
    · next hQ =>
      split at h
      · cases h
      · next hnQ =>
        split at h
        · cases h
        · next hr =>
          split at h
          · cases h
          · next hs =>
            split at h
            · cases h
            · next hx =>
              exact ⟨z, hz, hQ, not_not.1 hnQ, by omega, by omega, not_not.1 hx⟩
  · rintro ⟨z, hz, hQ, hnQ, hr, hs, hx⟩
    exact verify_eq_true hz hQ hnQ hr hs hx

omit [DecidableEq Point] in
/-- The point of the last check. -/
theorem verifyPoint_eq (ec : ECParameters Point) (z r s k : ℤ) :
    aTimesBModC z (inverseMod s ec.n) ec.n • ec.G + aTimesBModC r (inverseMod s ec.n) ec.n • k • ec.G =
      (inverseMod s ec.n * (z + r * k)) • ec.G := by
  rw [smul_smul, ← add_smul]
  apply ec.smul_G_congr
  push_cast [cast_aTimesBModC]
  ring

/-- With `s` also `n - s` verifies. -/
theorem verify_neg {Q : Point} {m : Bytes} {r s : ℤ} (h : verify ec Q m r s = .ok true) :
    verify ec Q m r (ec.n - s) = .ok true := by
  have : Fact ec.n.Prime := ⟨ec.n_prime⟩
  obtain ⟨z, hz, hQ, hnQ, hr, hs, hx⟩ := verify_eq_true_iff.1 h
  obtain ⟨k, rfl⟩ := ec.exists_smul Q
  apply verify_eq_true hz hQ hnQ hr (by omega)
  have hpoint : (inverseMod (ec.n - s) ec.n * (z + r * k)) • ec.G =
      -((inverseMod s ec.n * (z + r * k)) • ec.G) := by
    rw [← neg_smul]
    apply ec.smul_G_congr
    push_cast [cast_inverseMod_prime, ZMod.natCast_self]
    rw [zero_sub, inv_neg, neg_mul]
  rw [verifyPoint_eq] at hx ⊢
  rw [hpoint, ec.x_neg, hx]

/-- **A signature has two halves.**  No other number verifies. -/
theorem eq_or_eq_sub_of_verify (hx : ec.XUpToSign) {Q : Point} {m : Bytes} {r s s' : ℤ}
    (h : verify ec Q m r s = .ok true) (h' : verify ec Q m r s' = .ok true) :
    s' = s ∨ s' = ec.n - s := by
  have : Fact ec.n.Prime := ⟨ec.n_prime⟩
  obtain ⟨z, hz, -, -, hr, hs, hxs⟩ := verify_eq_true_iff.1 h
  obtain ⟨z', hz', -, -, -, hs', hxs'⟩ := verify_eq_true_iff.1 h'
  cases hz.symm.trans hz'
  obtain ⟨k, rfl⟩ := ec.exists_smul Q
  rw [verifyPoint_eq] at hxs hxs'
  have hpoint : ∀ {t : ℤ}, (ec.x ((inverseMod t ec.n * (z + r * k)) • ec.G) : ℤ) = r →
      (inverseMod t ec.n * (z + r * k)) • ec.G ≠ 0 := by
    intro t ht h0
    rw [h0, ec.x_zero] at ht
    exact hr.1.ne ht
  have hsum : (z + r * k : ZMod ec.n) ≠ 0 := by
    intro h0
    apply hpoint hxs
    rw [← zero_smul ℤ ec.G]
    apply ec.smul_G_congr
    push_cast
    rw [h0, mul_zero]
  have hcast : ∀ {a b : ℤ}, 0 < a → a < ec.n → 0 < b → b < ec.n → (a : ZMod ec.n) = b → a = b := by
    intro a b ha ha' hb hb' hab
    have hmod := (ZMod.intCast_eq_intCast_iff a b ec.n).1 hab
    rwa [Int.ModEq, Int.emod_eq_of_lt ha.le ha', Int.emod_eq_of_lt hb.le hb'] at hmod
  have heq : (ec.x ((inverseMod s' ec.n * (z + r * k)) • ec.G) : ℤ) =
      ec.x ((inverseMod s ec.n * (z + r * k)) • ec.G) := hxs'.trans hxs.symm
  rcases hx _ _ (hpoint hxs') (hpoint hxs) (by exact_mod_cast heq) with h | h
  · left
    rw [ec.smul_G_eq_iff] at h
    push_cast [cast_inverseMod_prime] at h
    exact hcast hs'.1 hs'.2 hs.1 hs.2 (inv_injective (mul_right_cancel₀ hsum h))
  · right
    rw [← neg_smul, ec.smul_G_eq_iff] at h
    push_cast [cast_inverseMod_prime] at h
    rw [← neg_mul, ← inv_neg] at h
    apply hcast hs'.1 hs'.2 (by omega) (by omega)
    rw [inv_injective (mul_right_cancel₀ hsum h)]
    simp

omit [DecidableEq Point] in
/-- A number below the order survives the encoding of a signature. -/
theorem ofBytes_encode_of_lt (ec : ECParameters Point) {s : ℤ} (h0 : 0 ≤ s) (hs : s < ec.n) :
    ofBytes (encode s 32) = s := by
  have hle : byteCount s ≤ 32 := by
    refine Radix.byteLength_le_iff.2 (lt_of_lt_of_le ?_
      (Radix.byteLength_le_iff.1 ec.byteCount_n).le)
    simp only [Int.natAbs_natCast]
    omega
  rw [ofBytes_encode hle, Int.natAbs_of_nonneg h0]

omit [DecidableEq Point] in
/-- Below the order, the encoding of a signature tells its second half. -/
theorem encodeSignature_inj {r s s' : ℤ} (h0 : 0 ≤ s) (hs : s < ec.n) (h0' : 0 ≤ s')
    (hs' : s' < ec.n) :
    encodeSignature r s' = encodeSignature r s ↔ s' = s := by
  constructor
  · intro h
    have henc : encode s' 32 = encode s 32 := (List.append_inj h rfl).2
    have hval := ofBytes_encode_of_lt ec h0 hs
    rw [← henc, ofBytes_encode_of_lt ec h0' hs'] at hval
    exact hval
  · rintro rfl
    rfl

/-- The two halves have different encodings, since the order is odd. -/
theorem encodeSignature_neg_ne {Q : Point} {m : Bytes} {r s : ℤ} (h : verify ec Q m r s = .ok true) :
    encodeSignature r s ≠ encodeSignature r (ec.n - s) := by
  obtain ⟨z, -, -, -, -, hs, -⟩ := verify_eq_true_iff.1 h
  have hodd := n_odd ec
  rw [ne_comm, ne_eq, encodeSignature_inj hs.1.le hs.2 (by omega) (by omega)]
  omega

/-! ## Between two signatures -/

/-- Both sides hold the public key, their own share and one Paillier key. -/
structure Ready (ec : ECParameters Point) (p q : ℕ) (ds db : ℤ) (st : S Point × B Point) : Prop where
  ds_eq : st.1.ds = ds
  db_eq : st.2.db = db
  Qs_eq : st.1.Q = (ds * db) • ec.G
  Qb_eq : st.2.Q = (ds * db) • ec.G
  owner : st.1.paillier = Paillier.ofPrimes p q
  client : st.2.paillier.Public (p * q)

/-- `SharedSignature::init` never throws: both sides arrive at one public key. -/
theorem init_apply (s : S Point) (b : B Point) : init ec ds db (s, b) = .ok ()
    ({ s with ds, Qs := ds • ec.G, Qb := db • ec.G, Q := (ds * db) • ec.G },
      { b with db, Qb := db • ec.G, Qs := ds • ec.G, Q := (ds * db) • ec.G }) := by
  have hQ : ds • db • ec.G = (ds * db) • ec.G := smul_smul ..
  have hQ' : db • ds • ec.G = (ds * db) • ec.G := by rw [smul_smul, mul_comm]
  simp only [init, bind_apply, modify_apply, get_apply, S.startInit, S.finishInit, B.startInit,
    B.finishInit, hQ, hQ']
  exact throwIf_of_not (not_not.2 rfl)

/-- After `init` on fresh parties the first signature can be made. -/
theorem init_ok (ec : ECParameters Point) (p q : ℕ) (ds db : ℤ) : ∃ st, init ec ds db (S.new p q,
    B.ofPaillier (Paillier.ofKey ((p * q : ℕ) : ℤ) ((p * q : ℕ) + 1))) = .ok () st ∧
      Ready ec p q ds db st := by
  have hpub := Paillier.public_ofPrimes p q
  have hclient := Paillier.public_ofKey hpub
  rw [hpub.n_eq, hpub.g_eq] at hclient
  rw [init_apply]
  exact ⟨_, rfl, rfl, rfl, rfl, rfl, rfl, hclient⟩

omit [DecidableEq Point] in
/-- `B`'s half, with the draws: the residue it sends carries the sum with the product of the
draws behind it. -/
theorem contSig_cipher (h : c.Drawn ec N) (hr0 : c.r ec ≠ 0) (hds : 1 ≤ ds ∧ ds ≤ ec.n - 1)
    (hN : 2 * ec.n * ec.n * ec.n * ec.n < N) {b : B Point} (hb : b.paillier.Public N)
    (hdb : b.db = db) {cs w : ℤ} (hcs : cs ≡ cipher N ds.toNat w [ZMOD N * N]) :
    ∃ cb, B.contSig ec (c.ρ.ks • ec.G) cs c.data.toList c.ρ b =
        .ok () { b with kb := c.ρ.kb, K := c.K ec, r := c.r ec, cb } ∧
      cb ≡ cipher N (c.plain ec ds db).toNat
        (c.ρ.encC1 * w ^ (c.t ec db).toNat * c.ρ.encU) [ZMOD N * N] ∧
      0 ≤ cb ∧ cb < (N : ℤ) * N := by
  have hK : c.ρ.kb • c.ρ.ks • ec.G = c.K ec := by rw [Call.K, smul_smul, mul_comm]
  obtain ⟨hp0, hpN⟩ : 0 ≤ c.plain ec ds db ∧ c.plain ec ds db < N := h.plain_range hds hN
  have hn := n_pos ec
  obtain ⟨ha0, han⟩ := aTimesBModC_range ec (inverseMod c.ρ.kb ec.n) (c.z ec)
  obtain ⟨ht0, htn⟩ : 0 ≤ c.t ec db ∧ c.t ec db < ec.n := aTimesBModC_range ec _ _
  have hu0 : 0 ≤ c.ρ.u * ec.n := mul_nonneg h.u.1 hn.le
  have htd0 : 0 ≤ c.t ec db * ds := mul_nonneg ht0 (by omega)
  have hN1 : 1 < N := ec.n_prime.one_lt.trans (n_lt_modulus hN)
  -- the three numbers that are encrypted or multiplied are parts of the sum
  have hplain : (c.plain ec ds db).toNat =
      (aTimesBModC (inverseMod c.ρ.kb ec.n) (c.z ec) ec.n).toNat + (c.t ec db).toNat * ds.toNat +
        (c.ρ.u * ec.n).toNat := by
    unfold Call.plain
    rw [Int.toNat_add (by omega) hu0, Int.toNat_add ha0 htd0, Int.toNat_mul ht0 (by omega)]
  have hpl : c.plain ec ds db = aTimesBModC (inverseMod c.ρ.kb ec.n) (c.z ec) ec.n +
      c.t ec db * ds + c.ρ.u * ec.n := rfl
  obtain ⟨c1, hc1, -, -, hmod1⟩ := Paillier.enc_cipher hb hN1 ha0 (by omega) c.ρ.encC1
  obtain ⟨cu, hcu, -, -, hmodu⟩ := Paillier.enc_cipher hb hN1 hu0 (by omega) c.ρ.encU
  have hz : hashMToInt c.data.toList (byteCount ec.n) = .ok (c.z ec) :=
    hashMToInt_toList c.data ec.byteCount_n
  have ht : aTimesBModC (aTimesBModC (inverseMod c.ρ.kb ec.n) (c.r ec) ec.n) db ec.n =
      c.t ec db := rfl
  have hr : (ec.x (c.K ec) % ec.n : ℤ) = c.r ec := rfl
  have hpow : aExpBModC cs (c.t ec db) (N * N) ≡
      cipher N ((c.t ec db).toNat * ds.toNat) (w ^ (c.t ec db).toNat) [ZMOD N * N] := by
    rw [← cipher_pow]
    exact (aExpBModC_modEq _ _ _).trans (hcs.pow _)
  refine ⟨aTimesBModC (aTimesBModC c1 (aExpBModC cs (c.t ec db) (N * N)) (N * N)) cu (N * N),
    ?_, ?_, ?_, ?_⟩
  · simp only [B.contSig, bind_apply, modify_apply, get_apply, hK, hr, throwIf_of_not hr0, hz,
      lift_ok, hdb, hc1, hb.getN2 hN1, hcu, ht]
  · rw [hplain, ← cipher_mul, ← cipher_mul]
    refine (aTimesBModC_modEq _ _ _).trans (Int.ModEq.mul ?_ hmodu)
    exact (aTimesBModC_modEq _ _ _).trans (hmod1.mul hpow)
  · exact Int.emod_nonneg _ (by positivity)
  · exact Int.emod_lt_of_pos _ (by positivity)

omit [DecidableEq Point] in
/-- So it carries the sum, when the draws are units. -/
theorem contSig_ok (h : c.Drawn ec N) (hr0 : c.r ec ≠ 0) (hds : 1 ≤ ds ∧ ds ≤ ec.n - 1)
    (hN : 2 * ec.n * ec.n * ec.n * ec.n < N) {b : B Point} (hb : b.paillier.Public N)
    (hdb : b.db = db) {cs : ℤ} (hcs : Carries N cs ds.toNat) :
    ∃ cb, B.contSig ec (c.ρ.ks • ec.G) cs c.data.toList c.ρ b =
        .ok () { b with kb := c.ρ.kb, K := c.K ec, r := c.r ec, cb } ∧
      Carries N cb (c.plain ec ds db).toNat ∧ 0 ≤ cb ∧ cb < (N : ℤ) * N := by
  obtain ⟨w, hw, hmod⟩ := hcs
  obtain ⟨cb, hcont, hcb, hrange⟩ := contSig_cipher h hr0 hds hN hb hdb hmod
  exact ⟨cb, hcont, ⟨_, (h.encC1.mul_left hw.pow_left).mul_left h.encU, hcb⟩, hrange⟩

omit [DecidableEq Point] in
/-- A degenerate common nonce is refused before anything is encrypted. -/
theorem contSig_throws (hr : c.r ec = 0) (b : B Point) (cs : ℤ) (m : Bytes) :
    B.contSig ec (c.ρ.ks • ec.G) cs m c.ρ b =
      .error (.protocolException "r == 0") { b with kb := c.ρ.kb, K := c.K ec, r := c.r ec } := by
  have hK : c.ρ.kb • c.ρ.ks • ec.G = c.K ec := by rw [Call.K, smul_smul, mul_comm]
  have hr' : (ec.x (c.K ec) % ec.n : ℤ) = c.r ec := rfl
  simp only [B.contSig, bind_apply, modify_apply, get_apply, hK, hr', throwIf_of hr]

omit [DecidableEq Point] in
theorem startSig_ok {s : S Point} {ks encDs cs : ℤ} (h : s.paillier.enc s.ds encDs = .ok cs) :
    S.startSig ec ks encDs s = .ok () { s with ks, Ks := ks • ec.G, cs } := by
  simp only [S.startSig, bind_apply, modify_apply, get_apply, h, lift_ok]

/-- `S`'s half: it decrypts the sum, arrives at the second half, and says whether the
lower one verifies. -/
theorem finishSig_apply {s : S Point} (hdata : s.data = c.data.toList) (hks : s.ks = c.ρ.ks)
    {cb : ℤ} (hcb : s.paillier.dec cb = .ok (c.plain ec ds db)) (h0 : c.s0 ec ds db ≠ 0)
    {b : Bool} (hver : verify ec s.Q c.data.toList (c.r ec)
      (min (c.s0 ec ds db) (ec.n - c.s0 ec ds db)) = .ok b) :
    S.finishSig ec (c.r ec) cb s =
      throwIf (b = false) (.protocolException "Invalid signature generated!")
        { s with r := c.r ec, s := min (c.s0 ec ds db) (ec.n - c.s0 ec ds db) } := by
  have hmin : (if c.s0 ec ds db > ec.n - c.s0 ec ds db then ec.n - c.s0 ec ds db
      else c.s0 ec ds db) = min (c.s0 ec ds db) (ec.n - c.s0 ec ds db) := by
    split <;> omega
  rw [← hdata] at hver
  have hs0 : aTimesBModC (inverseMod s.ks ec.n) (c.plain ec ds db % ec.n) ec.n = c.s0 ec ds db := by
    rw [hks, s0_eq]
  have hlen : ({ s with r := c.r ec, s := min (c.s0 ec ds db) (ec.n - c.s0 ec ds db) } :
      S Point).getDataLength = .ok s.data.length := by
    unfold S.getDataLength
    rw [refuseIf_of_not (by simp [hdata]), except_ok_bind]
  simp only [S.finishSig, bind_apply, modify_apply, get_apply, hcb, lift_ok, hs0,
    throwIf_of_not h0, hmin, hlen, hver]

/-- A second half that is zero is refused. -/
theorem finishSig_throws {s : S Point} (hks : s.ks = c.ρ.ks) {cb : ℤ}
    (hcb : s.paillier.dec cb = .ok (c.plain ec ds db)) (h0 : c.s0 ec ds db = 0) :
    S.finishSig ec (c.r ec) cb s = .error (.protocolException "ERR s==0 restart protocol")
      { s with r := c.r ec, s := c.s0 ec ds db } := by
  have hs0 : aTimesBModC (inverseMod s.ks ec.n) (c.plain ec ds db % ec.n) ec.n = c.s0 ec ds db := by
    rw [hks, s0_eq]
  simp only [S.finishSig, bind_apply, modify_apply, get_apply, hcb, lift_ok, hs0, throwIf_of h0]

/-- In a regular call that is a signature that verifies. -/
theorem finishSig_ok (h : c.Regular ec ds db N) (hds : 1 ≤ ds ∧ ds ≤ ec.n - 1)
    (hdb : 1 ≤ db ∧ db ≤ ec.n - 1) {s : S Point} (hdata : s.data = c.data.toList)
    (hks : s.ks = c.ρ.ks) (hQ : s.Q = (ds * db) • ec.G) {cb : ℤ}
    (hcb : s.paillier.dec cb = .ok (c.plain ec ds db)) :
    S.finishSig ec (c.r ec) cb s = .ok () { s with
      r := c.r ec, s := min (c.s0 ec ds db) (ec.n - c.s0 ec ds db) } := by
  have hver := verify_ok h hds hdb (min_choice (c.s0 ec ds db) (ec.n - c.s0 ec ds db))
  rw [← hQ] at hver
  rw [finishSig_apply hdata hks hcb h.s0_ne hver]
  exact throwIf_of_not (by simp)

/-- What `S` ends with verifies, and is the lower half. -/
theorem finishSig_eq_ok {s s' : S Point} {r cb : ℤ} {u : Unit}
    (h : S.finishSig ec r cb s = .ok u s') :
    verify ec s'.Q s'.data s'.r s'.s = .ok true ∧ s'.s ≤ ec.n - s'.s := by
  simp only [S.finishSig, bind_eq_ok, modify_apply, get_apply, lift_eq_ok, throwIf_eq_ok,
    Bool.not_eq_false] at h
  obtain ⟨_, _, hr, _, _, hget, m, _, ⟨-, rfl⟩, _, _, hs0, _, _, ⟨-, rfl⟩, _, _, hlow, _, _, hget2,
    _, _, ⟨-, rfl⟩, _, _, ⟨hver, rfl⟩, rfl, rfl⟩ := h
  cases hr
  cases hget
  cases hs0
  cases hlow
  cases hget2
  refine ⟨hver, ?_⟩
  simp only
  split <;> omega
omit [DecidableEq Point] in
/-- The owner of the key decrypts what carries the sum to the sum itself. -/
theorem dec_plain (hk : KeyPrimes (S.paillierBits ec) p q) (h : c.Drawn ec (p * q))
    (hds : 1 ≤ ds ∧ ds ≤ ec.n - 1) {cb : ℤ} (hcb : Carries (p * q) cb (c.plain ec ds db).toNat)
    (h0 : 0 ≤ cb) (hlt : cb < ((p * q : ℕ) : ℤ) * (p * q : ℕ)) :
    (Paillier.ofPrimes p q).dec cb = .ok (c.plain ec ds db) := by
  obtain ⟨hp0, hpN⟩ : 0 ≤ c.plain ec ds db ∧ c.plain ec ds db < (p * q : ℕ) :=
    h.plain_range hds (two_mul_pow_lt hk)
  have hdec := Paillier.dec_ok hk two_le_paillierBits hcb h0 (by exact_mod_cast hlt)
  rw [hdec, Int.toNat_of_nonneg hp0, Int.emod_eq_of_lt hp0 (by exact_mod_cast hpN)]

omit [DecidableEq Point] in
/-- The half that is kept is the lower one. -/
theorem low_s0_range {N : ℕ} (h : c.Regular ec ds db N) :
    1 ≤ min (c.s0 ec ds db) (ec.n - c.s0 ec ds db) ∧
      min (c.s0 ec ds db) (ec.n - c.s0 ec ds db) ≤ (ec.n - 1) / 2 := by
  obtain ⟨h0, hlt⟩ := s0_range h.s0_ne
  have hodd := n_odd ec
  omega

omit [DecidableEq Point] in
/-- `S` opens a call with its key share under the encryption. -/
theorem startSig_ready (hk : KeyPrimes (S.paillierBits ec) p q) (h : c.Drawn ec (p * q))
    (hds : 1 ≤ ds ∧ ds ≤ ec.n - 1) {s : S Point} {b : B Point} (hst : Ready ec p q ds db (s, b)) :
    ∃ cs, S.startSig ec c.ρ.ks c.ρ.encDs (s.setData c.data.toList) =
        .ok () { s.setData c.data.toList with ks := c.ρ.ks, Ks := c.ρ.ks • ec.G, cs } ∧
      Carries (p * q) cs ds.toNat := by
  have hspub : s.paillier.Public (p * q) := by
    rw [hst.owner]
    exact Paillier.public_ofPrimes p q
  have hdsN : ds.toNat < p * q := by
    have hn := n_lt_modulus (two_mul_pow_lt hk)
    omega
  obtain ⟨cs, hcs, hcarries⟩ := Paillier.enc_ok hspub (one_lt_modulus hk) hdsN h.encDs
  rw [Int.toNat_of_nonneg (by omega), ← hst.ds_eq] at hcs
  exact ⟨cs, startSig_ok hcs, hcarries⟩

/-- Up to the step of `S`: unless the common nonce is degenerate, `B` answers with a residue
that `S` decrypts to the sum. -/
theorem sign_eq_finishSig (hk : KeyPrimes (S.paillierBits ec) p q) (h : c.Drawn ec (p * q))
    (hr : c.r ec ≠ 0) (hds : 1 ≤ ds ∧ ds ≤ ec.n - 1) {s : S Point} {b : B Point}
    (hst : Ready ec p q ds db (s, b)) :
    ∃ cs cb, s.paillier.dec cb = .ok (c.plain ec ds db) ∧
      sign ec c (s, b) = onFst (S.finishSig ec (c.r ec) cb)
        ({ s.setData c.data.toList with ks := c.ρ.ks, Ks := c.ρ.ks • ec.G, cs },
          { b.setData c.data.toList with kb := c.ρ.kb, K := c.K ec, r := c.r ec, cb }) := by
  obtain ⟨cs, hstart, hcarries⟩ := startSig_ready hk h hds hst
  -- `B` sends the sum, and `S` can decrypt it
  obtain ⟨cb, hcont, hcb, hcb0, hcbN⟩ := contSig_ok (b := b.setData c.data.toList) h hr hds
    (two_mul_pow_lt hk) hst.client hst.db_eq hcarries
  refine ⟨cs, cb, ?_, ?_⟩
  · rw [hst.owner]
    exact dec_plain hk h hds hcb hcb0 hcbN
  · have hexec := exec_of_ok (b := b.setData c.data.toList) rfl hstart hcont
    unfold sign
    rw [bind_of_ok (modify_apply _ _)]
    exact hexec

/-- **The step.**  From a ready state a regular call returns, with a signature that
verifies, and the state is ready again. -/
theorem sign_ok (hk : KeyPrimes (S.paillierBits ec) p q) (h : c.Regular ec ds db (p * q))
    (hds : 1 ≤ ds ∧ ds ≤ ec.n - 1) (hdb : 1 ≤ db ∧ db ≤ ec.n - 1) {st : S Point × B Point}
    (hst : Ready ec p q ds db st) : ∃ st', sign ec c st = .ok () st' ∧
      Ready ec p q ds db st' ∧ Signed ec (p * q) ds db c st' := by
  obtain ⟨s, b⟩ := st
  obtain ⟨cs, cb, hdec, hsign⟩ := sign_eq_finishSig hk h.drawn h.r_ne hds hst
  obtain ⟨hsds, hbdb, hsQ, hbQ, howner, hclient⟩ := hst
  have hfinish := finishSig_ok (s := { s.setData c.data.toList with
    ks := c.ρ.ks, Ks := c.ρ.ks • ec.G, cs }) h hds hdb rfl rfl hsQ hdec
  refine ⟨_, hsign.trans (onFst_of_ok hfinish), ⟨hsds, hbdb, hsQ, hbQ, howner, hclient⟩, ?_⟩
  obtain ⟨hpos, hle⟩ := low_s0_range h
  exact
    { r_eq := rfl
      s_eq := rfl
      s_pos := hpos
      s_le := hle
      verified := by
        show verify ec s.Q c.data.toList (c.r ec) _ = .ok true
        rw [hsQ]
        exact verify_ok h hds hdb (min_choice _ _)
      dec_eq := hdec
      plain_lt := (h.drawn.plain_range hds (two_mul_pow_lt hk)).2 }

/-! ## A run of signatures -/

/-- A ready state stays ready over any number of regular calls. -/
theorem forM_sign_ok (hk : KeyPrimes (S.paillierBits ec) p q) (hds : 1 ≤ ds ∧ ds ≤ ec.n - 1)
    (hdb : 1 ≤ db ∧ db ≤ ec.n - 1) (calls : List Call)
    (hcalls : ∀ c ∈ calls, c.Regular ec ds db (p * q)) {st : S Point × B Point}
    (hst : Ready ec p q ds db st) :
    ∃ st', calls.forM (sign ec) st = .ok () st' ∧ Ready ec p q ds db st' := by
  induction calls generalizing st with
  | nil => exact ⟨st, rfl, hst⟩
  | cons c calls ih =>
    obtain ⟨st1, hsign, hst1, -⟩ := sign_ok hk (hcalls c List.mem_cons_self) hds hdb hst
    obtain ⟨st', hrest, hst'⟩ := ih (fun d hd => hcalls d (List.mem_cons_of_mem _ hd)) hst1
    refine ⟨st', ?_, hst'⟩
    rw [forM_cons, bind_of_ok hsign, hrest]

end

/-- **Shared signing is correct.**  Fresh parties agree on the public key, and every call
of a run of regular calls returns a low signature that verifies, with a sum under the
encryption that does not wrap. -/
theorem signatures_verify {ec : ECParameters Point} {p q : ℕ}
    (hk : KeyPrimes (S.paillierBits ec) p q) {ds db : ℤ} (hds : 1 ≤ ds ∧ ds ≤ ec.n - 1)
    (hdb : 1 ≤ db ∧ db ≤ ec.n - 1) {calls : List Call}
    (hcalls : ∀ c ∈ calls, c.Regular ec ds db (p * q)) :
    ∃ fresh st, parties ec p q = .ok fresh ∧ init ec ds db fresh = .ok () st ∧
      st.1.Q = (ds * db) • ec.G ∧ st.2.Q = (ds * db) • ec.G ∧
      ∀ pre c post, calls = pre ++ c :: post → ∃ st1 st2,
        pre.forM (sign ec) st = .ok () st1 ∧ sign ec c st1 = .ok () st2 ∧
          Signed ec (p * q) ds db c st2 := by
  obtain ⟨st, hinit, hst⟩ := init_ok ec p q ds db
  refine ⟨_, st, parties_ok hk, hinit, hst.Qs_eq, hst.Qb_eq, ?_⟩
  intro pre c post hsplit
  subst hsplit
  obtain ⟨st1, hpre, hst1⟩ := forM_sign_ok hk hds hdb pre
    (fun d hd => hcalls d (List.mem_append_left _ hd)) hst
  obtain ⟨st2, hsign, -, hsigned⟩ := sign_ok hk (hcalls c (by simp)) hds hdb hst1
  exact ⟨st1, st2, hpre, hsign, hsigned⟩

/-! ### A group of order seven -/

/-- The residues modulo seven, with an abscissa that forgets the sign. -/
def order7 : ECParameters (ZMod 7) where
  G := 1
  n := 7
  x P := min P.val (7 - P.val)
  y P := P.val
  n_prime := by norm_num
  two_lt_n := by decide
  byteCount_n := by decide
  addOrderOf_G := ZMod.addOrderOf_one 7
  exists_smul P := ⟨P.val, by revert P; decide⟩
  x_neg := by decide
  x_zero := by decide

/-- One call with unit nonces. -/
def unitCall : Call :=
  { data := Vector.replicate 32 0
    ρ := { ks := 1, kb := 1, u := 5, encDs := 1, encC1 := 1, encU := 1 } }

theorem keyPrimes_order7 : KeyPrimes (S.paillierBits order7) 521 523 :=
  { prime_p := by norm_num, prime_q := by norm_num, ne := by decide, le_p := by decide,
    p_le := by decide, le_q := by decide, q_le := by decide }

theorem regular_unitCall : unitCall.Regular order7 2 3 (521 * 523) :=
  { ks := by decide, kb := by decide, u := by decide, encDs := isCoprime_one_left,
    encC1 := isCoprime_one_left, encU := isCoprime_one_left, x_lt := by decide,
    r_ne := by decide, sum_ne := by decide }

/-- `signatures_verify` for two calls in the group of order seven. -/
theorem signatures_verify_order7 : ∃ fresh st, parties order7 521 523 = .ok fresh ∧
    init order7 2 3 fresh = .ok () st ∧
      ∀ pre c post, [unitCall, unitCall] = pre ++ c :: post → ∃ st1 st2,
        pre.forM (sign order7) st = .ok () st1 ∧ sign order7 c st1 = .ok () st2 ∧
          Signed order7 (521 * 523) 2 3 c st2 := by
  obtain ⟨fresh, st, hfresh, hinit, -, -, hrun⟩ := @signatures_verify _ _ _ order7 521 523
    keyPrimes_order7 2 3 (by decide) (by decide) [unitCall, unitCall] (by simpa using regular_unitCall)
  exact ⟨fresh, st, hfresh, hinit, hrun⟩

end SellingInformation.SharedSignature
