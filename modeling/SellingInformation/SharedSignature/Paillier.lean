import SellingInformation.CryptoPP
import SellingInformation.Lib.Homomorphic

/-!
# Paillier encryption

`paillier.cpp`.  An object is the owner's, with the primes, or a client's, built
from the public key, which can encrypt only.

* `enc_ok` — encryption under either object, with randomness coprime to `n`,
  gives a residue that carries the message;
* `dec_ok` — the owner decrypts a residue to the number it carries, modulo `n`;
* `enc_dec_iff` — so a ciphertext decrypts exactly when its draw is coprime to `n`;
* `dec_product` — and a product of powers of ciphertexts decrypts to the sum of the
  multiples of their messages;
* `KeyPrimes` — what the constructor draws, and that the residue of `phi` modulo
  `n` then has an inverse.
-/

namespace SellingInformation.SharedSignature

open CryptoPP Fallible Homomorphic

/-- The members of `Paillier`. -/
structure Paillier where
  p : ℤ
  q : ℤ
  n : ℤ
  n2 : ℤ
  y : ℤ
  g : ℤ
  u : ℤ
  phi : ℤ
  deriving DecidableEq, Repr

namespace Paillier

/-- A default-constructed object, which has no key. -/
def new : Paillier := { p := 0, q := 0, n := 0, n2 := 0, y := 0, g := 0, u := 0, phi := 0 }

/-- `Paillier(unsigned bits)`, with the primes the generator returns. -/
def ofPrimes (p q : ℤ) : Paillier :=
  let n := p * q
  let phi := (p - 1) * (q - 1)
  { p, q, n, n2 := n * n, y := phi, g := n + 1, u := inverseMod phi n, phi }

/-- `Paillier(Integer n, Integer g)`: the client's object. -/
def ofKey (n g : ℤ) : Paillier :=
  { p := -1, q := -1, n, n2 := n * n, y := 0, g, u := 0, phi := 0 }

variable (k : Paillier)

/-- `Paillier::L`. -/
def L (x : ℤ) : ℤ := (x - 1) / k.n

/-- The guard in front of every method. -/
def initialized : Except Exn Unit := refuseIf (k.n = 0) (.paillierException "not initialized")

/-- `get_n`. -/
def getN : Except Exn ℤ := do
  k.initialized
  .ok k.n

/-- `get_n2`. -/
def getN2 : Except Exn ℤ := do
  k.initialized
  .ok k.n2

/-- `get_g`. -/
def getG : Except Exn ℤ := do
  k.initialized
  .ok k.g

/-- `Paillier::enc`, with the number the generator draws. -/
def enc (m r : ℤ) : Except Exn ℤ := do
  k.initialized
  refuseIf (m ≥ k.n ∨ m < 0) (.paillierException "m >= n || m < 0 ")
  .ok (aTimesBModC (aExpBModC k.g m k.n2) (aExpBModC r k.n k.n2) k.n2)

/-- `Paillier::dec`. -/
def dec (c : ℤ) : Except Exn ℤ := do
  k.initialized
  refuseIf (k.p = -1 ∨ k.q = -1) (.paillierException "client can not decrypt data")
  refuseIf (c ≤ 0 ∨ c ≥ k.n2) (.paillierException "c <= 0 || c >= n2")
  refuseIf (c % k.p = 0 ∨ c % k.q = 0) (.paillierException "c % p == 0 || c % q == 0")
  .ok (aTimesBModC (k.L (aExpBModC c k.y k.n2)) k.u k.n)

end Paillier

/-! ## Keys -/

/-- The primes of a key with `bits`, as the constructor draws them. -/
structure KeyPrimes (bits p q : ℕ) : Prop where
  prime_p : p.Prime
  prime_q : q.Prime
  ne : p ≠ q
  le_p : 2 ^ bits ≤ p
  p_le : p ≤ 2 ^ (bits + 1)
  le_q : 2 ^ bits ≤ q
  q_le : q ≤ 2 ^ (bits + 1)

namespace KeyPrimes

variable {bits p q : ℕ}

theorem symm (h : KeyPrimes bits p q) : KeyPrimes bits q p :=
  { prime_p := h.prime_q, prime_q := h.prime_p, ne := h.ne.symm, le_p := h.le_q, p_le := h.q_le,
    le_q := h.le_p, q_le := h.p_le }

theorem one_lt (h : KeyPrimes bits p q) : (1 : ℤ) < p * q := by
  have h4 : 2 * 2 ≤ p * q := Nat.mul_le_mul h.prime_p.two_le h.prime_q.two_le
  have : (4 : ℤ) ≤ p * q := by exact_mod_cast h4
  omega

theorem odd_p (h : KeyPrimes bits p q) (hb : 2 ≤ bits) : p % 2 = 1 := by
  have h4 : 2 ^ 2 ≤ p := (Nat.pow_le_pow_right (by decide) hb).trans h.le_p
  rcases h.prime_p.eq_two_or_odd with h2 | hodd
  · omega
  · exact hodd

/-- Neither prime divides the other less one: they are odd and of one size. -/
theorem not_dvd_sub_one (h : KeyPrimes bits p q) (hb : 2 ≤ bits) : ¬ p ∣ q - 1 := by
  rintro ⟨c, hc⟩
  have hq2 := h.prime_q.two_le
  have hlt : q - 1 < p * 2 := by
    have hq := h.q_le
    have hp := h.le_p
    rw [pow_succ] at hq
    omega
  have hc2 : c < 2 := by
    rw [hc] at hlt
    exact Nat.lt_of_mul_lt_mul_left hlt
  have hp1 := h.odd_p hb
  have hq1 := h.symm.odd_p hb
  interval_cases c <;> omega

/-- So `phi` has an inverse modulo `n`. -/
theorem coprime_phi (h : KeyPrimes bits p q) (hb : 2 ≤ bits) :
    Int.gcd (((p : ℤ) - 1) * (q - 1)) (p * q) = 1 := by
  have key : ∀ {p q : ℕ}, KeyPrimes bits p q → Nat.Coprime ((p - 1) * (q - 1)) p := by
    intro p q h
    have hp2 := h.prime_p.two_le
    refine ((Nat.Prime.coprime_iff_not_dvd h.prime_p).2 ?_).symm
    intro hdvd
    rcases h.prime_p.dvd_mul.1 hdvd with h1 | h1
    · have := Nat.le_of_dvd (by omega) h1
      omega
    · exact h.not_dvd_sub_one hb h1
  have hpq : Nat.Coprime ((p - 1) * (q - 1)) (p * q) := by
    apply Nat.Coprime.mul_right (key h)
    rw [Nat.mul_comm]
    exact key h.symm
  have hcast : ((p : ℤ) - 1) * (q - 1) = ((p - 1) * (q - 1) : ℕ) := by
    push_cast [Nat.cast_sub h.prime_p.one_le, Nat.cast_sub h.prime_q.one_le]
    ring
  rw [hcast, ← Nat.cast_mul, Int.gcd_natCast_natCast]
  exact hpq

end KeyPrimes

/-! ## Encrypting and decrypting -/

namespace Paillier

/-- The object holds the public key for the modulus `N`, whoever owns it. -/
structure Public (k : Paillier) (N : ℕ) : Prop where
  n_eq : k.n = N
  n2_eq : k.n2 = N * N
  g_eq : k.g = N + 1

theorem public_ofPrimes (p q : ℕ) : Public (ofPrimes p q) (p * q) := by
  constructor <;> simp [ofPrimes]

theorem public_ofKey {k : Paillier} {N : ℕ} (h : Public k N) : Public (ofKey k.n k.g) N := by
  obtain ⟨hn, -, hg⟩ := h
  constructor <;> simp [ofKey, hn, hg]

variable {k : Paillier} {N m : ℕ} {r c : ℤ}

theorem Public.initialized (h : Public k N) (hN : 1 < N) : k.initialized = .ok () := by
  apply refuseIf_of_not
  rw [h.n_eq]
  omega

theorem Public.getN (h : Public k N) (hN : 1 < N) : k.getN = .ok (N : ℤ) := by
  unfold Paillier.getN
  rw [h.initialized hN, except_ok_bind, h.n_eq]

theorem Public.getN2 (h : Public k N) (hN : 1 < N) : k.getN2 = .ok ((N : ℤ) * N) := by
  unfold Paillier.getN2
  rw [h.initialized hN, except_ok_bind, h.n2_eq]

theorem Public.getG (h : Public k N) (hN : 1 < N) : k.getG = .ok ((N : ℤ) + 1) := by
  unfold Paillier.getG
  rw [h.initialized hN, except_ok_bind, h.g_eq]

/-- A message below the modulus is encrypted, whatever is drawn. -/
theorem enc_eq (h : Public k N) (hN : 1 < N) (hm : m < N) : ∃ c, k.enc m r = .ok c ∧
    0 ≤ c ∧ c < (N : ℤ) * N ∧ c ≡ (1 + N) ^ m * r ^ N [ZMOD N * N] := by
  have hN2 : (0 : ℤ) < N * N := by positivity
  have hguard : ¬ ((m : ℤ) ≥ k.n ∨ (m : ℤ) < 0) := by
    rw [h.n_eq]
    omega
  have henc : k.enc m r =
      .ok (aTimesBModC (aExpBModC k.g m k.n2) (aExpBModC r k.n k.n2) k.n2) := by
    unfold enc
    rw [h.initialized hN, except_ok_bind, refuseIf_of_not hguard, except_ok_bind]
  refine ⟨_, henc, ?_⟩
  rw [h.n_eq, h.n2_eq, h.g_eq, aExpBModC_natCast, aExpBModC_natCast, add_comm (N : ℤ) 1]
  exact ⟨Int.emod_nonneg _ hN2.ne', Int.emod_lt_of_pos _ hN2,
    (aTimesBModC_modEq _ _ _).trans ((Int.mod_modEq _ _).mul (Int.mod_modEq _ _))⟩

/-- The same for a number, with the draw named. -/
theorem enc_cipher {m : ℤ} (h : Public k N) (hN : 1 < N) (hm0 : 0 ≤ m) (hm : m < N) (r : ℤ) :
    ∃ c, k.enc m r = .ok c ∧ 0 ≤ c ∧ c < (N : ℤ) * N ∧ c ≡ cipher N m.toNat r [ZMOD N * N] := by
  obtain ⟨m, rfl⟩ := Int.eq_ofNat_of_zero_le hm0
  exact enc_eq h hN (by exact_mod_cast hm)

/-- So only the residue of the draw modulo the modulus counts. -/
theorem enc_congr {m r r' : ℤ} (h : Public k N) (hN : 1 < N) (hm0 : 0 ≤ m) (hm : m < N)
    (hr : r ≡ r' [ZMOD N]) : k.enc m r = k.enc m r' := by
  obtain ⟨c, hc, h0, hlt, hmod⟩ := enc_cipher h hN hm0 hm r
  obtain ⟨c', hc', h0', hlt', hmod'⟩ := enc_cipher h hN hm0 hm r'
  have heq : c ≡ c' [ZMOD N * N] := hmod.trans ((cipher_congr hr).trans hmod'.symm)
  rw [Int.ModEq, Int.emod_eq_of_lt h0 hlt, Int.emod_eq_of_lt h0' hlt'] at heq
  rw [hc, hc', heq]

/-- A message below the modulus is encrypted to a residue that carries it. -/
theorem enc_ok (h : Public k N) (hN : 1 < N) (hm : m < N) (hr : IsCoprime r (N : ℤ)) :
    ∃ c, k.enc m r = .ok c ∧ Carries N c m := by
  obtain ⟨c, henc, -, -, hc⟩ := enc_eq h hN hm
  exact ⟨c, henc, r, hr, hc⟩

/-- **Decryption.**  The owner decrypts a reduced residue to what it carries. -/
theorem dec_ok {bits p q : ℕ} (hk : KeyPrimes bits p q) (hb : 2 ≤ bits)
    (h : Carries (p * q) c m) (hc0 : 0 ≤ c) (hc : c < (p * q : ℤ) * (p * q)) :
    (ofPrimes p q).dec c = .ok (m % (p * q : ℤ)) := by
  have hn := hk.one_lt
  have hcop := h.isCoprime
  push_cast at hcop
  have hnotdvd : ∀ r : ℕ, r.Prime → IsCoprime c (r : ℤ) → c % r ≠ 0 := by
    intro r hr hcr hmod
    have hdvd : (r : ℤ) ∣ 1 := by
      obtain ⟨a, b, hab⟩ := hcr
      rw [← hab]
      exact dvd_add ((Int.dvd_of_emod_eq_zero hmod).mul_left a) (dvd_mul_left _ _)
    have := Int.le_of_dvd one_pos hdvd
    have := hr.two_le
    omega
  have hcp := hnotdvd p hk.prime_p hcop.of_mul_right_left
  have hcq := hnotdvd q hk.prime_q hcop.of_mul_right_right
  have hpos : 0 < c := by
    rcases hc0.lt_or_eq with hlt | heq
    · exact hlt
    · exact absurd (by rw [← heq, Int.zero_emod]) hcp
  have hinit := (public_ofPrimes p q).initialized (by exact_mod_cast hn)
  have hL : (ofPrimes p q).L (aExpBModC c (ofPrimes p q).y (ofPrimes p q).n2) =
      m * ((p - 1) * (q - 1) : ℕ) % (p * q) := by
    have hy : (ofPrimes p q).y = (((p - 1) * (q - 1) : ℕ) : ℤ) := by
      push_cast [Nat.cast_sub hk.prime_p.one_le, Nat.cast_sub hk.prime_q.one_le]
      rfl
    rw [hy, aExpBModC_natCast]
    show (c ^ ((p - 1) * (q - 1)) % ((p * q : ℤ) * (p * q)) - 1) / (p * q : ℤ) = _
    rw [h.pow_eq hk.prime_p hk.prime_q hk.ne, add_sub_cancel_left,
      Int.mul_ediv_cancel_left _ (by omega)]
  have hu : (((p - 1) * (q - 1) : ℕ) : ℤ) * (ofPrimes p q).u ≡ 1 [ZMOD p * q] := by
    push_cast [Nat.cast_sub hk.prime_p.one_le, Nat.cast_sub hk.prime_q.one_le]
    exact mul_inverseMod_modEq (hk.coprime_phi hb)
  have hval : aTimesBModC (m * ((p - 1) * (q - 1) : ℕ) % (p * q)) (ofPrimes p q).u
      (ofPrimes p q).n = m % (p * q : ℤ) := by
    have h1 : (m * ((p - 1) * (q - 1) : ℕ) % (p * q) : ℤ) * (ofPrimes p q).u ≡
        m * ((p - 1) * (q - 1) : ℕ) * (ofPrimes p q).u [ZMOD p * q] :=
      (Int.mod_modEq _ _).mul_right _
    have h2 : (m : ℤ) * ((p - 1) * (q - 1) : ℕ) * (ofPrimes p q).u ≡ m [ZMOD p * q] := by
      rw [mul_assoc]
      simpa using hu.mul_left (m : ℤ)
    exact h1.trans h2
  have hclient : ¬ ((ofPrimes p q).p = -1 ∨ (ofPrimes p q).q = -1) := by
    show ¬ ((p : ℤ) = -1 ∨ (q : ℤ) = -1)
    omega
  have hrange : ¬ (c ≤ 0 ∨ c ≥ (ofPrimes p q).n2) := by
    show ¬ (c ≤ 0 ∨ c ≥ (p * q : ℤ) * (p * q))
    omega
  have hdiv : ¬ (c % (ofPrimes p q).p = 0 ∨ c % (ofPrimes p q).q = 0) := by
    rintro (h0 | h0)
    · exact hcp h0
    · exact hcq h0
  unfold dec
  rw [hinit, except_ok_bind, refuseIf_of_not hclient, except_ok_bind, refuseIf_of_not hrange,
    except_ok_bind, refuseIf_of_not hdiv, except_ok_bind, hL, hval]

/-! ## Which draws decrypt -/

/-- What `dec` returns is the decryption of a number that neither prime divides. -/
theorem not_dvd_of_dec {p q c x : ℤ} (h : (ofPrimes p q).dec c = .ok x) : ¬ p ∣ c ∧ ¬ q ∣ c := by
  simp only [dec, except_bind_eq_ok, refuseIf_eq_ok] at h
  obtain ⟨_, _, _, _, _, _, _, hdiv, -⟩ := h
  rw [not_or] at hdiv
  exact ⟨fun hp => hdiv.1 (Int.emod_eq_zero_of_dvd hp),
    fun hq => hdiv.2 (Int.emod_eq_zero_of_dvd hq)⟩

/-- The owner of the primes decrypts to `m` what was encrypted from it with the draw `r`. -/
def Decrypts (p q : ℤ) (k : Paillier) (m r : ℤ) : Prop :=
  ∃ c, k.enc m r = .ok c ∧ (ofPrimes p q).dec c = .ok m

theorem decrypts_iff {bits p q : ℕ} (hk : KeyPrimes bits p q) (hb : 2 ≤ bits)
    (h : Public k (p * q)) (hm : m < p * q) :
    Decrypts p q k m r ↔ IsCoprime r (p * q : ℤ) := by
  have hN : 1 < p * q := by exact_mod_cast hk.one_lt
  obtain ⟨c, henc, hc0, hc, hmod⟩ := @enc_eq k (p * q) m r h hN hm
  push_cast at hc hmod
  have hcastm : (m : ℤ) % (p * q) = m := Int.emod_eq_of_lt (by omega) (by exact_mod_cast hm)
  constructor
  · rintro ⟨c', henc', hdec⟩
    obtain rfl : c = c' := Except.ok.inj (henc.symm.trans henc')
    obtain ⟨hp, hq⟩ := not_dvd_of_dec hdec
    -- a prime that divides the draw divides the ciphertext
    have hdvd : ∀ l : ℕ, (l : ℤ) ∣ p * q → (l : ℤ) ∣ r → (l : ℤ) ∣ c := by
      intro l hl hr
      have hpow : (l : ℤ) ∣ (1 + p * q) ^ m * r ^ (p * q) :=
        (dvd_pow hr (by omega)).mul_left _
      exact (hmod.of_dvd (hl.mul_right _)).dvd_iff.2 hpow
    have hcop : ∀ l : ℕ, l.Prime → ¬ (l : ℤ) ∣ r → IsCoprime r (l : ℤ) := fun l hl hr =>
      ((Nat.prime_iff_prime_int.1 hl).coprime_iff_not_dvd.2 hr).symm
    exact (hcop p hk.prime_p fun hr => hp (hdvd p (dvd_mul_right _ _) hr)).mul_right
      (hcop q hk.prime_q fun hr => hq (hdvd q (dvd_mul_left _ _) hr))
  · intro hr
    have hcarries : Carries (p * q) c m := ⟨r, by exact_mod_cast hr, by exact_mod_cast hmod⟩
    refine ⟨c, henc, ?_⟩
    rw [dec_ok hk hb hcarries hc0 hc, hcastm]

/-- A ciphertext of the owner or of the client decrypts to its message exactly when the
draw is coprime to `n`. -/
theorem enc_dec_iff {bits p q : ℕ} (hk : KeyPrimes bits p q) (hb : 2 ≤ bits) {m r : ℤ}
    (hm0 : 0 ≤ m) (hm : m < p * q) :
    let owner := ofPrimes p q
    let client := ofKey owner.n owner.g
    (Decrypts p q owner m r ↔ IsCoprime r (p * q : ℤ)) ∧
      (Decrypts p q client m r ↔ IsCoprime r (p * q : ℤ)) := by
  obtain ⟨m, rfl⟩ := Int.eq_ofNat_of_zero_le hm0
  have hlt : m < p * q := by exact_mod_cast hm
  exact ⟨decrypts_iff hk hb (public_ofPrimes p q) hlt,
    decrypts_iff hk hb (public_ofKey (public_ofPrimes p q)) hlt⟩

theorem keyPrimes_five_seven : KeyPrimes 2 5 7 :=
  { prime_p := Nat.prime_five, prime_q := Nat.prime_seven, ne := by decide, le_p := by decide,
    p_le := by decide, le_q := by decide, q_le := by decide }

theorem decrypts_five_seven : Decrypts 5 7 (ofPrimes 5 7) 3 2 :=
  (@enc_dec_iff 2 5 7 keyPrimes_five_seven le_rfl 3 2 (by decide) (by decide)).1.2
    ⟨18, -1, by decide⟩

/-- The draw `n` itself gives a ciphertext that the owner refuses. -/
theorem not_decrypts_draw_n : ¬ Decrypts 5 7 (ofPrimes 5 7) 3 35 := by
  rintro ⟨c, henc, hdec⟩
  have hzero : (ofPrimes 5 7).enc 3 35 = .ok 0 := rfl
  rw [hzero, Except.ok.injEq] at henc
  exact (not_dvd_of_dec hdec).1 (henc ▸ dvd_zero _)

/-! ## Products of ciphertexts -/

/-- A factor of a product: the encryption of `m` with the draw `r`, by the owner or by the
client, to the power `t`. -/
structure Factor where
  byOwner : Bool
  m : ℤ
  r : ℤ
  t : ℕ

/-- The ciphertext of a factor.  The client's object is built from the owner's `n` and `g`. -/
def Factor.enc (p q : ℤ) (x : Factor) : Except Exn ℤ :=
  let owner := ofPrimes p q
  let client := ofKey owner.n owner.g
  (if x.byOwner then owner else client).enc x.m x.r

/-- What is encrypted is a message below `n`, with a draw coprime to `n`. -/
structure Factor.Valid (n : ℤ) (x : Factor) : Prop where
  nonneg : 0 ≤ x.m
  lt : x.m < n
  coprime : IsCoprime x.r n

/-- Either object encrypts a factor to a residue that carries its message. -/
theorem Factor.enc_ok {p q : ℕ} (hn : 1 < p * q) {x : Factor} (hx : x.Valid (p * q)) :
    ∃ c, x.enc p q = .ok c ∧ Carries (p * q) c x.m.toNat := by
  have hpub : Public (if x.byOwner then ofPrimes p q
      else ofKey (ofPrimes p q).n (ofPrimes p q).g) (p * q) := by
    have howner := public_ofPrimes p q
    cases x.byOwner with
    | true => exact howner
    | false => exact public_ofKey howner
  have hm : (x.m.toNat : ℤ) = x.m := Int.toNat_of_nonneg hx.nonneg
  have hlt : x.m.toNat < p * q := by
    have := hx.lt
    zify
    rwa [hm]
  have henc := Paillier.enc_ok hpub hn hlt (by exact_mod_cast hx.coprime)
  rwa [hm] at henc

/-- **Decryption is homomorphic.**  A product of powers of ciphertexts is accepted, and
decrypts to the sum of the multiples of their messages. -/
theorem dec_product {bits p q : ℕ} (hk : KeyPrimes bits p q) (hb : 2 ≤ bits) {factors : List Factor}
    (hfactors : ∀ x ∈ factors, x.Valid (p * q)) :
    ∃ cs, factors.mapM (Factor.enc p q) = .ok cs ∧
      (ofPrimes p q).dec
          ((List.zipWith (fun c x => c ^ x.t) cs factors).prod % (ofPrimes p q).n2) =
        .ok ((factors.map fun x => (x.t : ℤ) * x.m).sum % (ofPrimes p q).n) := by
  have hn := hk.one_lt
  have hn2 : (0 : ℤ) < (p * q : ℤ) * (p * q) := mul_pos (by omega) (by omega)
  have henc : ∀ x ∈ factors, ∃ c, x.enc p q = .ok c ∧ Carries (p * q) c x.m.toNat :=
    fun x hx => Factor.enc_ok (by exact_mod_cast hn) (hfactors x hx)
  choose! c hc using henc
  refine ⟨factors.map c, mapM_of_ok fun x hx => (hc x hx).1, ?_⟩
  have hzip : List.zipWith (fun c x => c ^ x.t) (factors.map c) factors =
      factors.map fun x => c x ^ x.t := by
    rw [List.zipWith_map_left, List.zipWith_self]
  have hcarries : Carries (p * q) (factors.map fun x => c x ^ x.t).prod
      (factors.map fun x => x.t * x.m.toNat).sum :=
    Carries.prod fun x hx => (hc x hx).2.pow x.t
  have hred : Carries (p * q) ((factors.map fun x => c x ^ x.t).prod %
      ((p * q : ℕ) * (p * q : ℕ) : ℤ)) (factors.map fun x => x.t * x.m.toNat).sum :=
    hcarries.of_modEq (Int.mod_modEq _ _)
  push_cast at hred
  have hdec := dec_ok hk hb hred (Int.emod_nonneg _ hn2.ne') (Int.emod_lt_of_pos _ hn2)
  have hsum : ((factors.map fun x => x.t * x.m.toNat).sum : ℕ) =
      (factors.map fun x => (x.t : ℤ) * x.m).sum := by
    rw [Nat.cast_list_sum, List.map_map]
    refine congrArg List.sum (List.map_congr_left fun x hx => ?_)
    simp [Int.toNat_of_nonneg (hfactors x hx).nonneg]
  rw [hsum] at hdec
  rw [hzip]
  exact hdec

/-- `dec_product` for a message of the owner and two copies of one of the client. -/
theorem dec_product_small : ∃ cs, [(⟨true, 3, 2, 1⟩ : Factor), ⟨false, 4, 3, 2⟩].mapM
    (Factor.enc 5 7) = .ok cs ∧ (ofPrimes 5 7).dec ((List.zipWith (fun c x => c ^ x.t) cs
      [(⟨true, 3, 2, 1⟩ : Factor), ⟨false, 4, 3, 2⟩]).prod % (ofPrimes 5 7).n2) = .ok 11 :=
  @dec_product 2 5 7 keyPrimes_five_seven le_rfl _ fun x hx => by
    simp only [List.mem_cons, List.not_mem_nil, or_false] at hx
    rcases hx with rfl | rfl
    · exact ⟨by decide, by decide, ⟨18, -1, by decide⟩⟩
    · exact ⟨by decide, by decide, ⟨12, -1, by decide⟩⟩

end Paillier

end SellingInformation.SharedSignature
