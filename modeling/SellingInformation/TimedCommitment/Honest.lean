import SellingInformation.TimedCommitment.FindOrder

/-!
# An honest commitment

The committer knows `phi` and works with reduced exponents; the receiver squares
modulo `n`.  For a base coprime to `n` both arrive at the same powers of two.

* `commit_ok` — every sanity check of `Commiter::commit` passes, and what the
  commitment then is (`honestCom`);
* `openCommitment_honest`, `forceOpen_honest`, `forceOpenSmart_honest` — each way
  to open gives the first `l` bits, where `l` is the length modulo `2 ^ 32`;
* `opensTo_iff` — so the whole message comes back exactly when `unsigned` can hold
  its length, and the commitment is made at all exactly when it can hold `K + 1`.
-/

namespace SellingInformation.TimedCommitment

open CryptoPP Common Fallible

section
variable {p q : ℕ}

/-! ## Committing -/

/-- The committer's reduced exponent does what the power of two it stands for does. -/
theorem aExpBModC_phi (hp : p.Prime) (hq : q.Prime) (hpq : p ≠ q) {g : ℤ}
    (hg : IsCoprime g (p * q : ℤ)) {x : ℤ} {e : ℕ} (hx : x.toNat = e) :
    aExpBModC g (aExpBModC 2 x (((p : ℤ) - 1) * (q - 1))) (p * q) = g ^ 2 ^ e % (p * q) := by
  have hred : aExpBModC 2 x (((p : ℤ) - 1) * (q - 1)) = (2 ^ e % ((p - 1) * (q - 1)) : ℕ) := by
    rw [phi_eq hp.one_le hq.one_le, aExpBModC, hx]
    push_cast
    rfl
  rw [hred, aExpBModC_natCast]
  exact TwoPrimes.pow_modEq_pow (TwoPrimes.pow_modEq_one hp hq hpq hg) (Nat.mod_modEq _ _)

theorem isCoprime_getG {n h : ℤ} (hh : IsCoprime h n) : IsCoprime (getG n h) n := by
  obtain ⟨a, b, hab⟩ := hh.pow_left (m := mult.toNat)
  refine ⟨a, b + a * (h ^ mult.toNat / n), ?_⟩
  have hdiv := Int.emod_add_mul_ediv (h ^ mult.toNat) n
  rw [getG_eq]
  linear_combination hab + a * hdiv

theorem toNat_two_pow_sub (l K : ℕ) : ((2 : ℤ) ^ K - l).toNat = 2 ^ K - l := by
  have h : (2 : ℤ) ^ K = (2 ^ K : ℕ) := by
    push_cast
    rfl
  rw [h, Int.toNat_sub]

/-- The value behind the bits: the `2 ^ (2 ^ K - l)`-th power of the base. -/
def honestSecret (n h : ℤ) (K l : ℕ) : ℤ := getG n h ^ 2 ^ (2 ^ K - l) % n

/-- The commitment an honest committer makes to `m`. -/
def honestCom (n h : ℤ) (K : UInt32) (m : List Bool) : Commitment :=
  let l := UInt32.ofNat m.length
  { K, n, h, l
    g := getG n h
    u := getG n h ^ 2 ^ 2 ^ K.toNat % n
    S := (maskBits n (m.take l.toNat) (honestSecret n h K.toNat l.toNat)).1
    W := (List.range (K.toNat + 1)).map fun i => getG n h ^ 2 ^ 2 ^ i % n }

variable {n h : ℤ} {K : UInt32} {m : List Bool}

theorem length_unsigned_le (m : List Bool) : (UInt32.ofNat m.length).toNat ≤ m.length := by
  rw [UInt32.toNat_ofNat']
  exact Nat.mod_le _ _

@[simp] theorem length_take_unsigned (m : List Bool) :
    (m.take (UInt32.ofNat m.length).toNat).length = (UInt32.ofNat m.length).toNat := by
  rw [List.length_take, min_eq_left (length_unsigned_le m)]

theorem honestSecret_emod (K l : ℕ) : honestSecret n h K l % n = honestSecret n h K l :=
  Int.emod_emod_of_dvd _ dvd_rfl

/-- Squaring the secret `l` times gives the public value. -/
theorem honestSecret_pow {K l : ℕ} (hl : l ≤ 2 ^ K) :
    honestSecret n h K l ^ 2 ^ l % n = getG n h ^ 2 ^ 2 ^ K % n := by
  have hpow : (getG n h ^ 2 ^ (2 ^ K - l)) ^ 2 ^ l = getG n h ^ 2 ^ 2 ^ K := by
    rw [← pow_mul, ← pow_add, Nat.sub_add_cancel hl]
  rw [← hpow]
  exact (Int.mod_modEq _ _).pow _

theorem honestCom_W (i : ℕ) (hi : i ≤ K.toNat) :
    (honestCom n h K m).W[i]? = some (getG n h ^ 2 ^ 2 ^ i % n) := by
  have hget : (List.range (K.toNat + 1))[i]? = some i := List.getElem?_range (by omega)
  simp only [honestCom, List.getElem?_map, hget, Option.map_some]

theorem honestCom_W_zero :
    (honestCom n h K m).W[0]? = some (getG n h * getG n h % n) := by
  rw [honestCom_W 0 (Nat.zero_le _)]
  ring_nf

theorem honestCom_W_one (hK : 1 ≤ K.toNat) : elemAt (honestCom n h K m).W 1 =
    .ok (getG n h * getG n h * getG n h * getG n h % n) := by
  rw [elemAt_eq_ok, honestCom_W 1 hK]
  ring_nf

theorem toNat_add_one (hwrap : K.toNat + 1 < 2 ^ 32) : (K + 1).toNat = K.toNat + 1 := by
  rw [UInt32.toNat_add, UInt32.toNat_one, Nat.mod_eq_of_lt hwrap]

/-- An honest commitment is accepted, unless `K + 1` wraps. -/
theorem acceptCommitment_honest (hn : n ≠ 0) (hwrap : K.toNat + 1 < 2 ^ 32) (r : Receiver) :
    Receiver.acceptCommitment (honestCom n h K m) r =
      .ok () { r with com := honestCom n h K m } := by
  refine Receiver.acceptCommitment_eq_ok.2 ⟨rfl, hn, rfl, ?_, honestCom_W_zero, ?_⟩
  · simp [honestCom, toNat_add_one hwrap]
  · exact honestCom_W _ le_rfl

theorem resizeCheck_eq_ok : resizeCheck K = .ok () ↔ K.toNat + 1 < 2 ^ 32 := by
  have hlt := K.toNat_lt
  unfold resizeCheck
  rw [refuseIf_eq_ok, not_not, UInt32.toNat_add, UInt32.toNat_one]
  constructor
  · intro h
    by_contra hge
    have hmax : K.toNat + 1 = 2 ^ 32 := by omega
    rw [hmax, Nat.mod_self] at h
    omega
  · intro h
    rw [Nat.mod_eq_of_lt h]
    omega

/-- What the constructor makes of two safe primes, whatever was committed to since.  Each
commitment of a receiver is kept with a mask. -/
structure Commiter.Honest (p q : ℕ) (c : Commiter) : Prop where
  safe_p : IsSafePrime p
  safe_q : IsSafePrime q
  ne : p ≠ q
  p_eq : c.p = p
  q_eq : c.q = q
  n_eq : c.n = p * q
  phi_eq : c.phi = ((p : ℤ) - 1) * (q - 1)
  masked : c.commits.length ≤ c.alpha.length

theorem Commiter.honest_ofPrimes (hp : IsSafePrime p) (hq : IsSafePrime q) (hpq : p ≠ q) :
    (Commiter.ofPrimes p q).Honest p q :=
  ⟨hp, hq, hpq, rfl, rfl, rfl, rfl, le_rfl⟩

section
variable {c : Commiter}

/-- The exponents that the committer reduces modulo `phi` do what they stand for. -/
theorem Commiter.Honest.aExpBModC_phi (hc : c.Honest p q) (hh : IsCoprime h (p * q : ℤ)) {x : ℤ}
    {e : ℕ} (hx : x.toNat = e) : aExpBModC (getG c.n h) (aExpBModC 2 x c.phi) c.n =
      getG (p * q) h ^ 2 ^ e % (p * q) := by
  rw [hc.n_eq, hc.phi_eq]
  exact TimedCommitment.aExpBModC_phi hc.safe_p.prime hc.safe_q.prime hc.ne (isCoprime_getG hh) hx

theorem toNat_two_pow (i : ℕ) : ((2 : ℤ) ^ i).toNat = 2 ^ i := by
  simpa using toNat_two_pow_sub 0 i

/-- The vector `W`, as the committer computes it. -/
theorem Commiter.Honest.W_eq (hc : c.Honest p q) (hh : IsCoprime h (p * q : ℤ)) :
    ((List.range (K.toNat + 1)).map fun i =>
      aExpBModC (getG c.n h) (aExpBModC 2 (2 ^ i) c.phi) c.n) = (honestCom (p * q) h K m).W :=
  List.map_congr_left fun i _ => hc.aExpBModC_phi hh (toNat_two_pow i)

/-- Up to the vectors it fills, the honest committer passes its own sanity checks. -/
theorem commit_apply (hc : c.Honest p q) (hK : 1 ≤ K.toNat) (hm : m.length ≤ 2 ^ K.toNat)
    (hh : IsCoprime h (p * q : ℤ)) : ∃ order,
      0 < order ∧ getG (p * q) h ^ order.toNat ≡ 1 [ZMOD p * q] ∧
      Commiter.commit K m h c = match resizeCheck K with
        | .ok _ => .ok (honestCom (p * q) h K m)
            { c with order, com := honestCom (p * q) h K m }
        | .error e => .error e { c with order } := by
  have hl := (length_unsigned_le m).trans hm
  obtain ⟨order, horder, hpos, hone⟩ := findOrder_ok hc.safe_p hc.safe_q hc.ne (isCoprime_getG hh)
  have hsecret : aExpBModC (getG c.n h) (aExpBModC 2
      (2 ^ K.toNat - (UInt32.ofNat m.length).toNat) c.phi) c.n =
        honestSecret (p * q) h K.toNat (UInt32.ofNat m.length).toNat :=
    hc.aExpBModC_phi hh (toNat_two_pow_sub _ _)
  have hu := hc.aExpBModC_phi hh (toNat_two_pow K.toNat)
  have hmask : (maskBits ((p : ℤ) * q) (m.take (UInt32.ofNat m.length).toNat)
      (honestSecret (p * q) h K.toNat (UInt32.ofNat m.length).toNat)).2 =
        getG (p * q) h ^ 2 ^ 2 ^ K.toNat % (p * q) := by
    rw [maskBits_snd _ (honestSecret_emod _ _), length_take_unsigned, honestSecret_pow hl]
  have hW := hc.W_eq (K := K) (m := m) hh
  rw [hc.n_eq, hc.phi_eq] at hsecret hu hW
  refine ⟨order, hpos, hone, ?_⟩
  simp only [Commiter.commit, hc.p_eq, hc.q_eq, hc.n_eq, hc.phi_eq, bind_apply, get_apply, lift_ok,
    modify_apply, horder, hsecret, hmask, hu, throwIf, ne_eq, not_true_eq_false, if_false,
    pure_apply]
  cases resizeCheck K with
  | error e => rfl
  | ok _ =>
    simp only [lift_ok, hW, honestCom_W_zero, honestCom_W_one hK, honestCom_W _ le_rfl, pure_apply,
      not_true_eq_false, if_false]
    rfl

/-- What a commitment that was returned is, and what it leaves in the committer. -/
theorem commit_spec (hc : c.Honest p q) (hh : IsCoprime h (p * q : ℤ)) {com : Commitment}
    {c' : Commiter} (hcommit : Commiter.commit K m h c = .ok com c') :
    com = honestCom (p * q) h K m ∧ K.toNat + 1 < 2 ^ 32 ∧ ∃ order, c' = { c with order, com } ∧
      findOrder p q (getG (p * q) h) = .ok order ∧ 0 < order ∧
      getG (p * q) h ^ order.toNat ≡ 1 [ZMOD p * q] := by
  obtain ⟨order, horder, hpos, hone⟩ := findOrder_ok hc.safe_p hc.safe_q hc.ne (isCoprime_getG hh)
  have hsecret := hc.aExpBModC_phi hh (toNat_two_pow_sub (UInt32.ofNat m.length).toNat K.toNat)
  have hW := hc.W_eq (K := K) (m := m) hh
  simp only [Commiter.commit, bind_eq_ok, get_apply, lift_eq_ok, modify_apply, throwIf_eq_ok,
    pure_apply, ne_eq, not_not] at hcommit
  obtain ⟨_, _, hget, order', _, ⟨horder', rfl⟩, _, _, hset, _, _, ⟨hu, rfl⟩, _, _, ⟨hresize, rfl⟩,
    _, _, ⟨-, rfl⟩, _, _, ⟨-, rfl⟩, _, _, ⟨-, rfl⟩, _, _, ⟨-, rfl⟩, _, _, hset', hpure⟩ := hcommit
  cases hget
  cases hset
  cases hset'
  cases hpure
  rw [hc.p_eq, hc.q_eq, hc.n_eq, horder] at horder'
  cases horder'
  rw [hsecret, hc.aExpBModC_phi hh (toNat_two_pow K.toNat)] at hu
  refine ⟨?_, resizeCheck_eq_ok.1 hresize, order, rfl, horder, hpos, hone⟩
  rw [hsecret, hu, hW, hc.n_eq]
  rfl

end

/-! ## Opening -/

/-- The secret decodes to the first `l` bits of the message. -/
theorem decodeChecked_honest {r : Receiver} (hn : n ≠ 0) (hr : r.com = honestCom n h K m)
    (hm : m.length ≤ 2 ^ K.toNat) :
    r.decodeChecked (honestSecret n h K.toNat (UInt32.ofNat m.length).toNat) =
      .ok (m.take (UInt32.ofNat m.length).toNat) := by
  have hl := (length_unsigned_le m).trans hm
  have hS : r.com.S.length = r.com.l.toNat := by
    rw [hr]
    exact (length_maskBits _ _ _).trans (length_take_unsigned m)
  have hu : honestSecret n h K.toNat (UInt32.ofNat m.length).toNat ^ 2 ^ r.com.l.toNat % r.com.n =
      r.com.u := by
    rw [hr]
    exact honestSecret_pow hl
  have hv : honestSecret n h K.toNat (UInt32.ofNat m.length).toNat % r.com.n =
      honestSecret n h K.toNat (UInt32.ofNat m.length).toNat := by
    rw [hr]
    exact honestSecret_emod _ _
  rw [Receiver.decodeChecked_of_pow (by rwa [hr]) hv hS.ge hu, List.take_of_length_le hS.le, hr]
  exact congrArg Except.ok (Prod.ext_iff.1 (maskBits_maskBits _ _ _)).1

theorem openCommitment_honest (hp : p.Prime) (hq : q.Prime) (hpq : p ≠ q)
    (hm : m.length ≤ 2 ^ K.toNat) (hh : IsCoprime h (p * q : ℤ)) {c : Commiter} {r : Receiver}
    (hphi : c.phi = ((p : ℤ) - 1) * (q - 1)) (hn : c.n = p * q)
    (hc : c.com = honestCom (p * q) h K m) (hr : r.com = honestCom (p * q) h K m) :
    openCommitment c r = .ok (m.take (UInt32.ofNat m.length).toNat) := by
  have hl := (length_unsigned_le m).trans hm
  have hvp : c.open = h ^ 2 ^ (2 ^ K.toNat - (UInt32.ofNat m.length).toNat) % (p * q) := by
    rw [Commiter.open, hc, hphi, hn]
    exact aExpBModC_phi hp hq hpq hh (toNat_two_pow_sub _ _)
  have hsecret : getG (p * q) (h ^ 2 ^ (2 ^ K.toNat - (UInt32.ofNat m.length).toNat) % (p * q)) =
      honestSecret (p * q) h K.toNat (UInt32.ofNat m.length).toNat := by
    have h1 := (Int.mod_modEq (h ^ 2 ^ (2 ^ K.toNat - (UInt32.ofNat m.length).toNat))
      ((p : ℤ) * q)).pow mult.toNat
    have h2 := (Int.mod_modEq (h ^ mult.toNat) ((p : ℤ) * q)).pow
      (2 ^ (2 ^ K.toNat - (UInt32.ofNat m.length).toNat))
    rw [← pow_mul, Nat.mul_comm, pow_mul] at h1
    exact h1.trans h2.symm
  have hrn : r.com.n = p * q := by rw [hr]; rfl
  unfold openCommitment
  rw [Receiver.open, hvp, hrn, hsecret]
  exact decodeChecked_honest (TwoPrimes.cast_mul_ne_zero hp hq) hr hm

theorem forceOpen_honest {r : Receiver} (hn : n ≠ 0) (hr : r.com = honestCom n h K m)
    (hm : m.length ≤ 2 ^ K.toNat) :
    r.forceOpen = .ok (m.take (UInt32.ofNat m.length).toNat) := by
  have hl := (length_unsigned_le m).trans hm
  have hv : Receiver.squareLoop r.com.n (2 ^ r.com.K.toNat - r.com.l.toNat) r.com.g =
      honestSecret n h K.toNat (UInt32.ofNat m.length).toNat := by
    rw [hr]
    show Receiver.squareLoop n (2 ^ K.toNat - (UInt32.ofNat m.length).toNat) (getG n h) = _
    rw [squareLoop_eq (getG_emod _ _), toNat_two_pow_sub _ _, honestSecret]
  unfold Receiver.forceOpen
  rw [hv]
  exact decodeChecked_honest hn hr hm

/-- The shortcut through `W[K - 1]` makes as many squarings too many as the length is
above half of `2 ^ K`. -/
theorem forceOpenSmart_apply {r : Receiver} (hr : r.com = honestCom n h K m)
    (hK : 1 ≤ K.toNat) (hm : m.length ≤ 2 ^ K.toNat) :
    r.forceOpenSmart = r.decodeChecked (getG n h ^ 2 ^ (2 ^ K.toNat -
      (UInt32.ofNat m.length).toNat + ((UInt32.ofNat m.length).toNat - 2 ^ (K.toNat - 1))) % n) := by
  have hl := (length_unsigned_le m).trans hm
  have hhalf : 2 ^ K.toNat = 2 ^ (K.toNat - 1) + 2 ^ (K.toNat - 1) := by
    rw [← two_mul, ← pow_succ', Nat.sub_add_cancel hK]
  have hK1 : (K - 1).toNat = K.toNat - 1 := by
    rw [UInt32.toNat_sub_of_le _ _ (by rwa [UInt32.le_iff_toNat_le]), UInt32.toNat_one]
  have hW : elemAt r.com.W (r.com.K - 1).toNat = .ok (getG n h ^ 2 ^ 2 ^ (K.toNat - 1) % n) := by
    rw [elemAt_eq_ok, hr]
    show (honestCom n h K m).W[(K - 1).toNat]? = _
    rw [hK1]
    exact honestCom_W _ (Nat.sub_le _ _)
  have hv : Receiver.squareLoop r.com.n (2 ^ (r.com.K - 1).toNat - r.com.l.toNat)
      (getG n h ^ 2 ^ 2 ^ (K.toNat - 1) % n) = getG n h ^ 2 ^ (2 ^ K.toNat -
        (UInt32.ofNat m.length).toNat + ((UInt32.ofNat m.length).toNat - 2 ^ (K.toNat - 1))) % n := by
    rw [hr]
    show Receiver.squareLoop n (2 ^ (K - 1).toNat - (UInt32.ofNat m.length).toNat) _ = _
    rw [squareLoop_eq (Int.emod_emod_of_dvd _ dvd_rfl), hK1, toNat_two_pow_sub]
    have hexp : 2 ^ 2 ^ (K.toNat - 1) * 2 ^ (2 ^ (K.toNat - 1) - (UInt32.ofNat m.length).toNat) =
        2 ^ (2 ^ K.toNat - (UInt32.ofNat m.length).toNat +
          ((UInt32.ofNat m.length).toNat - 2 ^ (K.toNat - 1))) := by
      rw [← pow_add]
      congr 1
      omega
    rw [← hexp, pow_mul]
    exact (Int.mod_modEq _ _).pow _
  unfold Receiver.forceOpenSmart
  rw [hW, except_ok_bind, hv]

/-- For a length of at most half it arrives at the same secret. -/
theorem forceOpenSmart_honest {r : Receiver} (hn : n ≠ 0) (hr : r.com = honestCom n h K m)
    (hK : 1 ≤ K.toNat) (hm : m.length ≤ 2 ^ (K.toNat - 1)) :
    r.forceOpenSmart = .ok (m.take (UInt32.ofNat m.length).toNat) := by
  have hl := (length_unsigned_le m).trans hm
  have hle : m.length ≤ 2 ^ K.toNat := hm.trans (Nat.pow_le_pow_right (by decide) (Nat.sub_le _ _))
  rw [forceOpenSmart_apply hr hK hle, Nat.sub_eq_zero_of_le hl, Nat.add_zero]
  exact decodeChecked_honest hn hr hle

/-! ## What comes back -/

/-- With the primes `p`, `q` and the base `h`, a commitment to `m` is made and
accepted, and opening it gives `m` back, both ways. -/
def OpensTo (p q : ℤ) (K : UInt32) (m : List Bool) (h : ℤ) (r : Receiver) : Prop :=
  ∃ c com c' r', Commiter.new p q = .ok c ∧ Commiter.commit K m h c = .ok com c' ∧
    Receiver.acceptCommitment com r = .ok () r' ∧
    openCommitment c' r' = .ok m ∧ r'.forceOpen = .ok m

theorem new_ofPrimes (hp : IsSafePrime p) (hq : IsSafePrime q) :
    Commiter.new p q = .ok (Commiter.ofPrimes p q) := by
  have h1 : ¬ (p : ℤ) % 4 ≠ 3 := by
    have := hp.mod_four
    omega
  have h2 : ¬ (q : ℤ) % 4 ≠ 3 := by
    have := hq.mod_four
    omega
  simp only [Commiter.new, Commiter.genPrime, refuseIf_of_not h1, refuseIf_of_not h2,
    except_ok_bind]

theorem take_unsigned_eq_iff : m.take (UInt32.ofNat m.length).toNat = m ↔ m.length < 2 ^ 32 := by
  rw [List.take_eq_self_iff, UInt32.toNat_ofNat']
  constructor
  · intro h
    exact h.trans_lt (Nat.mod_lt _ (by decide))
  · intro h
    rw [Nat.mod_eq_of_lt h]

/-- What comes back is the message cut to the length that `unsigned` keeps. -/
theorem opensTo_iff_take (hp : IsSafePrime p) (hq : IsSafePrime q) (hpq : p ≠ q)
    (hK : 1 ≤ K.toNat) (hm : m.length ≤ 2 ^ K.toNat) (hh : IsCoprime h (p * q : ℤ))
    (r : Receiver) : OpensTo p q K m h r ↔
      m.take (UInt32.ofNat m.length).toNat = m ∧ resizeCheck K = .ok () := by
  obtain ⟨order, -, -, hcommit⟩ := commit_apply (Commiter.honest_ofPrimes hp hq hpq) hK hm hh
  have hn : (p * q : ℤ) ≠ 0 := TwoPrimes.cast_mul_ne_zero hp.prime hq.prime
  constructor
  · rintro ⟨c, com, c', r', hnew, hcom, hacc, hopen, hforce⟩
    rw [new_ofPrimes hp hq] at hnew
    cases hnew
    cases hresize : resizeCheck K with
    | error e =>
      rw [hcommit, hresize] at hcom
      cases hcom
    | ok _ =>
      rw [hcommit, hresize] at hcom
      cases hcom
      obtain ⟨rfl, -⟩ := Receiver.acceptCommitment_eq_ok.1 hacc
      rw [forceOpen_honest hn rfl hm] at hforce
      exact ⟨Except.ok.inj hforce, rfl⟩
  · rintro ⟨htake, hresize⟩
    rw [hresize] at hcommit
    refine ⟨_, _, _, _, new_ofPrimes hp hq, hcommit,
      acceptCommitment_honest hn (resizeCheck_eq_ok.1 hresize) r, ?_, ?_⟩
    · rw [openCommitment_honest hp.prime hq.prime hpq hm hh rfl rfl rfl rfl, htake]
    · rw [forceOpen_honest hn rfl hm, htake]

end

/-- An honest commitment opens to its message exactly when the lengths fit `unsigned`. -/
theorem opensTo_iff {p q : ℕ} (hp : IsSafePrime p) (hq : IsSafePrime q) (hpq : p ≠ q)
    {K : UInt32} (hK : 1 ≤ K.toNat) {m : List Bool} (hm : m.length ≤ 2 ^ K.toNat) {h : ℤ}
    (hh : IsCoprime h (p * q : ℤ)) (r : Receiver) :
    OpensTo p q K m h r ↔ m.length < 2 ^ 32 ∧ K.toNat + 1 < 2 ^ 32 := by
  rw [opensTo_iff_take hp hq hpq hK hm hh, take_unsigned_eq_iff, resizeCheck_eq_ok]

/-- `opensTo_iff` for one bit and the smallest modulus. -/
theorem opensTo_one_bit : OpensTo 7 11 1 [true] 2 Receiver.new :=
  (opensTo_iff isSafePrime_seven isSafePrime_eleven (by decide) (by decide) (by decide)
    ⟨-38, 1, by norm_num⟩ Receiver.new).2 ⟨by decide, by decide⟩

/-- A message of `2 ^ 32` bits is lost: its length is zero as an `unsigned`. -/
theorem not_opensTo_long : IsSafePrime 7 ∧ IsSafePrime 11 ∧ IsCoprime (2 : ℤ) (7 * 11) ∧
    (List.replicate (2 ^ 32) true).length ≤ 2 ^ (32 : UInt32).toNat ∧
    ¬ OpensTo 7 11 32 (List.replicate (2 ^ 32) true) 2 Receiver.new := by
  have hlen : (List.replicate (2 ^ 32) true).length = 2 ^ 32 := List.length_replicate
  have hK : (32 : UInt32).toNat = 32 := rfl
  have hh : IsCoprime (2 : ℤ) ((7 : ℕ) * (11 : ℕ)) := ⟨-38, 1, by norm_num⟩
  refine ⟨isSafePrime_seven, isSafePrime_eleven, by exact_mod_cast hh, by rw [hlen, hK], ?_⟩
  intro hopens
  have htake := ((opensTo_iff_take (K := 32) isSafePrime_seven isSafePrime_eleven (by decide) (by decide)
    (by rw [hlen, hK]) hh Receiver.new).1 (by exact_mod_cast hopens)).1
  have hlt := take_unsigned_eq_iff.1 htake
  omega

end SellingInformation.TimedCommitment
