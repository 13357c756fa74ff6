import SellingInformation.SharedSignature.PlainEcdsa

/-!
# What the answer of `B` tells

`cont_sig` adds a multiple `u * n` of the order under the encryption of `S`, with a fresh
draw.  `S` knows the primes, so it sees both the number and the draw.

* `contSig_eq_enc` — the answer is the encryption of the number that `S` ends with, plus a
  multiple of the order, with a unit times the last draw of `B`;
* `answers_eq` — over the blinding and its draw, the answers are the encryptions of that number
  plus `v * n`, for `v` in an interval as long as the one of the blinding.  The key share and
  the nonce of `B` only choose where it starts, and that is below the order: all other
  answers `S` could have made itself;
* `answers_hide` — the same in every run, after any number of attempts.
-/

namespace SellingInformation.SharedSignature

open CryptoPP Common Fallible Homomorphic

variable {Point : Type} [AddCommGroup Point]

namespace Call

variable (ec : ECParameters Point) (ds db : ℤ) (c : Call)

/-- The multiples of the order that are in the sum before the blinding is added. -/
def carry : ℤ := (aTimesBModC (inverseMod c.ρ.kb ec.n) (c.z ec) ec.n + c.t ec db * ds) / ec.n

/-- The product of the draws behind the answer, without the last one. -/
def draw : ℤ := c.ρ.encC1 * c.ρ.encDs ^ (c.t ec db).toNat

/-- The number that `S` decrypts, modulo the order. -/
def residue : ℤ := c.ρ.ks * c.s0 ec ds db % ec.n

/-- The call with another blinding. -/
def reblind (u encU : ℤ) : Call := { c with ρ := { c.ρ with u, encU } }

end Call

/-- The answers of `B`, over the blinding and the draw of its encryption. -/
def answers (ec : ECParameters Point) (N : ℕ) (c : Call) (Ks : Point) (cs : ℤ) (b : B Point) :
    Set ℤ :=
  {cb | ∃ u encU : ℤ, ∃ b', (0 ≤ u ∧ u ≤ ec.n * ec.n - 1) ∧ IsCoprime encU (N : ℤ) ∧
    B.contSig ec Ks cs c.data.toList { c.ρ with u, encU } b = .ok () b' ∧ b'.cb = cb}

/-- The encryptions of `m` plus a multiple of the order from `lo` on, as many as there are
blindings. -/
def blinded (ec : ECParameters Point) (N : ℕ) (k : Paillier) (m lo : ℤ) : Set ℤ :=
  {cb | ∃ v w : ℤ, (lo ≤ v ∧ v ≤ lo + (ec.n * ec.n - 1)) ∧ IsCoprime w (N : ℤ) ∧
    k.enc (m + v * ec.n) w = .ok cb}

variable {ec : ECParameters Point} {N p q : ℕ} {ds db : ℤ} {c : Call}

/-! ## The number under the encryption -/

theorem carry_range (hds : 1 ≤ ds ∧ ds ≤ ec.n - 1) :
    0 ≤ c.carry ec ds db ∧ c.carry ec ds db < ec.n := by
  obtain ⟨ha0, han⟩ := aTimesBModC_range ec (inverseMod c.ρ.kb ec.n) (c.z ec)
  obtain ⟨ht0, htn⟩ : 0 ≤ c.t ec db ∧ c.t ec db < ec.n := aTimesBModC_range ec _ _
  have hn := n_pos ec
  have htd0 : 0 ≤ c.t ec db * ds := mul_nonneg ht0 (by omega)
  have htd : c.t ec db * ds ≤ (ec.n - 1) * (ec.n - 1) :=
    mul_le_mul (by omega) hds.2 (by omega) (by omega)
  refine ⟨Int.ediv_nonneg (by omega) hn.le, Int.ediv_lt_of_lt_mul hn ?_⟩
  have hsq : ((ec.n : ℤ) - 1) * (ec.n - 1) + (ec.n - 1) < ec.n * ec.n := by nlinarith
  omega

/-- What `S` decrypts: its own number, plus a multiple of the order. -/
theorem plain_eq (h : c.Drawn ec N) :
    c.plain ec ds db = c.residue ec ds db + (c.ρ.u + c.carry ec ds db) * ec.n := by
  have : Fact ec.n.Prime := ⟨ec.n_prime⟩
  have hks := cast_ne_zero h.ks
  have hcast : (c.plain ec ds db : ZMod ec.n) = (c.ρ.ks * c.s0 ec ds db : ℤ) := by
    push_cast
    rw [cast_plain, cast_s0, mul_inv]
    field_simp
  have hres : c.plain ec ds db % ec.n = c.residue ec ds db :=
    (ZMod.intCast_eq_intCast_iff _ _ ec.n).1 hcast
  have hdiv : c.plain ec ds db / ec.n = c.ρ.u + c.carry ec ds db := by
    unfold Call.plain Call.carry
    rw [Int.add_mul_ediv_right _ _ (n_pos ec).ne', add_comm]
  rw [← hres, ← hdiv, mul_comm]
  exact (Int.emod_add_mul_ediv _ _).symm

theorem sum_range (h : c.Drawn ec N) (hds : 1 ≤ ds ∧ ds ≤ ec.n - 1)
    (hN : 2 * ec.n * ec.n * ec.n * ec.n < N) :
    0 ≤ c.residue ec ds db + (c.ρ.u + c.carry ec ds db) * ec.n ∧
      c.residue ec ds db + (c.ρ.u + c.carry ec ds db) * ec.n < N := by
  rw [← plain_eq h]
  exact h.plain_range hds hN

/-! ## One answer -/

variable {s s1 : S Point} {b : B Point}

/-- What `S` sends is the encryption of its share. -/
theorem startSig_eq_ok {ks encDs : ℤ} (h : S.startSig ec ks encDs s = .ok () s1) :
    s1.Ks = ks • ec.G ∧ s.paillier.enc s.ds encDs = .ok s1.cs := by
  simp only [S.startSig, bind_eq_ok, modify_apply, get_apply, lift_eq_ok] at h
  obtain ⟨_, _, hks, _, _, hget, cs, _, ⟨hcs, rfl⟩, hs1⟩ := h
  cases hks
  cases hget
  cases hs1
  exact ⟨rfl, hcs⟩

/-- **One answer.**  It is the encryption of the number of `S`, plus the blinding shifted by the
carry, with a draw that the last one of `B` makes fresh. -/
theorem contSig_eq_enc (hk : KeyPrimes (S.paillierBits ec) p q) (h : c.Drawn ec (p * q))
    (hr : c.r ec ≠ 0) (hds : 1 ≤ ds ∧ ds ≤ ec.n - 1) (hst : Ready ec p q ds db (s, b))
    (hstart : S.startSig ec c.ρ.ks c.ρ.encDs s = .ok () s1) :
    ∃ b', B.contSig ec s1.Ks s1.cs c.data.toList c.ρ b = .ok () b' ∧
      s.paillier.enc (c.residue ec ds db + (c.ρ.u + c.carry ec ds db) * ec.n)
        (c.draw ec db * c.ρ.encU) = .ok b'.cb := by
  have hlong := two_mul_pow_lt hk
  have hN := one_lt_modulus hk
  have hdsN : ds < (p * q : ℕ) := by
    have hn := n_lt_modulus hlong
    omega
  obtain ⟨hKs, hcs⟩ := startSig_eq_ok hstart
  have hspub : s.paillier.Public (p * q) := by
    rw [hst.owner]
    exact Paillier.public_ofPrimes p q
  obtain ⟨cs, hcs', -, -, hmod⟩ := Paillier.enc_cipher hspub hN (by omega) hdsN c.ρ.encDs
  rw [hst.ds_eq, hcs'] at hcs
  obtain rfl : cs = s1.cs := Except.ok.inj hcs
  obtain ⟨cb, hcont, hcb, hcb0, hcbN⟩ := contSig_cipher h hr hds hlong hst.client hst.db_eq hmod
  refine ⟨_, hKs ▸ hcont, ?_⟩
  -- the answer is reduced, so it is the encryption
  obtain ⟨hp0, hpN⟩ : 0 ≤ c.plain ec ds db ∧ c.plain ec ds db < (p * q : ℕ) :=
    h.plain_range hds hlong
  obtain ⟨e, he, he0, heN, hemod⟩ := Paillier.enc_cipher hspub hN hp0 hpN
    (c.draw ec db * c.ρ.encU)
  have heq : e ≡ cb [ZMOD (p * q : ℕ) * (p * q : ℕ)] := hemod.trans hcb.symm
  rw [Int.ModEq, Int.emod_eq_of_lt he0 heN, Int.emod_eq_of_lt hcb0 hcbN] at heq
  rw [← plain_eq h, he, heq]

/-! ## All answers -/

/-- A unit has an inverse that is a unit. -/
theorem exists_unit_inverse {a n : ℤ} (h : IsCoprime a n) :
    ∃ b, IsCoprime b n ∧ a * b ≡ 1 [ZMOD n] := by
  obtain ⟨b, e, hbez⟩ := h
  refine ⟨b, ⟨a, e, by rw [mul_comm a]; exact hbez⟩, Int.modEq_iff_dvd.2 ⟨e, ?_⟩⟩
  linear_combination -hbez

/-- Over the blinding and its draw, they are the encryptions of the
number that `S` ends with plus `v * n`, for `v` in an interval that starts below the order. -/
theorem answers_eq (hk : KeyPrimes (S.paillierBits ec) p q) (h : c.Drawn ec (p * q))
    (hr : c.r ec ≠ 0) (hds : 1 ≤ ds ∧ ds ≤ ec.n - 1) (hst : Ready ec p q ds db (s, b))
    (hstart : S.startSig ec c.ρ.ks c.ρ.encDs s = .ok () s1) :
    (0 ≤ c.carry ec ds db ∧ c.carry ec ds db < ec.n) ∧
      answers ec (p * q) c s1.Ks s1.cs b =
        blinded ec (p * q) s.paillier (c.residue ec ds db) (c.carry ec ds db) := by
  refine ⟨carry_range hds, ?_⟩
  -- another blinding makes another call with the same carry, residue and draw
  have hre : ∀ u encU : ℤ, 0 ≤ u ∧ u ≤ ec.n * ec.n - 1 → IsCoprime encU ((p * q : ℕ) : ℤ) →
      (c.reblind u encU).Drawn ec (p * q) := fun u encU hu hencU =>
    { ks := h.ks, kb := h.kb, u := hu, encDs := h.encDs, encC1 := h.encC1, encU := hencU }
  have hone : ∀ u encU : ℤ, 0 ≤ u ∧ u ≤ ec.n * ec.n - 1 → IsCoprime encU ((p * q : ℕ) : ℤ) →
      ∃ b', B.contSig ec s1.Ks s1.cs c.data.toList { c.ρ with u, encU } b = .ok () b' ∧
        s.paillier.enc (c.residue ec ds db + (u + c.carry ec ds db) * ec.n)
          (c.draw ec db * encU) = .ok b'.cb := fun u encU hu hencU =>
    contSig_eq_enc hk (hre u encU hu hencU) hr hds hst hstart
  have hdraw : IsCoprime (c.draw ec db) ((p * q : ℕ) : ℤ) := h.encC1.mul_left h.encDs.pow_left
  have hspub : s.paillier.Public (p * q) := by
    rw [hst.owner]
    exact Paillier.public_ofPrimes p q
  ext cb
  constructor
  · rintro ⟨u, encU, b', hu, hencU, hcont, rfl⟩
    obtain ⟨b'', hcont', henc⟩ := hone u encU hu hencU
    rw [hcont] at hcont'
    cases hcont'
    exact ⟨u + c.carry ec ds db, c.draw ec db * encU, by omega, hdraw.mul_left hencU, henc⟩
  · rintro ⟨v, w, hv, hw, henc⟩
    obtain ⟨d, hd, hinv⟩ := exists_unit_inverse hdraw
    have hu : 0 ≤ v - c.carry ec ds db ∧ v - c.carry ec ds db ≤ ec.n * ec.n - 1 := by omega
    obtain ⟨b', hcont, henc'⟩ := hone (v - c.carry ec ds db) (d * w) hu (hd.mul_left hw)
    -- the draw is `w` again
    have hw' : c.draw ec db * (d * w) ≡ w [ZMOD (p * q : ℕ)] := by
      have := hinv.mul_right w
      rwa [mul_assoc, one_mul] at this
    have hrange : 0 ≤ c.residue ec ds db + (v - c.carry ec ds db + c.carry ec ds db) * ec.n ∧
        c.residue ec ds db + (v - c.carry ec ds db + c.carry ec ds db) * ec.n < (p * q : ℕ) :=
      sum_range (hre _ _ hu (hd.mul_left hw)) hds (two_mul_pow_lt hk)
    rw [Paillier.enc_congr hspub (one_lt_modulus hk) hrange.1 hrange.2 hw', sub_add_cancel,
      henc] at henc'
    exact ⟨_, _, b', hu, hd.mul_left hw, hcont, (Except.ok.inj henc').symm⟩

/-! ## In a run -/

section
variable [DecidableEq Point]

/-- **What the answers tell.**  In a run of fresh parties, whatever the attempts before came to,
the answers that `B` can give are, up to fewer than `n` of the `n * n` multiples of the order,
the encryptions that `S` could have made itself from the number it ends with. -/
theorem answers_hide (hk : KeyPrimes (S.paillierBits ec) p q) (hds : 1 ≤ ds ∧ ds ≤ ec.n - 1)
    (hdb : 1 ≤ db ∧ db ≤ ec.n - 1) {calls : List Call}
    (hcalls : ∀ c ∈ calls, c.Drawn ec (p * q)) :
    ∃ fresh st, parties ec p q = .ok fresh ∧ init ec ds db fresh = .ok () st ∧
      ∀ pre (c : Call) post, calls = pre ++ c :: post → c.r ec ≠ 0 → ∃ s1,
        S.startSig ec c.ρ.ks c.ρ.encDs ((attempts ec pre st).1.setData c.data.toList) = .ok () s1 ∧
        (0 ≤ c.carry ec ds db ∧ c.carry ec ds db < ec.n) ∧
        answers ec (p * q) c s1.Ks s1.cs ((attempts ec pre st).2.setData c.data.toList) =
          blinded ec (p * q) (attempts ec pre st).1.paillier (c.residue ec ds db)
            (c.carry ec ds db) := by
  obtain ⟨st, hinit, hst⟩ := init_ok ec p q ds db
  refine ⟨_, st, parties_ok hk, hinit, ?_⟩
  intro pre c post hsplit hr
  subst hsplit
  have hc : c.Drawn ec (p * q) := hcalls c (by simp)
  have hpre := ready_attempts hk hds hdb (fun d hd => hcalls d (List.mem_append_left _ hd)) hst
  obtain ⟨cs, hstart, -⟩ := startSig_ready hk hc hds hpre
  have hset : Ready ec p q ds db ((attempts ec pre st).1.setData c.data.toList,
      (attempts ec pre st).2.setData c.data.toList) :=
    ready_of_sides hpre ⟨rfl, rfl, rfl⟩ ⟨rfl, rfl, rfl⟩
  have hall := answers_eq hk hc hr hds hset hstart
  exact ⟨_, hstart, hall⟩

end

/-- `answers_hide` for two calls in the group of order seven. -/
theorem answers_hide_order7 : ∃ fresh st, parties order7 521 523 = .ok fresh ∧
    init order7 2 3 fresh = .ok () st ∧
      ∀ pre (c : Call) post, [unitCall, unitCall] = pre ++ c :: post → c.r order7 ≠ 0 → ∃ s1,
        S.startSig order7 c.ρ.ks c.ρ.encDs ((attempts order7 pre st).1.setData c.data.toList) =
          .ok () s1 ∧
        (0 ≤ c.carry order7 2 3 ∧ c.carry order7 2 3 < 7) ∧
        answers order7 (521 * 523) c s1.Ks s1.cs
            ((attempts order7 pre st).2.setData c.data.toList) =
          blinded order7 (521 * 523) (attempts order7 pre st).1.paillier (c.residue order7 2 3)
            (c.carry order7 2 3) :=
  answers_hide keyPrimes_order7 (by decide) (by decide)
    (by simpa using regular_unitCall.drawn)

end SellingInformation.SharedSignature
