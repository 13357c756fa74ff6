import SellingInformation.TimedCommitment.Basic

/-!
# Opening a timed commitment

The three ways to open a commitment end in `decodeChecked`: they only differ in
how they come by the value `v` with `v ^ (2 ^ l) = u`.

* `maskBits_snd`, `maskBits_maskBits` — the loop that hides the bits squares its
  value once a bit, and undoes itself;
* `decodeChecked_eq_ok` — when a value decodes, and to what;
* `acceptCommitment_eq_ok` — what the receiver knows of a commitment it accepted;
* `eq_of_decodeChecked` — the values that `get_g` can return and that the final
  check lets pass are equal, since `get_g` raises to a multiple of `2 ^ BITS`;
* `open_binding` — so every opening of an accepted commitment gives the same bits.
-/

namespace SellingInformation.TimedCommitment

open CryptoPP Common Fallible

/-! ## The exponent of the base -/

theorem expLoop_eq (res x : ℤ) (n : ℕ) : expLoop res x n = res * x ^ n := by
  fun_induction expLoop res x n with
  | case1 res x => simp
  | case2 res x n hn ih =>
    have hx : x ^ n = x ^ (n % 2) * (x * x) ^ (n / 2) := by
      rw [← sq, ← pow_mul, ← pow_add, Nat.mod_add_div]
    rw [dite_eq_ite] at ih
    rw [ih, hx]
    rcases Nat.mod_two_eq_zero_or_one n with h | h
    · simp [h]
    · simp [h, mul_assoc]

theorem exp_eq (x : ℤ) (n : ℕ) : exp x n = x ^ n := by
  unfold exp
  rw [expLoop_eq, one_mul]

theorem mult_eq_prod : mult = ((smallPrimes.map fun p => p ^ BITS).prod : ℕ) := by
  have key : ∀ (l : List ℕ) (a : ℤ), l.foldl (fun (mult : ℤ) (p : ℕ) => mult * exp p BITS) a =
      a * ((l.map fun p => p ^ BITS).prod : ℕ) := by
    intro l
    induction l with
    | nil => simp
    | cons p l ih =>
      intro a
      rw [List.foldl_cons, ih, exp_eq, List.map_cons, List.prod_cons]
      push_cast
      ring
  unfold mult
  rw [key, one_mul]

theorem mem_smallPrimes {p : ℕ} : p ∈ smallPrimes ↔ p < B ∧ p.Prime := by
  simp [smallPrimes]

theorem mult_toNat_ne_zero : mult.toNat ≠ 0 := by
  rw [mult_eq_prod, Int.toNat_natCast]
  intro h
  obtain ⟨p, hp, h0⟩ := List.mem_map.1 (List.prod_eq_zero_iff.1 h)
  exact (pow_pos (mem_smallPrimes.1 hp).2.pos BITS).ne' h0

/-- Two is below `B`, so the exponent is a multiple of `2 ^ BITS`. -/
theorem two_pow_dvd_mult : 2 ^ BITS ∣ mult.toNat := by
  rw [mult_eq_prod, Int.toNat_natCast]
  have h2 : 2 ∈ smallPrimes := mem_smallPrimes.2 ⟨by decide, Nat.prime_two⟩
  exact List.dvd_prod (List.mem_map.2 ⟨2, h2, rfl⟩)

theorem getG_eq (n h : ℤ) : getG n h = h ^ mult.toNat % n := rfl

theorem getG_emod (n h : ℤ) : getG n h % n = getG n h := aExpBModC_emod ..

/-! ## Exponents that are powers of two -/

theorem aExpBModC_two_pow (v n : ℤ) (k : ℕ) : aExpBModC v (2 ^ k) n = v ^ 2 ^ k % n := by
  have h : ((2 : ℤ) ^ k).toNat = 2 ^ k := by
    rw [show (2 : ℤ) ^ k = ((2 ^ k : ℕ) : ℤ) by push_cast; rfl, Int.toNat_natCast]
  unfold aExpBModC
  rw [h]

theorem squareLoop_eq {n v : ℤ} (hv : v % n = v) (bound : ℤ) :
    Receiver.squareLoop n bound v = v ^ 2 ^ bound.toNat % n :=
  TwoPrimes.iterate_sq_eq hv _

/-! ## Masking -/

section
variable (n : ℤ)

@[simp] theorem length_maskBits (bits : List Bool) (u : ℤ) :
    (maskBits n bits u).1.length = bits.length := by
  induction bits generalizing u with
  | nil => rfl
  | cons b bits ih => simp [maskBits, ih]

theorem maskBits_snd_iterate (bits : List Bool) (u : ℤ) :
    (maskBits n bits u).2 = (fun v => v * v % n)^[bits.length] u := by
  induction bits generalizing u with
  | nil => rfl
  | cons b bits ih =>
    rw [List.length_cons, Function.iterate_succ_apply]
    exact ih _

/-- Masking leaves the last square behind. -/
theorem maskBits_snd {u : ℤ} (hu : u % n = u) (bits : List Bool) :
    (maskBits n bits u).2 = u ^ 2 ^ bits.length % n := by
  rw [maskBits_snd_iterate, TwoPrimes.iterate_sq_eq hu]

/-- Masking twice with one value gives the bits back. -/
theorem maskBits_maskBits (bits : List Bool) (u : ℤ) :
    maskBits n (maskBits n bits u).1 u = (bits, (maskBits n bits u).2) := by
  induction bits generalizing u with
  | nil => rfl
  | cons b bits ih => simp [maskBits, ih]

end

/-! ## The receiver -/

/-- What the receiver checks of a commitment: its base, the size of `W`, and the two ends of it. -/
structure Acceptable (com : Commitment) : Prop where
  n_ne_zero : com.n ≠ 0
  base : com.g = getG com.n com.h
  length_W : com.W.length = (com.K + 1).toNat
  first : com.W[0]? = some (com.g * com.g % com.n)
  last : com.W[com.K.toNat]? = some com.u

namespace Acceptable

variable {com : Commitment} {i : ℕ}

/-- `K + 1` does not wrap: `W` would have no first entry. -/
theorem toNat_K_add_one (h : Acceptable com) : (com.K + 1).toNat = com.K.toNat + 1 := by
  have hlt := com.K.toNat_lt
  rw [UInt32.toNat_add, UInt32.toNat_one]
  refine Nat.mod_eq_of_lt ?_
  by_contra hwrap
  have hK1 : (com.K + 1).toNat = 0 := by
    rw [UInt32.toNat_add, UInt32.toNat_one]
    omega
  have hnil : com.W = [] := List.length_eq_zero_iff.1 (h.length_W.trans hK1)
  have hfirst := h.first
  rw [hnil] at hfirst
  cases hfirst

theorem getElem?_W (h : Acceptable com) (hi : i ≤ com.K.toNat) :
    com.W[i]? = some (com.W.getD i 0) := by
  have hlt : i < com.W.length := by
    rw [h.length_W, h.toNat_K_add_one]
    omega
  rw [List.getD_eq_getElem?_getD, List.getElem?_eq_getElem hlt]
  rfl

end Acceptable

namespace Receiver

variable {r r' : Receiver} {v : ℤ} {bits : List Bool}

theorem decode_eq_ok : r.decode v = .ok bits ↔
    r.com.l.toNat ≤ r.com.S.length ∧
      maskBits r.com.n (r.com.S.take r.com.l.toNat) v = (bits, r.com.u) := by
  simp only [decode, except_bind_eq_ok, refuseIf_eq_ok, not_lt, ne_eq, not_not, Prod.ext_iff]
  constructor
  · rintro ⟨_, hl, _, hu, hb⟩
    exact ⟨hl, by simpa using hb, hu⟩
  · rintro ⟨hl, hb, hu⟩
    exact ⟨(), hl, (), hu, by rw [hb]⟩

/-- A value decodes when its `2 ^ l`-th power is `u`. -/
theorem decodeChecked_eq_ok : r.decodeChecked v = .ok bits ↔ r.com.n ≠ 0 ∧
    v ^ 2 ^ r.com.l.toNat % r.com.n = r.com.u ∧ r.com.l.toNat ≤ r.com.S.length ∧
      maskBits r.com.n (r.com.S.take r.com.l.toNat) v = (bits, r.com.u) := by
  simp only [decodeChecked, except_bind_eq_ok, refuseIf_eq_ok, ne_eq, not_not, decode_eq_ok,
    aExpBModC_two_pow]
  constructor
  · rintro ⟨_, hn, _, hu, h⟩
    exact ⟨hn, hu, h⟩
  · rintro ⟨hn, hu, h⟩
    exact ⟨(), hn, (), hu, h⟩

/-- The second check of an opening repeats the first for a reduced value. -/
theorem decodeChecked_of_pow (hn : r.com.n ≠ 0) (hv : v % r.com.n = v)
    (hl : r.com.l.toNat ≤ r.com.S.length) (hu : v ^ 2 ^ r.com.l.toNat % r.com.n = r.com.u) :
    r.decodeChecked v = .ok (maskBits r.com.n (r.com.S.take r.com.l.toNat) v).1 := by
  refine decodeChecked_eq_ok.2 ⟨hn, hu, hl, Prod.ext rfl ?_⟩
  rw [maskBits_snd _ hv, List.length_take, min_eq_left hl]
  exact hu

/-- What the receiver checked of a commitment it accepted. -/
theorem acceptCommitment_eq_ok {com : Commitment} :
    acceptCommitment com r = .ok () r' ↔
      r' = { r with com } ∧ Acceptable com := by
  simp only [acceptCommitment, bind_eq_ok, modify_apply, throwIf_eq_ok, lift_eq_ok, elemAt_eq_ok,
    ne_eq, not_not]
  constructor
  · rintro ⟨_, _, hr, _, _, ⟨hn, rfl⟩, _, _, ⟨hg, rfl⟩, _, _, ⟨hW, rfl⟩, _, _, ⟨h0, rfl⟩,
      _, _, ⟨h0', rfl⟩, _, _, ⟨hK, rfl⟩, hK', rfl⟩
    cases hr
    exact ⟨rfl, hn, hg, hW, by rw [h0, h0'], by rw [hK, hK']⟩
  · rintro ⟨rfl, hn, hg, hW, h0, hK⟩
    exact ⟨(), _, rfl, (), _, ⟨hn, rfl⟩, (), _, ⟨hg, rfl⟩, (), _, ⟨hW, rfl⟩, _, _, ⟨h0, rfl⟩,
      (), _, ⟨rfl, rfl⟩, _, _, ⟨hK, rfl⟩, rfl, rfl⟩

end Receiver

/-! ## Binding -/

/-- Of the `mult`-th powers modulo `p * q`, at most one passes the check of an opening. -/
theorem eq_of_decodeChecked {p q : ℕ} (hp : p.Prime) (hq : q.Prime) (hpq : p ≠ q)
    (hpB : p < 2 ^ BITS) (hqB : q < 2 ^ BITS) {r : Receiver} (hn : r.com.n = p * q) {x y : ℤ}
    {bits bits' : List Bool} (hx : r.decodeChecked (x ^ mult.toNat % r.com.n) = .ok bits)
    (hy : r.decodeChecked (y ^ mult.toNat % r.com.n) = .ok bits') : bits = bits' := by
  obtain ⟨-, hux, -, hmx⟩ := Receiver.decodeChecked_eq_ok.1 hx
  obtain ⟨-, huy, -, hmy⟩ := Receiver.decodeChecked_eq_ok.1 hy
  have hpow : (x ^ mult.toNat) ^ 2 ^ r.com.l.toNat ≡ (y ^ mult.toNat) ^ 2 ^ r.com.l.toNat
      [ZMOD p * q] := by
    have h1 := (Int.mod_modEq (x ^ mult.toNat) r.com.n).pow (2 ^ r.com.l.toNat)
    have h2 := (Int.mod_modEq (y ^ mult.toNat) r.com.n).pow (2 ^ r.com.l.toNat)
    rw [← hn]
    exact h1.symm.trans ((hux.trans huy.symm : _ ≡ _ [ZMOD r.com.n]).trans h2)
  have hroot : x ^ mult.toNat ≡ y ^ mult.toNat [ZMOD r.com.n] := by
    rw [hn]
    exact TwoPrimes.modEq_of_pow_two_pow hp hq hpq hpB hqB two_pow_dvd_mult hpow
  rw [hroot.eq, hmy] at hmx
  exact (Prod.ext_iff.1 hmx).1.symm

/-- The forced opening of an accepted commitment squares its way to a `mult`-th power. -/
theorem squareLoop_getG (n h bound : ℤ) :
    Receiver.squareLoop n bound (getG n h) = (h ^ 2 ^ bound.toNat) ^ mult.toNat % n := by
  rw [squareLoop_eq (getG_emod n h), getG_eq, ← pow_mul, Nat.mul_comm, pow_mul]
  exact (Int.mod_modEq _ _).pow _

/-- Every opening of an accepted commitment over a product of two primes, by
whatever value, gives the same bits, and so does the forced opening. -/
theorem open_binding {p q : ℕ} (hp : p.Prime) (hq : q.Prime) (hpq : p ≠ q)
    (hpB : p < 2 ^ BITS) (hqB : q < 2 ^ BITS) {com : Commitment} (hn : com.n = p * q)
    {r r' : Receiver} (hacc : Receiver.acceptCommitment com r = .ok () r') {vp vp' : ℤ}
    {bits bits' : List Bool} (h : r'.open vp = .ok bits) (h' : r'.open vp' = .ok bits') :
    bits' = bits ∧ ∀ forced, r'.forceOpen = .ok forced → forced = bits := by
  obtain ⟨rfl, -, hg, -⟩ := Receiver.acceptCommitment_eq_ok.1 hacc
  refine ⟨eq_of_decodeChecked hp hq hpq hpB hqB hn h' h, ?_⟩
  intro forced hforced
  unfold Receiver.forceOpen at hforced
  rw [hg, squareLoop_getG] at hforced
  exact eq_of_decodeChecked hp hq hpq hpB hqB hn hforced h

/-- `open_binding` at a commitment to one bit modulo fifteen, opened with two and with seven. -/
theorem open_binding_fifteen :
    let com : Commitment :=
      { K := 1, n := 15, h := 2, g := 1, u := 1, S := [true], W := [1, 1], l := 1 }
    let r : Receiver := { Receiver.new with com }
    r.open 2 = .ok [false] ∧ (∃ bits, r.open 7 = .ok bits ∧ bits = [false]) ∧
      ∃ forced, r.forceOpen = .ok forced ∧ forced = [false] := by
  intro com r
  -- the fourth powers of the units modulo fifteen are one
  have hbase : ∀ x : ℤ, x ^ 4 ≡ 1 [ZMOD 15] → getG 15 x = 1 := by
    intro x hx
    obtain ⟨k, hk⟩ : 4 ∣ mult.toNat :=
      (Nat.pow_dvd_pow 2 (by decide : 2 ≤ BITS)).trans two_pow_dvd_mult
    rw [getG_eq, hk, pow_mul]
    exact (hx.pow k).trans (by rw [one_pow])
  have hacc : Receiver.acceptCommitment com Receiver.new = .ok () r :=
    Receiver.acceptCommitment_eq_ok.2 ⟨rfl, by decide, (hbase 2 (by decide)).symm, rfl, rfl, rfl⟩
  have hopen : ∀ x : ℤ, x ^ 4 ≡ 1 [ZMOD 15] → r.open x = .ok [false] := by
    intro x hx
    have hv : getG r.com.n x = 1 := hbase x hx
    rw [Receiver.open, hv]
    decide
  obtain ⟨hbits, hforced⟩ := open_binding Nat.prime_three Nat.prime_five (by decide)
    (lt_of_lt_of_le (by decide : 3 < 2 ^ 2) (Nat.pow_le_pow_right (by decide) (by decide)))
    (lt_of_lt_of_le (by decide : 5 < 2 ^ 3) (Nat.pow_le_pow_right (by decide) (by decide)))
    rfl hacc (hopen 2 (by decide)) (hopen 7 (by decide))
  have hforce : r.forceOpen = .ok [false] := by decide
  exact ⟨hopen 2 (by decide), ⟨_, hopen 7 (by decide), hbits⟩, _, hforce, hforced _ hforce⟩

end SellingInformation.TimedCommitment
