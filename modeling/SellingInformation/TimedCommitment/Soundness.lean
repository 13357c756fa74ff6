import Mathlib.Algebra.GroupWithZero.Units.Basic
import Mathlib.Tactic.NormNum.Prime
import SellingInformation.Lib.Power
import SellingInformation.TimedCommitment.Opening

/-!
# What the proof convinces the receiver of

The receiver runs a proof that each `W[i]` is the power of `W[i - 1]` that
`W[i - 1]` is of the base `g`, that is `W[i] = g ^ (2 ^ (2 ^ i))`.

* `eq_pow_of_transcripts` — the extraction, in any ring: the responses to the
  challenges zero and one determine the next power of a unit;
* `convincing_chain` — so a commitment with a base that is a unit carries the right
  powers, and one whose base is not a unit has no convincing first message unless
  a power of the base is zero;
* `forceOpens_of_not_nilpotent` — the forced opening then ends as it should;
* `Convincing.linked`, `convincing_of_linked` — when `n` divides a power of `h`, the
  proof only ties each entry of `W` to the next one by `Linked`, since nothing checks
  that the values are invertible;
* `forceOpens_iff` — so the commitments that betray the receiver are those with such
  a base, linked entries and a wrong one: the `Degenerate` ones.
-/

namespace SellingInformation.TimedCommitment

open CryptoPP Common Fallible

/-! ## Extraction -/

section
variable {M : Type} [CommRing M]

/-- **Extraction.**  Let `a = g ^ e` be a unit.  If the challenges zero and one have
responses to one first message, for the bases `g` and `a` and the claimed powers
`a` and `b`, then `b = a ^ e`. -/
theorem eq_pow_of_transcripts [Nontrivial M] {g a b : M} {e y0 y1 : ℕ} (ha : a = g ^ e)
    (hu : IsUnit a) (hz : g ^ y0 = g ^ y1 * Ring.inverse a)
    (hw : a ^ y0 = a ^ y1 * Ring.inverse b) : b = a ^ e := by
  have hb : IsUnit b := by
    by_contra hb
    rw [Ring.inverse_non_unit _ hb, mul_zero] at hw
    exact (hu.pow y0).ne_zero hw
  have hz' : g ^ y1 = g ^ y0 * a := by
    rw [hz, mul_assoc, Ring.inverse_mul_cancel _ hu, mul_one]
  have hw' : a ^ y1 = a ^ y0 * b := by
    rw [hw, mul_assoc, Ring.inverse_mul_cancel _ hb, mul_one]
  have hpow : a ^ y1 = a ^ y0 * a ^ e := by
    calc a ^ y1 = (g ^ y1) ^ e := by rw [ha, ← pow_mul, ← pow_mul, Nat.mul_comm]
      _ = (g ^ y0) ^ e * a ^ e := by rw [hz', mul_pow]
      _ = a ^ y0 * a ^ e := by
        congr 1
        rw [ha, ← pow_mul, ← pow_mul, Nat.mul_comm]
  exact (hu.pow y0).mul_left_cancel (hw'.symm.trans hpow)

/-- With a base that is not a unit there is only the trivial first message. -/
theorem pow_eq_zero_of_transcripts {g a : M} {y0 y1 : ℕ} (ha : ¬ IsUnit a)
    (hz : g ^ y0 = g ^ y1 * Ring.inverse a) : g ^ y0 = 0 := by
  rw [hz, Ring.inverse_non_unit _ ha, mul_zero]

end

/-! ## Convincing the receiver -/

/-- There is one first message `zw` of the proof such that every vector of challenges has
a response that the receiver accepts. -/
def Convincing (r : Receiver) : Prop :=
  ∃ zw, ∀ challenge : List ℤ, challenge.length = (r.com.K + 1).toNat →
    (∀ c ∈ challenge, 0 ≤ c ∧ c ≤ R) → ∃ y : List ℤ, (∀ e ∈ y, 0 ≤ e) ∧
      ∃ r', Receiver.zk3 zw { r with commitValues := challenge } = .ok challenge r' ∧
        r'.zk5 y = .ok ()

namespace Receiver

variable {r : Receiver}

theorem zk3_eq_ok {zw : List ℤ × List ℤ} {values : List ℤ} {r' : Receiver} :
    zk3 zw r = .ok values r' ↔ zw.1.length = (r.com.K + 1).toNat ∧
      zw.2.length = (r.com.K + 1).toNat ∧ values = r.commitValues ∧ r' = { r with zw } := by
  simp only [zk3, bind_eq_ok, get_apply, throwIf_eq_ok, set_apply, pure_apply, not_or, ne_eq,
    not_not]
  constructor
  · rintro ⟨_, _, hget, _, _, ⟨hlen, rfl⟩, _, _, hset, hpure⟩
    cases hget
    cases hset
    cases hpure
    exact ⟨hlen.1, hlen.2, rfl, rfl⟩
  · rintro ⟨h1, h2, rfl, rfl⟩
    exact ⟨_, _, rfl, (), _, ⟨⟨h1, h2⟩, rfl⟩, (), _, rfl, rfl⟩

/-- One round of the receiver's check, as the values it reads and two equations. -/
theorem zk5Check_eq_ok {y : List ℤ} {i : ℕ} : zk5Check r y i = .ok () ↔
    ∃ yi w value z w' zw, y[i]? = some yi ∧ r.com.W[i - 1]? = some w ∧
      r.commitValues[i]? = some value ∧ r.zw.1[i]? = some z ∧ r.com.W[i]? = some w' ∧
      r.zw.2[i]? = some zw ∧ r.com.n ≠ 0 ∧
      aTimesBModC (aExpBModC r.com.g yi r.com.n)
        (aExpBModC (inverseMod w r.com.n) value r.com.n) r.com.n = z ∧
      aTimesBModC (aExpBModC w yi r.com.n)
        (aExpBModC (inverseMod w' r.com.n) value r.com.n) r.com.n = zw := by
  simp only [zk5Check, except_bind_eq_ok, elemAt_eq_ok, refuseIf_eq_ok, ne_eq, not_not]
  constructor
  · rintro ⟨yi, hyi, w, hw, value, hvalue, _, hn, z, hz, _, hzi, w', hw', zw, hzw, hwi⟩
    exact ⟨yi, w, value, z, w', zw, hyi, hw, hvalue, hz, hw', hzw, hn, hzi, hwi⟩
  · rintro ⟨yi, w, value, z, w', zw, hyi, hw, hvalue, hz, hw', hzw, hn, hzi, hwi⟩
    exact ⟨yi, hyi, w, hw, value, hvalue, (), hn, z, hz, (), hzi, w', hw', zw, hzw, hwi⟩

theorem zk5_eq_ok {y : List ℤ} : r.zk5 y = .ok () ↔
    y.length = (r.com.K + 1).toNat ∧
      ∀ i, 1 ≤ i → i ≤ r.com.K.toNat → zk5Check r y i = .ok () := by
  unfold zk5
  rw [except_bind_eq_ok]
  simp only [refuseIf_eq_ok, ne_eq, not_not, forM_eq_ok_iff, List.mem_range'_1]
  constructor
  · rintro ⟨_, hlen, h⟩
    exact ⟨hlen, fun i h1 hi => h i ⟨h1, by omega⟩⟩
  · rintro ⟨hlen, h⟩
    exact ⟨(), hlen, fun i hi => h i hi.1 (by omega)⟩

end Receiver

/-- What a convincing commitment gives for the index `i`: responses to the challenges
zero and one for one first message, as equations between residues. -/
theorem Convincing.transcripts {r : Receiver} (h : Convincing r) {n : ℕ} (hn : r.com.n = n)
    {i : ℕ} (h1 : 1 ≤ i) (hi : i ≤ r.com.K.toNat) :
    ∃ (a b : ℤ) (y0 y1 : ℕ), r.com.W[i - 1]? = some a ∧ r.com.W[i]? = some b ∧
      (r.com.g : ZMod n) ^ y0 = (r.com.g : ZMod n) ^ y1 * Ring.inverse (a : ZMod n) ∧
      (a : ZMod n) ^ y0 = (a : ZMod n) ^ y1 * Ring.inverse (b : ZMod n) := by
  obtain ⟨zw, hzw⟩ := h
  -- the same challenge at every index
  have run : ∀ c : ℤ, 0 ≤ c → c ≤ R → ∃ (a b z w : ℤ) (y : ℕ), r.com.W[i - 1]? = some a ∧
      r.com.W[i]? = some b ∧ zw.1[i]? = some z ∧ zw.2[i]? = some w ∧
      (r.com.g : ZMod n) ^ y * Ring.inverse (a : ZMod n) ^ c.toNat = z ∧
      (a : ZMod n) ^ y * Ring.inverse (b : ZMod n) ^ c.toNat = w := by
    intro c hc0 hcR
    obtain ⟨y, -, r', hr', hzk⟩ := hzw (List.replicate (r.com.K + 1).toNat c) (by simp)
      (fun d hd => by rw [List.eq_of_mem_replicate hd]; exact ⟨hc0, hcR⟩)
    obtain ⟨-, -, -, rfl⟩ := Receiver.zk3_eq_ok.1 hr'
    obtain ⟨yi, a, value, z, b, w, -, ha, hvalue, hz, hb, hw, -, hzi, hwi⟩ :=
      Receiver.zk5Check_eq_ok.1 ((Receiver.zk5_eq_ok.1 hzk).2 i h1 hi)
    have hval : value = c := List.eq_of_mem_replicate (List.mem_of_getElem? hvalue)
    subst hval
    refine ⟨a, b, z, w, yi.toNat, ha, hb, hz, hw, ?_, ?_⟩
    · rw [← hzi]
      simp only [hn, cast_aTimesBModC, cast_aExpBModC, cast_inverseMod]
    · rw [← hwi]
      simp only [hn, cast_aTimesBModC, cast_aExpBModC, cast_inverseMod]
  obtain ⟨a, b, z, w, y0, ha, hb, hz, hw, hz0, hw0⟩ := run 0 le_rfl (by decide)
  obtain ⟨a', b', z', w', y1, ha', hb', hz', hw', hz1, hw1⟩ := run 1 (by decide) (by decide)
  rw [ha] at ha'
  rw [hb] at hb'
  rw [hz] at hz'
  rw [hw] at hw'
  cases ha'
  cases hb'
  cases hz'
  cases hw'
  simp only [Int.toNat_zero, pow_zero, mul_one, Int.toNat_one, pow_one] at hz0 hw0 hz1 hw1
  exact ⟨a, b, y0, y1, ha, hb, hz0.trans hz1.symm, hw0.trans hw1.symm⟩

/-- **The chain.**  With a base that is a unit, every `W[i]` of a convincing commitment is
the power it should be. -/
theorem convincing_chain {r : Receiver} (h : Convincing r) {n : ℕ} (hn : r.com.n = n)
    (hn1 : 1 < n) (hg : IsUnit (r.com.g : ZMod n)) (hW0 : r.com.W[0]? = some (r.com.g * r.com.g % n))
    {i : ℕ} (hi : i ≤ r.com.K.toNat) : ∃ w : ℤ, r.com.W[i]? = some w ∧
      (w : ZMod n) = (r.com.g : ZMod n) ^ 2 ^ 2 ^ i := by
  have : Fact (1 < n) := ⟨hn1⟩
  induction i with
  | zero =>
    refine ⟨_, hW0, ?_⟩
    rw [ZMod.intCast_mod]
    push_cast
    ring
  | succ i ih =>
    obtain ⟨a, ha, hpow⟩ := ih (by omega)
    obtain ⟨a', b, y0, y1, ha', hb, hz, hw⟩ := h.transcripts hn (i := i + 1) (by omega) hi
    rw [Nat.add_sub_cancel, ha] at ha'
    cases ha'
    have hua : IsUnit (a : ZMod n) := by
      rw [hpow]
      exact hg.pow _
    refine ⟨b, hb, ?_⟩
    rw [eq_pow_of_transcripts hpow hua hz hw, hpow, ← pow_mul, ← pow_add, ← two_mul, ← pow_succ']

/-- A base that is not a unit convinces only when one of its powers is zero. -/
theorem pow_eq_zero_of_convincing {r : Receiver} (h : Convincing r) {n : ℕ} (hn : r.com.n = n)
    (hK : 1 ≤ r.com.K.toNat) (hg : ¬ IsUnit (r.com.g : ZMod n))
    (hW0 : r.com.W[0]? = some (r.com.g * r.com.g % n)) :
    ∃ y : ℕ, (r.com.g : ZMod n) ^ y = 0 := by
  obtain ⟨a, b, y0, y1, ha, -, hz, -⟩ := h.transcripts hn le_rfl hK
  rw [Nat.sub_self, hW0] at ha
  cases ha
  refine ⟨y0, pow_eq_zero_of_transcripts ?_ hz⟩
  rw [ZMod.intCast_mod]
  push_cast
  intro hu
  exact hg (isUnit_of_mul_isUnit_left hu)

/-! ## A base that vanishes -/

/-- A power vanishes in the ring of residues when the modulus divides it. -/
theorem cast_pow_eq_zero {n : ℕ} {a : ℤ} {k : ℕ} : (a : ZMod n) ^ k = 0 ↔ (n : ℤ) ∣ a ^ k := by
  rw [← Int.cast_pow, ZMod.intCast_zmod_eq_zero_iff_dvd]

namespace Acceptable

variable {com : Commitment} {k : ℕ}

/-- The powers of the base of an accepted commitment are powers of its `h`. -/
theorem g_pow_modEq (h : Acceptable com) (k : ℕ) :
    com.g ^ k ≡ com.h ^ (mult.toNat * k) [ZMOD com.n] := by
  rw [h.base, getG_eq, pow_mul]
  exact (Int.mod_modEq _ _).pow _

theorem h_dvd (h : Acceptable com) (hk : com.n ∣ com.g ^ k) : com.n ∣ com.h ^ (mult.toNat * k) :=
  Int.dvd_of_emod_eq_zero ((h.g_pow_modEq k).symm.eq.trans (Int.emod_eq_zero_of_dvd hk))

theorem g_dvd (h : Acceptable com) (hk : com.n ∣ com.h ^ k) : com.n ∣ com.g ^ k := by
  have hle : k ≤ mult.toNat * k := Nat.le_mul_of_pos_left k (Nat.pos_of_ne_zero mult_toNat_ne_zero)
  exact Int.dvd_of_emod_eq_zero
    ((h.g_pow_modEq k).eq.trans (Int.emod_eq_zero_of_dvd (hk.trans (pow_dvd_pow _ hle))))

end Acceptable

/-- All that the proof shows of `b`, as the entry of `W` after `a`, when the base vanishes: a power
of `a` vanishes too, or `b` is invertible and takes some power of `a` to another. -/
def Linked (n a b : ℤ) : Prop :=
  (∃ k : ℕ, n ∣ a ^ k) ∨ Int.gcd b n = 1 ∧ ∃ y y' : ℕ, a ^ y * b ≡ a ^ y' [ZMOD n]

/-- The neighbours in `W` of a convincing commitment are linked. -/
theorem Convincing.linked {r : Receiver} (h : Convincing r) (hn : 1 < r.com.n) {i : ℕ}
    (hi : i < r.com.K.toNat) {a b : ℤ} (ha : r.com.W[i]? = some a)
    (hb : r.com.W[i + 1]? = some b) : Linked r.com.n a b := by
  obtain ⟨n, hnat⟩ := Int.eq_ofNat_of_zero_le (by omega : 0 ≤ r.com.n)
  obtain ⟨a', b', y0, y1, ha', hb', -, hw⟩ := h.transcripts hnat (i := i + 1) (by omega) hi
  rw [Nat.add_sub_cancel, ha] at ha'
  rw [hb] at hb'
  cases ha'
  cases hb'
  rw [hnat]
  by_cases hu : IsUnit (b : ZMod n)
  · refine Or.inr ⟨(isUnit_cast_iff b).1 hu, y0, y1, ?_⟩
    apply (ZMod.intCast_eq_intCast_iff _ _ n).1
    push_cast
    rw [hw, mul_assoc, Ring.inverse_mul_cancel _ hu, mul_one]
  · exact Or.inl ⟨y0, cast_pow_eq_zero.1 (pow_eq_zero_of_transcripts hu hw)⟩

/-- One first message for a linked pair and a response to every challenge, with masks as large
as one likes. -/
theorem Linked.exists_responses {n : ℕ} [NeZero n] {a b : ℤ} (h : Linked n a b) (N : ℕ) :
    ∃ A e : ℕ, N ≤ A ∧ ∀ c : ℕ,
      (a : ZMod n) ^ (A + e * c) * Ring.inverse (b : ZMod n) ^ c = (a : ZMod n) ^ A := by
  rcases h with ⟨k, hk⟩ | ⟨hb, y, y', hyy⟩
  · have hzero : (a : ZMod n) ^ (N + k) = 0 := by
      rw [pow_add, cast_pow_eq_zero.2 hk, mul_zero]
    refine ⟨N + k, 0, by omega, ?_⟩
    intro c
    rw [zero_mul, add_zero, hzero, zero_mul]
  · have hcast : (a : ZMod n) ^ y * (b : ZMod n) = (a : ZMod n) ^ y' := by
      have hcast := (ZMod.intCast_eq_intCast_iff _ _ n).2 hyy
      push_cast at hcast
      exact hcast
    obtain ⟨A, e, hA, hpow⟩ := Power.exists_pow_mul_pow hcast N
    refine ⟨A, e, hA, ?_⟩
    intro c
    rw [← hpow c, mul_assoc, ← mul_pow, Ring.mul_inverse_cancel _ ((isUnit_cast_iff b).2 hb),
      one_pow, mul_one]

/-- An equation that the receiver checks, from the equation in the ring. -/
theorem aTimesBModC_eq_of_cast {n : ℕ} {x y v : ℤ} {e c : ℕ}
    (h : (x : ZMod n) ^ e * Ring.inverse (y : ZMod n) ^ c = v) :
    aTimesBModC (aExpBModC x e n) (aExpBModC (inverseMod y n) c n) n = v % n := by
  rw [← aTimesBModC_emod]
  apply (ZMod.intCast_eq_intCast_iff' _ _ n).1
  simp only [cast_aTimesBModC, cast_aExpBModC, cast_inverseMod, Int.toNat_natCast, h]

/-- A first message with a response to every challenge at every link convinces the receiver. -/
theorem convincing_of_responses {r : Receiver} {n : ℕ} (hn : r.com.n = n)
    (haccept : Acceptable r.com) (z w : ℕ → ℤ) (y : ℕ → ℕ → ℕ)
    (h : ∀ i < r.com.K.toNat, ∀ c : ℕ,
      (r.com.g : ZMod n) ^ y i c * Ring.inverse (r.com.W.getD i 0 : ZMod n) ^ c = z i ∧
        (r.com.W.getD i 0 : ZMod n) ^ y i c * Ring.inverse (r.com.W.getD (i + 1) 0 : ZMod n) ^ c =
          w i) : Convincing r := by
  have hK : (r.com.K + 1).toNat = r.com.K.toNat + 1 := haccept.toNat_K_add_one
  have hget : ∀ (f : ℕ → ℤ) {i : ℕ}, i < r.com.K.toNat →
      ((List.range (r.com.K.toNat + 1)).map fun i => f (i - 1))[i + 1]? = some (f i) := by
    intro f i hi
    rw [List.getElem?_map, List.getElem?_range (by omega)]
    rfl
  refine ⟨((List.range (r.com.K.toNat + 1)).map fun i => z (i - 1) % n,
    (List.range (r.com.K.toNat + 1)).map fun i => w (i - 1) % n), ?_⟩
  intro challenge hlen hrange
  refine ⟨(List.range (r.com.K.toNat + 1)).map fun i =>
      (y (i - 1) (challenge.getD (i - 1 + 1) 0).toNat : ℤ), ?_, _,
    Receiver.zk3_eq_ok.2 ⟨by simp [hK], by simp [hK], rfl, rfl⟩, ?_⟩
  · intro e he
    obtain ⟨i, -, rfl⟩ := List.mem_map.1 he
    exact Int.natCast_nonneg _
  refine Receiver.zk5_eq_ok.2 ⟨by simp [hK], ?_⟩
  intro i h1 hi
  obtain ⟨i, rfl⟩ := Nat.exists_eq_add_of_le' h1
  replace hi : i < r.com.K.toNat := hi
  have hlt : i + 1 < challenge.length := by
    rw [hlen, hK]
    exact Nat.succ_lt_succ hi
  obtain ⟨c, hc⟩ := Int.eq_ofNat_of_zero_le (hrange _ (List.getElem_mem hlt)).1
  have hvalue : challenge[i + 1]? = some (c : ℤ) := by
    rw [List.getElem?_eq_getElem hlt, hc]
  have hresp : (challenge.getD (i + 1) 0).toNat = c := by
    rw [List.getD_eq_getElem?_getD, hvalue, Option.getD_some, Int.toNat_natCast]
  obtain ⟨hz, hw⟩ := h i hi c
  refine Receiver.zk5Check_eq_ok.2 ⟨_, _, c, _, _, _,
    hget (fun i => (y i (challenge.getD (i + 1) 0).toNat : ℤ)) hi, haccept.getElem?_W hi.le, hvalue,
    hget (fun i => z i % n) hi, haccept.getElem?_W hi, hget (fun i => w i % n) hi,
    haccept.n_ne_zero, ?_, ?_⟩
  · show aTimesBModC (aExpBModC r.com.g _ r.com.n) (aExpBModC _ _ r.com.n) r.com.n = _
    rw [hresp, hn]
    exact aTimesBModC_eq_of_cast hz
  · show aTimesBModC (aExpBModC _ _ r.com.n) (aExpBModC _ _ r.com.n) r.com.n = _
    rw [hresp, hn]
    exact aTimesBModC_eq_of_cast hw

/-- When the base vanishes, linked neighbours are enough to convince the receiver. -/
theorem convincing_of_linked {r : Receiver} (hn : 1 < r.com.n) (haccept : Acceptable r.com) {k : ℕ}
    (hk : r.com.n ∣ r.com.h ^ k) (hlink : ∀ i < r.com.K.toNat, ∀ a b, r.com.W[i]? = some a →
      r.com.W[i + 1]? = some b → Linked r.com.n a b) : Convincing r := by
  obtain ⟨n, hnat⟩ := Int.eq_ofNat_of_zero_le (by omega : 0 ≤ r.com.n)
  have : NeZero n := ⟨by omega⟩
  have hg : (r.com.g : ZMod n) ^ k = 0 := by
    apply cast_pow_eq_zero.2
    rw [← hnat]
    exact haccept.g_dvd hk
  -- the mask and the step of the responses for each link; outside of `W` there is nothing to mask
  have hmasks : ∀ i, ∃ A e : ℕ, i < r.com.K.toNat → k ≤ A ∧ ∀ c : ℕ,
      (r.com.W.getD i 0 : ZMod n) ^ (A + e * c) * Ring.inverse (r.com.W.getD (i + 1) 0 : ZMod n) ^ c =
        (r.com.W.getD i 0 : ZMod n) ^ A := by
    intro i
    by_cases hi : i < r.com.K.toNat
    · have hl := hlink i hi _ _ (haccept.getElem?_W hi.le) (haccept.getElem?_W hi)
      rw [hnat] at hl
      obtain ⟨A, e, hA, hpow⟩ := hl.exists_responses k
      exact ⟨A, e, fun _ => ⟨hA, hpow⟩⟩
    · exact ⟨0, 0, fun h => absurd h hi⟩
  choose A e hAe using hmasks
  refine convincing_of_responses hnat haccept (fun _ => 0) (fun i => r.com.W.getD i 0 ^ A i)
    (fun i c => A i + e i * c) ?_
  intro i hi c
  obtain ⟨hA, hpow⟩ := hAe i hi
  have hzero : (r.com.g : ZMod n) ^ (A i + e i * c) = 0 := pow_eq_zero_of_le (by omega) hg
  constructor
  · rw [hzero, zero_mul, Int.cast_zero]
  · rw [Int.cast_pow]
    exact hpow c

/-! ## The forced opening of a convincing commitment -/

/-- A number that the modulus has as a residue. -/
def IsResidue (n x : ℤ) : Prop := 0 ≤ x ∧ x < n

/-- `W` holds the powers of the base it should hold. -/
def Commitment.Chain (com : Commitment) : Prop :=
  ∀ i ≤ com.K.toNat, com.W[i]? = some (com.g ^ 2 ^ 2 ^ i % com.n)

/-- Whenever the receiver accepts the commitment and could be convinced of it, `W` holds
the powers of the base it should hold and the forced opening returns. -/
def ForceOpens (com : Commitment) : Prop :=
  ∀ r r', Receiver.acceptCommitment com r = .ok () r' → Convincing r' →
    com.Chain ∧ ∃ bits, r'.forceOpen = .ok bits

/-- For a base that is a unit, the right powers convince. -/
theorem convincing_of_chain {r : Receiver} {n : ℕ} (hn : r.com.n = n) (haccept : Acceptable r.com)
    (hg : IsUnit (r.com.g : ZMod n)) (hchain : r.com.Chain) : Convincing r := by
  have hW : ∀ i ≤ r.com.K.toNat, (r.com.W.getD i 0 : ZMod n) = (r.com.g : ZMod n) ^ 2 ^ 2 ^ i := by
    intro i hi
    rw [List.getD_eq_getElem?_getD, hchain i hi, Option.getD_some, hn, ZMod.intCast_mod,
      Int.cast_pow]
  -- the responses without masks
  refine convincing_of_responses hn haccept (fun _ => 1) (fun _ => 1) (fun i c => 2 ^ 2 ^ i * c) ?_
  intro i hi c
  have hunit : IsUnit ((r.com.g : ZMod n) ^ 2 ^ 2 ^ i) := hg.pow _
  have hsq : ((r.com.g : ZMod n) ^ 2 ^ 2 ^ i) ^ 2 ^ 2 ^ i = (r.com.g : ZMod n) ^ 2 ^ 2 ^ (i + 1) := by
    rw [← pow_mul, ← pow_add, ← two_mul, ← pow_succ']
  rw [hW i hi.le, hW (i + 1) hi, ← hsq, pow_mul, pow_mul, ← mul_pow, ← mul_pow, Int.cast_one]
  exact ⟨by rw [Ring.mul_inverse_cancel _ hunit, one_pow],
    by rw [Ring.mul_inverse_cancel _ (hunit.pow _), one_pow]⟩

/-- With the right last power the forced opening returns. -/
theorem forceOpen_of_last {r : Receiver} (hn : r.com.n ≠ 0) (hg : r.com.g % r.com.n = r.com.g)
    (hl : r.com.l.toNat ≤ 2 ^ r.com.K.toNat) (hS : r.com.l.toNat ≤ r.com.S.length)
    (hu : r.com.u = r.com.g ^ 2 ^ 2 ^ r.com.K.toNat % r.com.n) :
    ∃ bits, r.forceOpen = .ok bits := by
  have hbound : ((2 : ℤ) ^ r.com.K.toNat - r.com.l.toNat).toNat =
      2 ^ r.com.K.toNat - r.com.l.toNat := by
    rw [← Nat.cast_two, ← Nat.cast_pow, ← Nat.cast_sub hl, Int.toNat_natCast]
  unfold Receiver.forceOpen
  rw [squareLoop_eq hg, hbound]
  refine ⟨_, Receiver.decodeChecked_of_pow hn (Int.emod_emod_of_dvd _ dvd_rfl) hS ?_⟩
  have hpow : (r.com.g ^ 2 ^ (2 ^ r.com.K.toNat - r.com.l.toNat)) ^ 2 ^ r.com.l.toNat =
      r.com.g ^ 2 ^ 2 ^ r.com.K.toNat := by
    rw [← pow_mul, ← pow_add, Nat.sub_add_cancel hl]
  rw [hu, ← hpow]
  exact (Int.mod_modEq _ _).pow _

/-- The forced opening of a commitment with the right powers returns. -/
theorem forceOpen_of_chain {r : Receiver} (haccept : Acceptable r.com)
    (hS : r.com.S.length = r.com.l.toNat) (hl : r.com.l.toNat ≤ 2 ^ (r.com.K.toNat - 1))
    (hchain : r.com.Chain) : ∃ bits, r.forceOpen = .ok bits := by
  have hred : r.com.g % r.com.n = r.com.g := by
    rw [haccept.base, getG_emod]
  have hle : 2 ^ (r.com.K.toNat - 1) ≤ 2 ^ r.com.K.toNat :=
    Nat.pow_le_pow_right (by decide) (Nat.sub_le _ _)
  have hlast := hchain _ le_rfl
  rw [haccept.last] at hlast
  exact forceOpen_of_last haccept.n_ne_zero hred (hl.trans hle) hS.ge (Option.some.inj hlast)

/-- A base with no power divisible by the modulus is enough. -/
theorem forceOpens_of_not_nilpotent {com : Commitment} (hn : 1 < com.n) (hK : 1 ≤ com.K.toNat)
    (hW : ∀ w ∈ com.W, IsResidue com.n w) (hS : com.S.length = com.l.toNat)
    (hl : com.l.toNat ≤ 2 ^ (com.K.toNat - 1)) (hh : ∀ k : ℕ, ¬ com.n ∣ com.h ^ k) :
    ForceOpens com := by
  rintro r r' hacc hconv
  obtain ⟨rfl, haccept⟩ := Receiver.acceptCommitment_eq_ok.1 hacc
  obtain ⟨n, hnat⟩ := Int.eq_ofNat_of_zero_le (by omega : 0 ≤ com.n)
  have hW0 : com.W[0]? = some (com.g * com.g % n) := by
    rw [← hnat]
    exact haccept.first
  have hunit : IsUnit (com.g : ZMod n) := by
    by_contra hu
    obtain ⟨y, hy⟩ := pow_eq_zero_of_convincing hconv hnat hK hu hW0
    exact hh _ (haccept.h_dvd (by rwa [hnat, ← cast_pow_eq_zero]))
  have hchain : com.Chain := by
    intro i hi
    obtain ⟨w, hw, hpow⟩ := convincing_chain hconv hnat (by omega) hunit hW0 hi
    have hres := hW w (List.mem_of_getElem? hw)
    have hmod : w ≡ com.g ^ 2 ^ 2 ^ i [ZMOD n] := by
      apply (ZMod.intCast_eq_intCast_iff _ _ n).1
      push_cast
      exact hpow
    rw [← hnat] at hmod
    rw [← hmod.eq, Int.emod_eq_of_lt hres.1 hres.2]
    exact hw
  exact ⟨hchain, forceOpen_of_chain haccept hS hl hchain⟩

/-! ## The degenerate commitments -/

/-- The commitments the receiver accepts and can be convinced of although they are wrong. -/
structure Degenerate (com : Commitment) : Prop where
  accepted : Acceptable com
  vanishes : ∃ k : ℕ, com.n ∣ com.h ^ k
  linked : ∀ i < com.K.toNat, ∀ a b, com.W[i]? = some a → com.W[i + 1]? = some b →
    Linked com.n a b
  wrong : ∃ i < com.K.toNat, ∃ a b, com.W[i]? = some a ∧ com.W[i + 1]? = some b ∧
    b ≠ a ^ 2 ^ 2 ^ i % com.n

/-- From an entry of `W` to the next the exponent `2 ^ 2 ^ i` is squared. -/
theorem emod_pow_chain (n g : ℤ) (i : ℕ) :
    (g ^ 2 ^ 2 ^ i % n) ^ 2 ^ 2 ^ i % n = g ^ 2 ^ 2 ^ (i + 1) % n := by
  have hexp : 2 ^ 2 ^ i * 2 ^ 2 ^ i = 2 ^ 2 ^ (i + 1) := by
    rw [← pow_add, ← two_mul, ← pow_succ']
  rw [← hexp, pow_mul]
  exact (Int.mod_modEq _ _).pow _

/-- The entries of `W` are the right ones when each is the right power of the one before. -/
theorem Acceptable.chain_iff {com : Commitment} (h : Acceptable com) : com.Chain ↔
    ∀ i < com.K.toNat, ∀ a b, com.W[i]? = some a → com.W[i + 1]? = some b →
      b = a ^ 2 ^ 2 ^ i % com.n := by
  constructor
  · intro hchain i hi a b ha hb
    rw [hchain i hi.le] at ha
    rw [hchain (i + 1) hi] at hb
    cases ha
    cases hb
    exact (emod_pow_chain _ _ _).symm
  · intro hstep i hi
    induction i with
    | zero => rw [h.first, pow_zero, pow_one, sq]
    | succ i ih =>
      rw [h.getElem?_W hi, hstep i hi _ _ (ih (by omega)) (h.getElem?_W hi), emod_pow_chain]

/-- A degenerate commitment does not hold what the receiver is convinced of. -/
theorem Degenerate.not_forceOpens {com : Commitment} (hn : 1 < com.n) (h : Degenerate com) :
    ¬ ForceOpens com := by
  intro hforce
  obtain ⟨k, hk⟩ := h.vanishes
  obtain ⟨hchain, -⟩ := hforce Receiver.new { Receiver.new with com }
    (Receiver.acceptCommitment_eq_ok.2 ⟨rfl, h.accepted⟩)
    (convincing_of_linked hn h.accepted hk h.linked)
  obtain ⟨i, hi, a, b, ha, hb, hne⟩ := h.wrong
  exact hne (h.accepted.chain_iff.1 hchain i hi a b ha hb)

/-- A commitment that survives the checks of the receiver can be forced open, with the right
powers in `W`, exactly when it is not degenerate. -/
theorem forceOpens_iff {com : Commitment} (hn : 1 < com.n) (hK : 1 ≤ com.K.toNat)
    (hW : ∀ w ∈ com.W, IsResidue com.n w) (hS : com.S.length = com.l.toNat)
    (hl : com.l.toNat ≤ 2 ^ (com.K.toNat - 1)) : ForceOpens com ↔ ¬ Degenerate com := by
  constructor
  · exact fun hforce hdeg => hdeg.not_forceOpens hn hforce
  · intro hdeg
    by_cases hh : ∃ k : ℕ, com.n ∣ com.h ^ k
    · rintro r r' hacc hconv
      obtain ⟨rfl, haccept⟩ := Receiver.acceptCommitment_eq_ok.1 hacc
      have hchain : com.Chain := by
        refine haccept.chain_iff.2 ?_
        intro i hi a b ha hb
        by_contra hne
        exact hdeg ⟨haccept, hh, fun _ hj _ _ => hconv.linked hn hj, i, hi, a, b, ha, hb, hne⟩
      exact ⟨hchain, forceOpen_of_chain haccept hS hl hchain⟩
    · exact forceOpens_of_not_nilpotent hn hK hW hS hl (not_exists.1 hh)

/-- `forceOpens_iff` at a commitment to one bit modulo seven, over a unit. -/
theorem forceOpens_iff_seven :
    let com : Commitment :=
      { K := 1, n := 7, h := 6, g := 1, u := 1, S := [true], W := [1, 1], l := 1 }
    let r : Receiver := { Receiver.new with com }
    Receiver.acceptCommitment com Receiver.new = .ok () r ∧ Convincing r ∧ com.Chain ∧
      ∃ bits, r.forceOpen = .ok bits := by
  intro com r
  have hbase : getG 7 6 = 1 := by
    obtain ⟨k, hk⟩ : 2 ∣ mult.toNat := (dvd_pow_self 2 (by decide)).trans two_pow_dvd_mult
    have hone : (6 : ℤ) ^ 2 ≡ 1 [ZMOD 7] := by decide
    rw [getG_eq, hk, pow_mul]
    exact (hone.pow k).trans (by rw [one_pow])
  have haccept : Acceptable com := ⟨by decide, hbase.symm, rfl, rfl, rfl⟩
  have hacc : Receiver.acceptCommitment com Receiver.new = .ok () r :=
    Receiver.acceptCommitment_eq_ok.2 ⟨rfl, haccept⟩
  have hconv : Convincing r := by
    refine convincing_of_chain (n := 7) rfl haccept (by simp [r, com]) ?_
    intro i hi
    replace hi : i ≤ 1 := hi
    interval_cases i <;> rfl
  have hforce : ForceOpens com := by
    refine (forceOpens_iff (by decide) (by decide) ?_ rfl (by decide)).2 ?_
    · intro w hw
      have hone : w = 1 := by simpa [com] using hw
      rw [hone]
      exact ⟨by decide, by decide⟩
    · intro hdeg
      obtain ⟨k, hk⟩ := hdeg.vanishes
      have h7 : Prime (7 : ℤ) := Nat.prime_iff_prime_int.1 (by norm_num)
      exact absurd (h7.dvd_of_dvd_pow hk) (by decide)
  exact ⟨hacc, hconv, hforce _ _ hacc hconv⟩

/-- A commitment with base zero and the last power one is degenerate. -/
theorem degenerate_zero :
    Degenerate { K := 1, n := 7, h := 0, g := 0, u := 1, S := [true], W := [0, 1], l := 1 } where
  accepted := by
    refine ⟨by decide, ?_, rfl, rfl, rfl⟩
    rw [getG_eq, zero_pow mult_toNat_ne_zero]
    rfl
  vanishes := ⟨1, by decide⟩
  linked := by
    intro i hi a b ha hb
    obtain rfl : i = 0 := Nat.lt_one_iff.1 hi
    cases ha
    exact Or.inl ⟨1, by decide⟩
  wrong := ⟨0, by decide, 0, 1, rfl, rfl, by decide⟩

/-- It is accepted, convinces, and cannot be forced open. -/
theorem not_forceOpens_zero :
    ¬ ForceOpens { K := 1, n := 7, h := 0, g := 0, u := 1, S := [true], W := [0, 1], l := 1 } :=
  degenerate_zero.not_forceOpens (by decide)

end SellingInformation.TimedCommitment
