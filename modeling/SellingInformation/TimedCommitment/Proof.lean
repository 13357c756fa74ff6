import SellingInformation.TimedCommitment.Honest
import SellingInformation.TimedCommitment.Soundness

/-!
# The honest run of the proof

Each message of a round as an equivalence (`zk1_eq_ok`, `zk2_eq_ok`, `zk4_eq_ok`),
put together in `zkRound_eq_ok`.  From left to right it says what a run that
returned left behind; from right to left it makes an honest run:

* `zkRound_frame`, `commit_frame` — the proof does not touch the commitment;
* `zkRound_ok` — a round of an honest committer with an honest receiver returns;
* `commit_ok` — so does the whole of `commit`.
-/

namespace SellingInformation.TimedCommitment

open CryptoPP Common Fallible

variable {sha256 : Sha256} {c c' : Commiter} {r r' : Receiver}

/-! ## The messages -/

theorem Receiver.zk1_eq_ok {draw : ℕ → ℤ} {commits : List Bytes32} :
    Receiver.zk1 sha256 draw r = .ok commits r' ↔ resizeCheck r.com.K = .ok () ∧
      r' = { r with commitValues := (List.range (r.com.K.toNat + 1)).map fun i =>
        if i = 0 then r.commitValues.getD 0 0 else draw i } ∧
      commits = (List.range (r.com.K.toNat + 1)).map fun i =>
        if i = 0 then Vector.replicate 32 0 else regularCommit sha256 (draw i) := by
  simp only [Receiver.zk1, bind_eq_ok, get_apply, lift_eq_ok, set_apply, pure_apply]
  constructor
  · rintro ⟨_, _, hget, _, _, ⟨hresize, rfl⟩, _, _, hset, hpure⟩
    cases hget
    cases hset
    cases hpure
    exact ⟨hresize, rfl, rfl⟩
  · rintro ⟨hresize, rfl, rfl⟩
    exact ⟨_, _, rfl, (), _, ⟨hresize, rfl⟩, (), _, rfl, rfl⟩

/-- The masks the committer keeps for a round. -/
def masks (c : Commiter) (draw : ℕ → ℤ) : List ℤ :=
  (List.range (c.com.K.toNat + 1)).map fun i => if i = 0 then c.alpha.getD 0 0 else draw i

theorem Commiter.zk2_eq_ok {draw : ℕ → ℤ} {commits : List Bytes32} {zw : List ℤ × List ℤ} :
    Commiter.zk2 commits draw c = .ok zw c' ↔ commits.length = (c.com.K + 1).toNat ∧
      resizeCheck c.com.K = .ok () ∧ c' = { c with commits, alpha := masks c draw } ∧
      ∃ pairs, (List.range' 1 c.com.K.toNat).mapM (fun i => do
          let a ← elemAt (masks c draw) i
          let w ← elemAt c.com.W (i - 1)
          Except.ok (aExpBModC c.com.g a c.n, aExpBModC w a c.n)) = .ok pairs ∧
        zw = (0 :: pairs.map Prod.fst, 0 :: pairs.map Prod.snd) := by
  simp only [Commiter.zk2, bind_eq_ok, get_apply, throwIf_eq_ok, lift_eq_ok, set_apply, pure_apply,
    ne_eq, not_not, masks]
  constructor
  · rintro ⟨_, _, hget, _, _, ⟨hlen, rfl⟩, _, _, ⟨hresize, rfl⟩, _, _, hset, pairs, _, ⟨hpairs, rfl⟩,
      hpure⟩
    cases hget
    cases hset
    cases hpure
    exact ⟨hlen, hresize, rfl, pairs, hpairs, rfl⟩
  · rintro ⟨hlen, hresize, rfl, pairs, hpairs, rfl⟩
    exact ⟨_, _, rfl, (), _, ⟨hlen, rfl⟩, (), _, ⟨hresize, rfl⟩, (), _, rfl, pairs, _, ⟨hpairs, rfl⟩,
      rfl⟩

theorem zkRound_eq_ok {ρ : RoundRandom} {u : Unit} {st : Commiter × Receiver} :
    zkRound sha256 ρ (c, r) = .ok u st ↔ ∃ commits r1 zw c1 values r2 y,
      Receiver.zk1 sha256 ρ.challenge r = .ok commits r1 ∧
      Commiter.zk2 commits ρ.alpha c = .ok zw c1 ∧
      Receiver.zk3 zw r1 = .ok values r2 ∧
      c1.zk4 sha256 values = .ok y ∧ r2.zk5 y = .ok () ∧ st = (c1, r2) := by
  simp only [zkRound, bind_eq_ok, get_apply, lift_eq_ok, onFst_eq_ok, onSnd_eq_ok]
  constructor
  · rintro ⟨commits, ⟨_, r1⟩, ⟨h1, hc⟩, zw, ⟨c1, _⟩, ⟨h2, hr⟩, values, ⟨_, r2⟩, ⟨h3, hc'⟩, _, _, hget,
      y, _, ⟨h4, rfl⟩, _, _, hget', h5, rfl⟩
    cases hc
    cases hr
    cases hc'
    cases hget
    cases hget'
    exact ⟨commits, r1, zw, c1, values, r2, y, h1, h2, h3, h4, h5, rfl⟩
  · rintro ⟨commits, r1, zw, c1, values, r2, y, h1, h2, h3, h4, h5, rfl⟩
    exact ⟨commits, (c, r1), ⟨h1, rfl⟩, zw, (c1, r1), ⟨h2, rfl⟩, values, (c1, r2), ⟨h3, rfl⟩, _, _, rfl,
      y, _, ⟨h4, rfl⟩, _, _, rfl, h5, rfl⟩

/-! ## What the proof leaves alone -/

/-- A round changes the values of the proof only. -/
theorem zkRound_frame {ρ : RoundRandom} {u : Unit} {st : Commiter × Receiver}
    (h : zkRound sha256 ρ (c, r) = .ok u st) :
    (∃ commits alpha, st.1 = { c with commits, alpha }) ∧ st.2.com = r.com := by
  obtain ⟨commits, r1, zw, c1, values, r2, y, h1, h2, h3, -, -, rfl⟩ := zkRound_eq_ok.1 h
  obtain ⟨-, rfl, -⟩ := Receiver.zk1_eq_ok.1 h1
  obtain ⟨-, -, rfl, -⟩ := Commiter.zk2_eq_ok.1 h2
  obtain ⟨-, -, -, rfl⟩ := Receiver.zk3_eq_ok.1 h3
  exact ⟨⟨_, _, rfl⟩, rfl⟩

/-- Once `commit` has returned, both parties hold the commitment that was made. -/
theorem commit_frame {K : UInt32} {m : List Bool} {h : ℤ} {ρ : ℕ → RoundRandom} {com : Commitment}
    {st : Commiter × Receiver} (hrun : commit sha256 K m h ρ (c, r) = .ok com st) :
    ∃ c1, Commiter.commit K m h c = .ok com c1 ∧
      (∃ commits alpha, st.1 = { c1 with commits, alpha }) ∧ st.2.com = com := by
  simp only [commit, bind_eq_ok, onFst_eq_ok, onSnd_eq_ok, pure_apply] at hrun
  obtain ⟨com', ⟨c1, _⟩, ⟨hcom, hr⟩, _, ⟨c2, r2⟩, ⟨hacc, hc⟩, _, st', hloop, hpure⟩ := hrun
  cases hr
  cases hc
  cases hpure
  refine ⟨c1, hcom, ?_⟩
  obtain ⟨hr2, -⟩ := Receiver.acceptCommitment_eq_ok.1 hacc
  have hkeep : Triple (fun st : Commiter × Receiver =>
        (∃ commits alpha, st.1 = { c1 with commits, alpha }) ∧ st.2.com = com)
      ((List.range 10).forM fun i => zkRound sha256 (ρ i))
      (fun _ st => (∃ commits alpha, st.1 = { c1 with commits, alpha }) ∧ st.2.com = com)
      (fun _ _ => True) := by
    refine Triple.forM_invariant ?_
    rintro i - ⟨c, r⟩ ⟨⟨commits, alpha, hc⟩, hr⟩
    cases hround : zkRound sha256 (ρ i) (c, r) with
    | ok _ st =>
      obtain ⟨⟨commits', alpha', hst⟩, hcom'⟩ := zkRound_frame hround
      refine ⟨⟨commits', alpha', ?_⟩, hcom'.trans hr⟩
      rw [hst, show c = _ from hc]
    | error _ _ => trivial
  exact hkeep.of_ok ⟨⟨_, _, rfl⟩, by rw [hr2]⟩ hloop

/-! ## Completeness -/

/-- The response to a challenge cancels against it. -/
theorem response_cancel {M : Type} [CommRing M] {x : M} (hx : IsUnit x) (e a challenge : ℕ) :
    x ^ (challenge * e + a) * Ring.inverse (x ^ e) ^ challenge = x ^ a := by
  have hinv : x ^ e * Ring.inverse (x ^ e) = 1 := Ring.mul_inverse_cancel _ (hx.pow e)
  calc x ^ (challenge * e + a) * Ring.inverse (x ^ e) ^ challenge
      = (x ^ e * Ring.inverse (x ^ e)) ^ challenge * x ^ a := by
        rw [pow_add, Nat.mul_comm, pow_mul, mul_pow]
        ring
    _ = x ^ a := by rw [hinv, one_pow, one_mul]

/-- The answer of `zk_4` to a challenge at the index `i`, under the mask `a`. -/
def response (o : ℤ) (i : ℕ) (challenge a : ℤ) : ℤ :=
  (aTimesBModC challenge (aExpBModC 2 (2 ^ (i - 1)) o) o + a) % o

theorem response_modEq (o : ℤ) (i : ℕ) (challenge a : ℤ) :
    response o i challenge a ≡ challenge * 2 ^ 2 ^ (i - 1) + a [ZMOD o] := by
  refine (Int.mod_modEq _ _).trans (Int.ModEq.add_right _ ?_)
  refine (aTimesBModC_modEq _ _ _).trans (Int.ModEq.mul_left _ ?_)
  rw [aExpBModC_two_pow]
  exact Int.mod_modEq _ _

/-- The reduced response, as an exponent of anything whose order divides `o`. -/
theorem pow_response {M : Type} [CommRing M] {x : M} {o challenge a : ℤ} (ho : 0 < o)
    (hc : 0 ≤ challenge) (ha : 0 ≤ a) (hx : x ^ o.toNat = 1) (i : ℕ) :
    x ^ (response o i challenge a).toNat =
      x ^ (challenge.toNat * 2 ^ 2 ^ (i - 1) + a.toNat) := by
  have hpow : ∀ {k l : ℕ}, k ≡ l [MOD o.toNat] → x ^ k = x ^ l := by
    intro k l hkl
    rw [← Nat.div_add_mod k o.toNat, ← Nat.div_add_mod l o.toNat, pow_add, pow_add, pow_mul, pow_mul,
      hx, one_pow, one_pow, hkl]
  apply hpow
  have hnn : 0 ≤ response o i challenge a := Int.emod_nonneg _ ho.ne'
  rw [← Int.natCast_modEq_iff, Int.toNat_of_nonneg hnn, Int.toNat_of_nonneg ho.le]
  push_cast
  rw [Int.toNat_of_nonneg hc, Int.toNat_of_nonneg ha]
  exact response_modEq _ _ _ _

theorem eq_of_cast_eq {n : ℕ} {a b : ℤ} (ha : a % n = a) (hb : b % n = b)
    (h : (a : ZMod n) = b) : a = b := by
  rw [← ha, ← hb]
  exact (ZMod.intCast_eq_intCast_iff _ _ _).1 h

/-- One equation of the receiver's check, for an honest response. -/
theorem check_response {n : ℕ} {x w w' o challenge a : ℤ} (ho : 0 < o) (hc : 0 ≤ challenge)
    (ha : 0 ≤ a) (hx : IsUnit (x : ZMod n)) (hxo : (x : ZMod n) ^ o.toNat = 1) (i : ℕ)
    (hw : (w : ZMod n) = (x : ZMod n) ^ 2 ^ 2 ^ (i - 1)) (hw' : w' = aExpBModC x a n) :
    aTimesBModC (aExpBModC x (response o i challenge a) n)
      (aExpBModC (inverseMod w n) challenge n) n = w' := by
  subst hw'
  apply eq_of_cast_eq (aTimesBModC_emod _ _ _) (aExpBModC_emod _ _ _)
  rw [cast_aTimesBModC, cast_aExpBModC, cast_aExpBModC, cast_aExpBModC, cast_inverseMod, hw,
    pow_response ho hc ha hxo, response_cancel hx]

/-- A list with an unused entry in front, as the vectors of the proof are. -/
theorem getElem?_cons_map {α : Type} {K i : ℕ} (x : α) (f : ℕ → α) (h1 : 1 ≤ i) (hi : i ≤ K) :
    (x :: (List.range' 1 K).map f)[i]? = some (f i) := by
  obtain ⟨j, rfl⟩ := Nat.exists_eq_add_of_le' h1
  rw [List.getElem?_cons_succ, List.getElem?_map, List.getElem?_range' (by omega)]
  simp [Nat.add_comm]

theorem getElem?_map_range {α : Type} {K i : ℕ} (x : α) (f : ℕ → α) (h1 : 1 ≤ i) (hi : i ≤ K) :
    ((List.range (K + 1)).map fun i => if i = 0 then x else f i)[i]? = some (f i) := by
  rw [List.getElem?_map, List.getElem?_range (by omega), Option.map_some, if_neg (by omega)]

/-- What an honest committer and its receiver have between two rounds. -/
structure Committed (n : ℕ) (c : Commiter) (r : Receiver) : Prop where
  n_ne_zero : n ≠ 0
  n_eq : c.n = n
  com_n : c.com.n = n
  same : r.com = c.com
  order_pos : 0 < c.order
  pow_order : (c.com.g : ZMod n) ^ c.order.toNat = 1
  isUnit : IsUnit (c.com.g : ZMod n)
  fits : c.com.K.toNat + 1 < 2 ^ 32
  W : ∀ i ≤ c.com.K.toNat, c.com.W[i]? = some (c.com.g ^ 2 ^ 2 ^ i % n)

/-- The two powers that the committer shows of each of its masks. -/
def maskPairs (c : Commiter) (draw : ℕ → ℤ) : List (ℤ × ℤ) :=
  (List.range' 1 c.com.K.toNat).map fun i =>
    (aExpBModC c.com.g (draw i) c.n, aExpBModC (c.com.g ^ 2 ^ 2 ^ (i - 1) % c.com.n) (draw i) c.n)

theorem Commiter.zk2_ok {n : ℕ} (h : Committed n c r) {commits : List Bytes32}
    (hlen : commits.length = (c.com.K + 1).toNat) (draw : ℕ → ℤ) :
    Commiter.zk2 commits draw c =
      .ok (0 :: (maskPairs c draw).map Prod.fst, 0 :: (maskPairs c draw).map Prod.snd)
        { c with commits, alpha := masks c draw } := by
  refine Commiter.zk2_eq_ok.2 ⟨hlen, resizeCheck_eq_ok.2 h.fits, rfl, maskPairs c draw, ?_, rfl⟩
  refine mapM_of_ok fun i hi => ?_
  rw [List.mem_range'_1] at hi
  have hmask : (masks c draw)[i]? = some (draw i) := getElem?_map_range _ _ hi.1 (by omega)
  rw [elemAt_eq_ok.2 hmask, except_ok_bind, elemAt_eq_ok.2 (h.W (i - 1) (by omega)), except_ok_bind,
    h.com_n]

/-- The committer answers values that match the commitments it was sent. -/
theorem Commiter.zk4_ok {values : List ℤ} {challenge alpha : ℕ → ℤ}
    (hlen : values.length = (c.com.K + 1).toNat)
    (hvalue : ∀ i, 1 ≤ i → i ≤ c.com.K.toNat → values[i]? = some (challenge i))
    (hcommit : ∀ i, 1 ≤ i → i ≤ c.com.K.toNat →
      c.commits[i]? = some (regularCommit sha256 (challenge i)))
    (halpha : ∀ i, 1 ≤ i → i ≤ c.com.K.toNat → c.alpha[i]? = some (alpha i)) :
    c.zk4 sha256 values = .ok (0 :: (List.range' 1 c.com.K.toNat).map fun i =>
      response c.order i (challenge i) (alpha i)) := by
  have hrange : ∀ i ∈ List.range' 1 c.com.K.toNat, 1 ≤ i ∧ i ≤ c.com.K.toNat := by
    intro i hi
    rw [List.mem_range'_1] at hi
    omega
  have hverify : ((List.range' 1 c.com.K.toNat).forM fun i => do
      let commit ← elemAt c.commits i
      let value ← elemAt values i
      refuseIf (regularVerify sha256 commit value = false)
        (.timedProtocolException "regular commit didn't verify")) = .ok () := by
    refine forM_eq_ok_iff.2 fun i hi => ?_
    obtain ⟨h1, hK⟩ := hrange i hi
    rw [elemAt_eq_ok.2 (hcommit i h1 hK), except_ok_bind, elemAt_eq_ok.2 (hvalue i h1 hK),
      except_ok_bind]
    exact refuseIf_of_not (by simp [regularVerify])
  have hanswer : ((List.range' 1 c.com.K.toNat).mapM fun i => do
      let value ← elemAt values i
      let a ← elemAt c.alpha i
      let yi := aTimesBModC value (aExpBModC 2 (2 ^ (i - 1)) c.order) c.order
      Except.ok ((yi + a) % c.order)) = .ok ((List.range' 1 c.com.K.toNat).map fun i =>
        response c.order i (challenge i) (alpha i)) := by
    refine mapM_of_ok fun i hi => ?_
    obtain ⟨h1, hK⟩ := hrange i hi
    rw [elemAt_eq_ok.2 (hvalue i h1 hK), except_ok_bind, elemAt_eq_ok.2 (halpha i h1 hK),
      except_ok_bind]
    rfl
  rw [Commiter.zk4, refuseIf_of_not (not_not.2 hlen), except_ok_bind, hverify, except_ok_bind,
    hanswer, except_ok_bind]

/-- The receiver accepts the answer at each index: the first equation is about the base,
the second about the previous power. -/
theorem zk5Check_ok {n : ℕ} (h : Committed n c r) {y : List ℤ} {i : ℕ} (h1 : 1 ≤ i)
    (hi : i ≤ c.com.K.toNat) {challenge alpha : ℤ} (hc : 0 ≤ challenge) (ha : 0 ≤ alpha)
    (hvalue : r.commitValues[i]? = some challenge)
    (hz : r.zw.1[i]? = some (aExpBModC c.com.g alpha n))
    (hw : r.zw.2[i]? = some (aExpBModC (c.com.g ^ 2 ^ 2 ^ (i - 1) % n) alpha n))
    (hy : y[i]? = some (response c.order i challenge alpha)) :
    Receiver.zk5Check r y i = .ok () := by
  have hprev : r.com.W[i - 1]? = some (c.com.g ^ 2 ^ 2 ^ (i - 1) % n) := by
    rw [h.same]
    exact h.W _ (by omega)
  have hcur : r.com.W[i]? = some (c.com.g ^ 2 ^ 2 ^ i % n) := by
    rw [h.same]
    exact h.W _ hi
  have hcast : ∀ e : ℕ, ((c.com.g ^ e % n : ℤ) : ZMod n) = (c.com.g : ZMod n) ^ e := by
    intro e
    rw [ZMod.intCast_mod]
    push_cast
    rfl
  refine Receiver.zk5Check_eq_ok.2
    ⟨_, _, challenge, _, _, _, hy, hprev, hvalue, hz, hcur, hw, ?_, ?_, ?_⟩
  · rw [h.same, h.com_n]
    exact Int.natCast_ne_zero.2 h.n_ne_zero
  · rw [h.same, h.com_n]
    exact check_response h.order_pos hc ha h.isUnit h.pow_order i (hcast _) rfl
  · rw [h.same, h.com_n]
    refine check_response h.order_pos hc ha ?_ ?_ i ?_ rfl
    · rw [hcast]
      exact h.isUnit.pow _
    · rw [hcast, ← pow_mul, Nat.mul_comm, pow_mul, h.pow_order, one_pow]
    · rw [hcast, hcast, ← pow_mul, ← pow_add, ← two_mul, ← pow_succ', Nat.sub_add_cancel h1]

/-- **The messages of an honest round.**  Neither party refuses one, and the committer
answers the challenge at each index. -/
theorem messages_ok {n : ℕ} (h : Committed n c r) {ρ : RoundRandom}
    (hchallenge : ∀ i, 0 ≤ ρ.challenge i) (halpha : ∀ i, 0 ≤ ρ.alpha i) :
    ∃ commits r1 zw c1 values r2 y,
      Receiver.zk1 sha256 ρ.challenge r = .ok commits r1 ∧
      Commiter.zk2 commits ρ.alpha c = .ok zw c1 ∧ Receiver.zk3 zw r1 = .ok values r2 ∧
      c1.zk4 sha256 values = .ok y ∧ r2.zk5 y = .ok () ∧ Committed n c1 r2 ∧
      ∀ i, 1 ≤ i → i ≤ c.com.K.toNat → values[i]? = some (ρ.challenge i) ∧
        y[i]? = some (response c.order i (ρ.challenge i) (ρ.alpha i)) := by
  have hK1 := toNat_add_one h.fits
  have hresize := resizeCheck_eq_ok.2 h.fits
  have hrK : r.com.K = c.com.K := by rw [h.same]
  -- the values of the receiver and the first message of the committer
  set values := (List.range (c.com.K.toNat + 1)).map fun i =>
    if i = 0 then r.commitValues.getD 0 0 else ρ.challenge i with hvalues
  set commits := (List.range (c.com.K.toNat + 1)).map fun i =>
    if i = 0 then Vector.replicate 32 0 else regularCommit sha256 (ρ.challenge i) with hcommits
  set pairs := maskPairs c ρ.alpha with hpairs
  set zw := (0 :: pairs.map Prod.fst, 0 :: pairs.map Prod.snd) with hzw
  have hvalue : ∀ i, 1 ≤ i → i ≤ c.com.K.toNat → values[i]? = some (ρ.challenge i) :=
    fun i h1 hi => getElem?_map_range _ _ h1 hi
  have hmask : ∀ i, 1 ≤ i → i ≤ c.com.K.toNat → (masks c ρ.alpha)[i]? = some (ρ.alpha i) :=
    fun i h1 hi => getElem?_map_range _ _ h1 hi
  have hzk1 : Receiver.zk1 sha256 ρ.challenge r = .ok commits { r with commitValues := values } := by
    refine Receiver.zk1_eq_ok.2 ⟨by rw [hrK]; exact hresize, ?_, ?_⟩ <;> rw [hrK]
  have hzk2 : Commiter.zk2 commits ρ.alpha c =
      .ok zw { c with commits, alpha := masks c ρ.alpha } :=
    Commiter.zk2_ok h (by simp [hcommits, hK1]) ρ.alpha
  have hzk3 : Receiver.zk3 zw { r with commitValues := values } =
      .ok values { r with commitValues := values, zw } := by
    refine Receiver.zk3_eq_ok.2 ⟨?_, ?_, rfl, rfl⟩ <;> simp [hzw, hpairs, maskPairs, hrK, hK1]
  set y := (0 : ℤ) :: (List.range' 1 c.com.K.toNat).map fun i =>
    response c.order i (ρ.challenge i) (ρ.alpha i) with hy
  have hzk4 : Commiter.zk4 sha256 { c with commits, alpha := masks c ρ.alpha } values = .ok y :=
    Commiter.zk4_ok (by simp [hvalues, hK1]) hvalue (fun i h1 hi => getElem?_map_range _ _ h1 hi)
      hmask
  have hnext : Committed n { c with commits, alpha := masks c ρ.alpha }
      { r with commitValues := values, zw } :=
    ⟨h.n_ne_zero, h.n_eq, h.com_n, h.same, h.order_pos, h.pow_order, h.isUnit, h.fits, h.W⟩
  have hfst : ∀ i, 1 ≤ i → i ≤ c.com.K.toNat → zw.1[i]? = some (aExpBModC c.com.g (ρ.alpha i) n) := by
    intro i h1 hi
    show (0 :: pairs.map Prod.fst)[i]? = _
    rw [hpairs, maskPairs, List.map_map, getElem?_cons_map _ _ h1 hi, h.n_eq]
    rfl
  have hsnd : ∀ i, 1 ≤ i → i ≤ c.com.K.toNat →
      zw.2[i]? = some (aExpBModC (c.com.g ^ 2 ^ 2 ^ (i - 1) % n) (ρ.alpha i) n) := by
    intro i h1 hi
    show (0 :: pairs.map Prod.snd)[i]? = _
    rw [hpairs, maskPairs, List.map_map, getElem?_cons_map _ _ h1 hi, h.n_eq, h.com_n]
    rfl
  have hzk5 : Receiver.zk5 { r with commitValues := values, zw } y = .ok () := by
    refine Receiver.zk5_eq_ok.2 ⟨by simp [hy, hrK, hK1], ?_⟩
    intro i h1 hi
    have hi' : i ≤ c.com.K.toNat := by rw [← hrK]; exact hi
    exact zk5Check_ok hnext h1 hi' (hchallenge i) (halpha i) (hvalue i h1 hi') (hfst i h1 hi')
      (hsnd i h1 hi') (getElem?_cons_map _ _ h1 hi')
  exact ⟨_, _, _, _, _, _, _, hzk1, hzk2, hzk3, hzk4, hzk5, hnext,
    fun i h1 hi => ⟨hvalue i h1 hi, getElem?_cons_map _ _ h1 hi⟩⟩

/-- **Completeness of a round.**  An honest committer answers every challenge. -/
theorem zkRound_ok {n : ℕ} (h : Committed n c r) {ρ : RoundRandom}
    (hchallenge : ∀ i, 0 ≤ ρ.challenge i) (halpha : ∀ i, 0 ≤ ρ.alpha i) :
    ∃ st, zkRound sha256 ρ (c, r) = .ok () st ∧ Committed n st.1 st.2 := by
  obtain ⟨_, _, _, c1, _, r2, _, h1, h2, h3, h4, h5, hnext, -⟩ := messages_ok h hchallenge halpha
  exact ⟨(c1, r2), zkRound_eq_ok.2 ⟨_, _, _, _, _, _, _, h1, h2, h3, h4, h5, rfl⟩, hnext⟩

/-- Once its commitment is accepted, an honest committer is ready for the proof. -/
theorem committed_of_commit {p q : ℕ} (hc : c.Honest p q) {K : UInt32} {m : List Bool} {h : ℤ}
    (hh : IsCoprime h (p * q : ℤ)) {com : Commitment}
    (hcommit : Commiter.commit K m h c = .ok com c') (hr : r.com = com) :
    Committed (p * q) c' r := by
  obtain ⟨rfl, hfits, order, rfl, -, hpos, hone⟩ := commit_spec hc hh hcommit
  have hn : ((p * q : ℕ) : ℤ) = p * q := by push_cast; rfl
  exact {
    n_ne_zero := Nat.mul_ne_zero hc.safe_p.prime.ne_zero hc.safe_q.prime.ne_zero
    n_eq := hc.n_eq.trans hn.symm
    com_n := hn.symm
    same := hr
    order_pos := hpos
    pow_order := by
      rw [← hn] at hone
      have hcast := (ZMod.intCast_eq_intCast_iff _ _ _).2 hone
      push_cast at hcast
      exact_mod_cast hcast
    isUnit := by
      rw [isUnit_cast_iff, ← Int.isCoprime_iff_gcd_eq_one, hn]
      exact isCoprime_getG hh
    fits := hfits
    W := by
      intro i hi
      rw [hn]
      exact honestCom_W i hi }

/-- What the honest committer of two primes makes, with the proof that follows. -/
theorem commit_ok {p q : ℕ} (hp : IsSafePrime p) (hq : IsSafePrime q) (hpq : p ≠ q) {K : UInt32}
    (hK : 1 ≤ K.toNat) (hfits : K.toNat + 1 < 2 ^ 32) {m : List Bool} (hm : m.length ≤ 2 ^ K.toNat)
    {h : ℤ} (hh : IsCoprime h (p * q : ℤ)) {ρ : ℕ → RoundRandom}
    (hchallenge : ∀ k i, 0 ≤ (ρ k).challenge i) (halpha : ∀ k i, 0 ≤ (ρ k).alpha i) (r : Receiver) :
    ∃ st, commit sha256 K m h ρ (Commiter.ofPrimes p q, r) =
      .ok (honestCom (p * q) h K m) st := by
  have hc := Commiter.honest_ofPrimes hp hq hpq
  have hn : (p * q : ℤ) ≠ 0 := TwoPrimes.cast_mul_ne_zero hp.prime hq.prime
  obtain ⟨order, -, -, hcommit⟩ := commit_apply hc hK hm hh
  rw [resizeCheck_eq_ok.2 hfits] at hcommit
  have hstart : Committed (p * q)
      { Commiter.ofPrimes p q with order, com := honestCom (p * q) h K m }
      { r with com := honestCom (p * q) h K m } := committed_of_commit hc hh hcommit rfl
  have hloop : Triple (fun st : Commiter × Receiver => Committed (p * q) st.1 st.2)
      ((List.range 10).forM fun i => zkRound sha256 (ρ i))
      (fun _ st => Committed (p * q) st.1 st.2) (fun _ _ => False) := by
    refine Triple.forM_invariant fun i _ => ?_
    rintro ⟨c, r⟩ hinv
    obtain ⟨st, hround, hst⟩ := zkRound_ok hinv (hchallenge i) (halpha i)
    rw [hround]
    exact hst
  obtain ⟨u, st, hrounds, -⟩ := hloop.returns (s := (_, _)) hstart
  refine ⟨st, ?_⟩
  unfold commit
  rw [bind_of_ok (onFst_of_ok hcommit),
    bind_of_ok (onSnd_of_ok (acceptCommitment_honest hn hfits r)), bind_of_ok hrounds, pure_apply]

end SellingInformation.TimedCommitment
