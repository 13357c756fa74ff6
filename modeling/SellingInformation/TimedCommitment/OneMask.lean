import Mathlib.Data.Set.Function
import SellingInformation.TimedCommitment.Proof

/-!
# A receiver that asks twice

`zk_2` draws masks, and `zk_4` answers the challenges that match the hashes of the last
`zk_2`.  Nothing stops a receiver from calling `zk_4` again under the same masks, and two
different answers there differ by a multiple of a number the receiver knows, modulo the
secret order of the base.  What stands in the way is that the hash fixes the challenge.

The hash is taken of `Encode`, which writes the magnitude of a number: it does not tell
`v` from `-v`, and `zk_4` does not check the sign.

* `zk4_eq_ok` — when `zk_4` answers, and with what;
* `answer_eq_iff` — when two lists of challenges under one mask have the same answer;
* `Commiter.sameSecret_after` — no call changes the order, or leaves a hash without its mask;
* `singleAnswer_iff` — which runs have one answer for each mask.
-/

namespace SellingInformation.TimedCommitment

open CryptoPP Common Fallible

/-- What a receiver asks of the committer.  The masks that `zk_2` draws come with the call. -/
inductive ReceiverCall where
  | zk2 (commits : List Bytes32) (draw : ℕ → ℤ)
  | zk4 (commitValues : List ℤ)

/-- Is this a call of `zk_4`? -/
def ReceiverCall.IsZk4 : ReceiverCall → Prop
  | .zk2 _ _ => False
  | .zk4 _ => True

/-- The byte strings that `zk_4` hashes in a run. -/
def hashed (calls : List ReceiverCall) : Set Bytes :=
  { b | ∃ values, ReceiverCall.zk4 values ∈ calls ∧ ∃ v ∈ values, b = toBytes v }

namespace Commiter

/-- What a call leaves behind, whether it returns or throws. -/
def handle (c : Commiter) : ReceiverCall → Commiter
  | .zk2 commits draw => final (zk2 commits draw c)
  | .zk4 _ => c

/-- The committer after a sequence of calls. -/
def after (c : Commiter) (calls : List ReceiverCall) : Commiter := calls.foldl handle c

section
variable (sha256 : Sha256) (c : Commiter)

/-- The challenges match the hashes that are stored. -/
def Verifies (values : List ℤ) : Prop :=
  values.length = (c.com.K + 1).toNat ∧ ∀ i, 1 ≤ i → i ≤ c.com.K.toNat →
    ∃ commit value, c.commits[i]? = some commit ∧ values[i]? = some value ∧
      regularVerify sha256 commit value = true

/-- The answer to a list of challenges. -/
def answer (values : List ℤ) : List ℤ :=
  0 :: (List.range' 1 c.com.K.toNat).map fun i =>
    response c.order i (values.getD i 0) (c.alpha.getD i 0)

end

end Commiter

/-- In a run, `zk_4` is called with `values` after the calls `pre`, and again with `values'`
after the calls `mid`, none of which is `zk_2`. -/
def AskedTwice (calls pre : List ReceiverCall) (values : List ℤ) (mid : List ReceiverCall)
    (values' : List ℤ) : Prop :=
  (∃ post, calls = pre ++ .zk4 values :: (mid ++ .zk4 values' :: post)) ∧ ∀ call ∈ mid, call.IsZk4

/-- Calls of `zk_4` that return with no `zk_2` between them return the same answer. -/
def SingleAnswer (sha256 : Sha256) (c : Commiter) (calls : List ReceiverCall) : Prop :=
  ∀ pre values mid values', AskedTwice calls pre values mid values' → ∀ y y',
    (c.after pre).zk4 sha256 values = .ok y →
    (c.after (pre ++ .zk4 values :: mid)).zk4 sha256 values' = .ok y' → y = y'

/-- Where two lists of challenges that both match are sent under one mask, each challenge is
repeated, or adding it twice is adding a multiple of the order. -/
def Consistent (sha256 : Sha256) (c : Commiter) (calls : List ReceiverCall) : Prop :=
  ∀ pre values mid values', AskedTwice calls pre values mid values' →
    (c.after pre).Verifies sha256 values → (c.after pre).Verifies sha256 values' →
    ∀ i, 1 ≤ i → i ≤ c.com.K.toNat → ∀ v v', values[i]? = some v → values'[i]? = some v' →
      v = v' ∨ c.order ∣ 2 * v * 2 ^ 2 ^ (i - 1)

section
variable {sha256 : Sha256} {c : Commiter} {values values' : List ℤ}

/-! ## Answers -/

/-- `zk_4` answers exactly the challenges that match. -/
theorem Commiter.zk4_eq_ok (hmask : c.commits.length ≤ c.alpha.length) {y : List ℤ} :
    c.zk4 sha256 values = .ok y ↔ c.Verifies sha256 values ∧ y = c.answer values := by
  have hanswer : c.Verifies sha256 values → c.zk4 sha256 values = .ok (c.answer values) := by
    rintro ⟨hlen, hverify⟩
    refine zk4_ok hlen ?_ ?_ ?_ <;> intro i h1 hi <;>
      obtain ⟨commit, value, hcommit, hvalue, hmatch⟩ := hverify i h1 hi
    · rw [List.getD_eq_getElem?_getD, hvalue]
      rfl
    · rw [List.getD_eq_getElem?_getD, hvalue, hcommit]
      exact congrArg some (of_decide_eq_true hmatch)
    · have hlt : i < c.alpha.length := (List.getElem?_eq_some_iff.1 hcommit).1.trans_le hmask
      rw [List.getD_eq_getElem?_getD, List.getElem?_eq_getElem hlt]
      rfl
  constructor
  · intro h
    have hverify : c.Verifies sha256 values := by
      simp only [Commiter.zk4, except_bind_eq_ok, refuseIf_eq_ok, ne_eq, not_not] at h
      obtain ⟨_, hlen, ⟨⟩, hall, -⟩ := h
      refine ⟨hlen, fun i h1 hi => ?_⟩
      have hround := forM_eq_ok_iff.1 hall i (List.mem_range'_1.2 ⟨h1, by omega⟩)
      simp only [except_bind_eq_ok, elemAt_eq_ok, refuseIf_eq_ok, Bool.not_eq_false] at hround
      obtain ⟨commit, hcommit, value, hvalue, hmatch⟩ := hround
      exact ⟨commit, value, hcommit, hvalue, hmatch⟩
    exact ⟨hverify, Except.ok.inj (h.symm.trans (hanswer hverify))⟩
  · rintro ⟨hverify, rfl⟩
    exact hanswer hverify

/-- Two challenges have one answer under one mask when they agree where the mask is added. -/
theorem response_eq_iff (o : ℤ) (i : ℕ) (v v' a : ℤ) :
    response o i v a = response o i v' a ↔ v * 2 ^ 2 ^ (i - 1) ≡ v' * 2 ^ 2 ^ (i - 1) [ZMOD o] := by
  have hred : ∀ v, response o i v a % o = response o i v a :=
    fun v => Int.emod_emod_of_dvd _ dvd_rfl
  have hmod := response_modEq o i v a
  have hmod' := response_modEq o i v' a
  constructor
  · intro h
    rw [h] at hmod
    exact Int.ModEq.add_right_cancel' a (hmod.symm.trans hmod')
  · intro h
    rw [← hred v, ← hred v']
    exact hmod.trans ((h.add_right a).trans hmod'.symm)

/-- Without a collision, matching challenges agree up to sign. -/
theorem natAbs_eq_of_verify {S : Set Bytes} (hinj : Set.InjOn sha256 S) {commit : Bytes32}
    {v v' : ℤ} (hv : toBytes v ∈ S) (hv' : toBytes v' ∈ S)
    (h : regularVerify sha256 commit v = true) (h' : regularVerify sha256 commit v' = true) :
    v.natAbs = v'.natAbs := by
  have hcommit : sha256 (toBytes v) = sha256 (toBytes v') :=
    (of_decide_eq_true h).symm.trans (of_decide_eq_true h')
  have hbytes := congrArg ofBytes (hinj hv hv' hcommit)
  rw [ofBytes_toBytes, ofBytes_toBytes] at hbytes
  exact_mod_cast hbytes

/-- When two lists of matching challenges have the same answer. -/
theorem answer_eq_iff {S : Set Bytes} (hinj : Set.InjOn sha256 S)
    (hS : ∀ v ∈ values, toBytes v ∈ S) (hS' : ∀ v ∈ values', toBytes v ∈ S)
    (h : c.Verifies sha256 values) (h' : c.Verifies sha256 values') :
    c.answer values = c.answer values' ↔ ∀ i, 1 ≤ i → i ≤ c.com.K.toNat → ∀ v v',
      values[i]? = some v → values'[i]? = some v' → v = v' ∨ c.order ∣ 2 * v * 2 ^ 2 ^ (i - 1) := by
  have hgetD : ∀ {l : List ℤ} {i : ℕ} {v : ℤ}, l[i]? = some v → l.getD i 0 = v := by
    intro l i v hv
    rw [List.getD_eq_getElem?_getD, hv]
    rfl
  have hat : ∀ i, 1 ≤ i → i ≤ c.com.K.toNat → ∀ v v', values[i]? = some v → values'[i]? = some v' →
      (response c.order i v (c.alpha.getD i 0) = response c.order i v' (c.alpha.getD i 0) ↔
        v = v' ∨ c.order ∣ 2 * v * 2 ^ 2 ^ (i - 1)) := by
    intro i h1 hi v v' hv hv'
    obtain ⟨commit, value, hcommit, hvalue, hmatch⟩ := h.2 i h1 hi
    obtain ⟨commit', value', hcommit', hvalue', hmatch'⟩ := h'.2 i h1 hi
    cases hv.symm.trans hvalue
    cases hv'.symm.trans hvalue'
    cases hcommit.symm.trans hcommit'
    have habs := natAbs_eq_of_verify hinj (hS v (List.mem_of_getElem? hv))
      (hS' v' (List.mem_of_getElem? hv')) hmatch hmatch'
    rw [response_eq_iff]
    rcases Int.natAbs_eq_natAbs_iff.1 habs with rfl | rfl
    · simp
    · have hneg : -v' * 2 ^ 2 ^ (i - 1) ≡ v' * 2 ^ 2 ^ (i - 1) [ZMOD c.order] ↔
          c.order ∣ 2 * -v' * 2 ^ 2 ^ (i - 1) := by
        rw [Int.modEq_iff_dvd, ← Int.dvd_neg]
        ring_nf
      rw [hneg]
      constructor
      · exact Or.inr
      · rintro (heq | hdvd)
        · have hzero : v' = 0 := by omega
          simp [hzero]
        · exact hdvd
  unfold Commiter.answer
  rw [List.cons.injEq, List.map_inj_left]
  constructor
  · rintro ⟨-, hall⟩ i h1 hi v v' hv hv'
    have hresp := hall i (List.mem_range'_1.2 ⟨h1, by omega⟩)
    rw [hgetD hv, hgetD hv'] at hresp
    exact (hat i h1 hi v v' hv hv').1 hresp
  · intro hall
    refine ⟨rfl, fun i hi => ?_⟩
    obtain ⟨h1, hlt⟩ := List.mem_range'_1.1 hi
    have hK : i ≤ c.com.K.toNat := by omega
    obtain ⟨-, v, -, hv, -⟩ := h.2 i h1 hK
    obtain ⟨-, v', -, hv', -⟩ := h'.2 i h1 hK
    rw [hgetD hv, hgetD hv']
    exact (hat i h1 hK v v' hv hv').2 (hall i h1 hK v v' hv hv')

/-! ## Runs -/

/-- What the calls of a receiver never change. -/
structure SameSecret (c c' : Commiter) : Prop where
  com : c'.com = c.com
  order : c'.order = c.order
  masked : c'.commits.length ≤ c'.alpha.length

/-- Even when it throws, `zk_2` leaves as many masks as hashes. -/
theorem Commiter.maintains_zk2 (commits : List Bytes32) (draw : ℕ → ℤ) :
    Maintains (SameSecret c) (Commiter.zk2 commits draw) := by
  unfold Commiter.zk2
  refine Triple.get_bind fun c' hc' => ?_
  refine Triple.bind (Q := fun _ s => s = c' ∧ commits.length = (c'.com.K + 1).toNat)
    (Triple.throwIf ?_ ?_) fun _ => ?_
  · rintro - s rfl
    exact hc'
  · intro hlen s hs
    exact ⟨hs, not_not.1 hlen⟩
  refine Triple.bind (Q := fun _ s => s = c' ∧ commits.length = (c'.com.K + 1).toNat)
    (Triple.lift (fun _ _ s hs => hs) ?_) fun _ => ?_
  · rintro e - s ⟨rfl, -⟩
    exact hc'
  refine Triple.bind (Q := fun _ => SameSecret c) ?_ fun _ => Triple.bind
    (Q := fun _ => SameSecret c) (Triple.lift (fun _ _ s hs => hs) fun _ _ s hs => hs) fun _ =>
    Triple.pure fun s hs => hs
  rintro s ⟨rfl, hlen⟩
  refine ⟨hc'.com, hc'.order, ?_⟩
  show commits.length ≤ (masks s draw).length
  rw [hlen, masks, List.length_map, List.length_range, UInt32.toNat_add, UInt32.toNat_one]
  exact Nat.mod_le _ _

theorem Commiter.sameSecret_handle {c' : Commiter} (h : SameSecret c c') (call : ReceiverCall) :
    SameSecret c (c'.handle call) := by
  cases call with
  | zk2 commits draw => exact (Commiter.maintains_zk2 commits draw).final_of h
  | zk4 values => exact h

theorem Commiter.sameSecret_after {c' : Commiter} (h : SameSecret c c') (calls : List ReceiverCall) :
    SameSecret c (c'.after calls) := by
  induction calls generalizing c' with
  | nil => exact h
  | cons call calls ih => exact ih (Commiter.sameSecret_handle h call)

theorem Commiter.after_append (calls calls' : List ReceiverCall) :
    c.after (calls ++ calls') = (c.after calls).after calls' :=
  List.foldl_append

/-- Without `zk_2` the committer stays as it is. -/
theorem Commiter.after_of_isZk4 {calls : List ReceiverCall} (h : ∀ call ∈ calls, call.IsZk4) :
    c.after calls = c := by
  induction calls with
  | nil => rfl
  | cons call calls ih =>
    have hcall : c.handle call = c := by
      cases call with
      | zk2 commits draw => exact (h _ (List.mem_cons_self ..)).elim
      | zk4 values => rfl
    show (c.handle call).after calls = c
    rw [hcall]
    exact ih fun call hcall => h call (List.mem_cons_of_mem _ hcall)

/-- After `zk_2`, what matches its hashes verifies. -/
theorem Commiter.verifies_after_zk2 {n : ℕ} {r : Receiver} (h : Committed n c r)
    {commits : List Bytes32} (draw : ℕ → ℤ) (values : List ℤ) (hcommits : commits.length = (c.com.K + 1).toNat)
    (hvalues : values.length = (c.com.K + 1).toNat)
    (hmatch : ∀ i, 1 ≤ i → i ≤ c.com.K.toNat → ∃ commit value, commits[i]? = some commit ∧
      values[i]? = some value ∧ regularVerify sha256 commit value = true) :
    (c.after [.zk2 commits draw]).Verifies sha256 values := by
  have hstate : c.after [.zk2 commits draw] = { c with commits, alpha := masks c draw } :=
    congrArg final (Commiter.zk2_ok h hcommits draw)
  rw [hstate]
  exact ⟨hvalues, hmatch⟩

/-- The second of two calls under one mask is made to the same committer as the first. -/
theorem AskedTwice.after_eq {calls pre mid : List ReceiverCall}
    (h : AskedTwice calls pre values mid values') :
    c.after (pre ++ .zk4 values :: mid) = c.after pre := by
  rw [Commiter.after_append]
  refine Commiter.after_of_isZk4 fun call hcall => ?_
  rcases List.mem_cons.1 hcall with rfl | hmid
  · trivial
  · exact h.2 call hmid

/-- The challenges of two calls under one mask are hashed in the run. -/
theorem AskedTwice.hashed {calls pre mid : List ReceiverCall}
    (h : AskedTwice calls pre values mid values') :
    (∀ v ∈ values, toBytes v ∈ hashed calls) ∧ ∀ v ∈ values', toBytes v ∈ hashed calls := by
  obtain ⟨⟨post, rfl⟩, -⟩ := h
  exact ⟨fun v hv => ⟨values, by simp, v, hv, rfl⟩, fun v hv => ⟨values', by simp, v, hv, rfl⟩⟩

/-- **One answer under one mask**, from any committer whose hashes have their masks. -/
theorem singleAnswer_of_masked_iff (hmask : c.commits.length ≤ c.alpha.length)
    {calls : List ReceiverCall} (hinj : Set.InjOn sha256 (hashed calls)) :
    SingleAnswer sha256 c calls ↔ Consistent sha256 c calls := by
  have hsame := fun pre => Commiter.sameSecret_after (c := c) ⟨rfl, rfl, hmask⟩ pre
  have hpair : ∀ {pre values mid values'}, AskedTwice calls pre values mid values' →
      (c.after pre).Verifies sha256 values → (c.after pre).Verifies sha256 values' →
      ((c.after pre).answer values = (c.after pre).answer values' ↔
        ∀ i, 1 ≤ i → i ≤ c.com.K.toNat → ∀ v v', values[i]? = some v → values'[i]? = some v' →
          v = v' ∨ c.order ∣ 2 * v * 2 ^ 2 ^ (i - 1)) := by
    intro pre values mid values' hasked h h'
    rw [answer_eq_iff hinj hasked.hashed.1 hasked.hashed.2 h h', (hsame pre).com, (hsame pre).order]
  constructor
  · intro hsingle pre values mid values' hasked h h'
    refine (hpair hasked h h').1 (hsingle pre values mid values' hasked _ _
      ((Commiter.zk4_eq_ok (hsame pre).masked).2 ⟨h, rfl⟩) ?_)
    rw [hasked.after_eq]
    exact (Commiter.zk4_eq_ok (hsame pre).masked).2 ⟨h', rfl⟩
  · intro hcons pre values mid values' hasked y y' hy hy'
    rw [hasked.after_eq] at hy'
    obtain ⟨h, rfl⟩ := (Commiter.zk4_eq_ok (hsame pre).masked).1 hy
    obtain ⟨h', rfl⟩ := (Commiter.zk4_eq_ok (hsame pre).masked).1 hy'
    exact (hpair hasked h h').2 (hcons pre values mid values' hasked h h')

end

/-- **One answer under one mask.**  In a run against an honest committer, and as long as the
hash does not collide, the answers under each mask are equal exactly when no two lists of
matching challenges differ in a sign that the order of the base shows. -/
theorem singleAnswer_iff {sha256 : Sha256} {p q : ℕ} {c c' : Commiter} (hc : c.Honest p q)
    {K : UInt32} {m : List Bool} {h : ℤ} (hh : IsCoprime h (p * q : ℤ)) {com : Commitment}
    (hcommit : Commiter.commit K m h c = .ok com c') {calls : List ReceiverCall}
    (hinj : Set.InjOn sha256 (hashed calls)) :
    SingleAnswer sha256 c' calls ↔ Consistent sha256 c' calls := by
  obtain ⟨-, -, order, rfl, -⟩ := commit_spec hc hh hcommit
  apply singleAnswer_of_masked_iff _ hinj
  exact hc.masked

/-! ## A run with two answers -/

/-- The base that minus one gives modulo `7 * 11` is one. -/
theorem getG_seventySix : getG (7 * 11) 76 = 1 := by
  obtain ⟨e, he⟩ : 2 ∣ mult.toNat := (dvd_pow_self 2 (by decide)).trans two_pow_dvd_mult
  have hsq : (76 : ℤ) ^ 2 ≡ 1 [ZMOD 7 * 11] := by decide
  have hpow : (76 : ℤ) ^ mult.toNat ≡ 1 [ZMOD 7 * 11] := by
    rw [he, pow_mul]
    simpa using hsq.pow e
  exact hpow

theorem isCoprime_seventySix : IsCoprime (76 : ℤ) ((7 : ℕ) * (11 : ℕ)) := ⟨-1, 1, by norm_num⟩

/-- With that base, and the primes 7 and 11, the search for the order ends at five. -/
theorem order_seventySix {c c' : Commiter} (hc : c.Honest 7 11) {K : UInt32} {m : List Bool}
    {com : Commitment} (hcommit : Commiter.commit K m 76 c = .ok com c') : c'.order = 5 := by
  obtain ⟨-, -, order, rfl, horder, -⟩ := commit_spec hc isCoprime_seventySix hcommit
  have hfive : findOrder (7 : ℕ) (11 : ℕ) (getG ((7 : ℕ) * (11 : ℕ)) 76) = .ok 5 := by
    show findOrder 7 11 (getG (7 * 11) 76) = .ok 5
    rw [getG_seventySix]
    rfl
  exact Except.ok.inj (horder.symm.trans hfive)

theorem honest_seven_eleven : (Commiter.ofPrimes 7 11).Honest 7 11 :=
  Commiter.honest_ofPrimes isSafePrime_seven isSafePrime_eleven (by decide)

/-- A hash that keeps the first byte. -/
def firstByte : Sha256 := fun b => Vector.replicate 32 (b.headD 0)

/-- A receiver that hashes the challenge one, sends it, and then sends `v`. -/
def oneThen (v : ℤ) : List ReceiverCall :=
  [.zk2 [Vector.replicate 32 0, regularCommit firstByte 1] fun _ => 0, .zk4 [0, 1], .zk4 [0, v]]

theorem injOn_hashed_oneThen {v : ℤ} (hv : v.natAbs = 1) :
    Set.InjOn firstByte (hashed (oneThen v)) := by
  have hbytes : ∀ b ∈ hashed (oneThen v), b = [0] ∨ b = [1] := by
    rintro b ⟨values, hmem, w, hw, rfl⟩
    have hvalues : values = [0, 1] ∨ values = [0, v] := by simpa [oneThen] using hmem
    have habs : w = 0 ∨ w = 1 ∨ w = -1 := by
      rcases hvalues with rfl | rfl <;> simp only [List.mem_cons, List.not_mem_nil, or_false] at hw <;>
        omega
    rcases habs with rfl | rfl | rfl
    · exact Or.inl rfl
    · exact Or.inr rfl
    · exact Or.inr rfl
  intro b hb b' hb' heq
  rcases hbytes b hb with rfl | rfl <;> rcases hbytes b' hb' with rfl | rfl
  · rfl
  · exact absurd heq (by decide)
  · exact absurd heq (by decide)
  · rfl

/-- `singleAnswer_iff` for a receiver that sends one challenge twice. -/
theorem singleAnswer_oneThen_one : ∃ com c', Commiter.commit 1 [true] 76 (Commiter.ofPrimes 7 11) =
    .ok com c' ∧ SingleAnswer firstByte c' (oneThen 1) := by
  obtain ⟨order, -, -, hcommit⟩ :=
    commit_apply (K := 1) (m := [true]) honest_seven_eleven (by decide) (by decide) isCoprime_seventySix
  refine ⟨_, _, hcommit, (singleAnswer_iff honest_seven_eleven isCoprime_seventySix hcommit
    (injOn_hashed_oneThen rfl)).2 ?_⟩
  rintro pre values mid values' ⟨⟨post, hcalls⟩, -⟩ - - i - - v v' hv hv'
  have hmem : ReceiverCall.zk4 values ∈ oneThen 1 := by rw [hcalls]; simp
  have hmem' : ReceiverCall.zk4 values' ∈ oneThen 1 := by rw [hcalls]; simp
  have hvalues : values = [0, 1] := by simpa [oneThen] using hmem
  have hvalues' : values' = [0, 1] := by simpa [oneThen] using hmem'
  rw [hvalues] at hv
  rw [hvalues'] at hv'
  exact Or.inl (Option.some.inj (hv.symm.trans hv'))

/-- A receiver that sends the challenge and then its opposite gets the answers two and three,
although nothing collides. -/
theorem not_singleAnswer_oneThen_neg : ∃ com c',
    Commiter.commit 1 [true] 76 (Commiter.ofPrimes 7 11) = .ok com c' ∧
      Set.InjOn firstByte (hashed (oneThen (-1))) ∧ ¬ SingleAnswer firstByte c' (oneThen (-1)) := by
  obtain ⟨order, -, -, hcommit⟩ :=
    commit_apply (K := 1) (m := [true]) honest_seven_eleven (by decide) (by decide) isCoprime_seventySix
  have horder := order_seventySix honest_seven_eleven hcommit
  have hready := committed_of_commit (r := { Receiver.new with com := _ }) honest_seven_eleven
    isCoprime_seventySix hcommit rfl
  have hinj := injOn_hashed_oneThen (v := -1) rfl
  refine ⟨_, _, hcommit, hinj, ?_⟩
  rw [singleAnswer_of_masked_iff le_rfl hinj]
  intro hcons
  have hverifies : ∀ v : ℤ, regularVerify firstByte (regularCommit firstByte 1) v = true → _ :=
    fun v hmatch => Commiter.verifies_after_zk2 hready (fun _ => 0) [0, v]
      (rfl : [Vector.replicate 32 0, regularCommit firstByte 1].length = _) rfl fun i h1 hi => by
        obtain rfl : i = 1 := le_antisymm hi h1
        exact ⟨_, _, rfl, rfl, hmatch⟩
  have hpair := hcons _ [0, 1] [] [0, -1] ⟨⟨[], rfl⟩, by simp⟩ (hverifies 1 (by decide))
    (hverifies (-1) (by decide)) 1 le_rfl le_rfl 1 (-1) rfl rfl
  rw [horder] at hpair
  revert hpair
  decide

end SellingInformation.TimedCommitment
