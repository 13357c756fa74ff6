import SellingInformation.TimedCommitment.Opening

/-!
# What the receiver reads of a commitment

A commitment comes from the other party, with its sizes `K` and `l` and its vectors
`S` and `W`.  `accept_commitment` checks the size of `W` against `K`, and the calls
of the proof check the sizes of what they are sent.  Nothing checks the size of `S`
against `l`, and `force_open_smart` reads the element before the last of `W`, which
has only one element when `K` is zero.

* `Later.sized` — the sizes that hold in every state after an accepted commitment;
* `Sized.avoids_proof` — the calls of the proof read inside their vectors;
* `decodeChecked_eq_outOfBounds` — when an opening reads past the end of `S`;
* `readsSafe_iff` — what an accepted commitment needs so that every read is safe.
-/

namespace SellingInformation.TimedCommitment

open CryptoPP Common Fallible

/-! ## Runs after the acceptance -/

/-- What can be asked of a receiver: its own draws, and messages of the committer. -/
inductive ReceiverRequest where
  | zk1 (draw : ℕ → ℤ)
  | zk3 (zw : List ℤ × List ℤ)
  | zk5 (y : List ℤ)
  | «open» (vp : ℤ)
  | forceOpen
  | forceOpenSmart

/-- The next call of a round of the proof. -/
inductive Turn where
  | zk1
  | zk3
  | zk5
  deriving DecidableEq

/-- The calls of the proof come in their order.  A new round and an opening are possible at
any time. -/
def Turn.next : Turn → ReceiverRequest → Option Turn
  | _, .zk1 _ => some .zk3
  | .zk3, .zk3 _ => some .zk5
  | .zk5, .zk5 _ => some .zk1
  | _, .zk3 _ => none
  | _, .zk5 _ => none
  | t, .open _ => some t
  | t, .forceOpen => some t
  | t, .forceOpenSmart => some t

namespace Turn

variable {t t' : Turn}

theorem of_next_zk1 {draw : ℕ → ℤ} (h : t.next (.zk1 draw) = some t') : t' = .zk3 := by
  cases t <;> exact (Option.some.inj h).symm

theorem of_next_zk3 {zw : List ℤ × List ℤ} (h : t.next (.zk3 zw) = some t') :
    t = .zk3 ∧ t' = .zk5 := by
  cases t with
  | zk1 => cases h
  | zk3 => exact ⟨rfl, (Option.some.inj h).symm⟩
  | zk5 => cases h

theorem of_next_zk5 {y : List ℤ} (h : t.next (.zk5 y) = some t') : t = .zk5 ∧ t' = .zk1 := by
  cases t with
  | zk1 => cases h
  | zk3 => cases h
  | zk5 => exact ⟨rfl, (Option.some.inj h).symm⟩

@[simp] theorem next_open (vp : ℤ) : t.next (.open vp) = some t := by cases t <;> rfl

@[simp] theorem next_forceOpen : t.next .forceOpen = some t := by cases t <;> rfl

@[simp] theorem next_forceOpenSmart : t.next .forceOpenSmart = some t := by cases t <;> rfl

end Turn

section
variable (sha256 : Sha256)

/-- The call, with its result dropped. -/
def ReceiverRequest.run : ReceiverRequest → Proc Receiver Unit
  | .zk1 draw => do
    let _ ← Receiver.zk1 sha256 draw
  | .zk3 zw => do
    let _ ← Receiver.zk3 zw
  | .zk5 y => do
    let r ← get
    let _ ← lift (r.zk5 y)
  | .open vp => do
    let r ← get
    let _ ← lift (r.open vp)
  | .forceOpen => do
    let r ← get
    let _ ← lift r.forceOpen
  | .forceOpenSmart => do
    let r ← get
    let _ ← lift r.forceOpenSmart

/-- The states of a receiver that accepted `com`, with the next call of the proof.  After a
call that throws it is still that call's turn. -/
inductive Later (com : Commitment) : Turn → Receiver → Prop
  | accepted {r r' : Receiver} :
      Receiver.acceptCommitment com r = .ok () r' → Later com .zk1 r'
  | returned {t t' : Turn} {c : ReceiverRequest} {r r' : Receiver} :
      Later com t r → t.next c = some t' → c.run sha256 r = .ok () r' → Later com t' r'
  | thrown {t t' : Turn} {c : ReceiverRequest} {r r' : Receiver} {e : Exn} :
      Later com t r → t.next c = some t' → c.run sha256 r = .error e r' → Later com t r'

/-- No call after the acceptance reads past the end of a vector. -/
def ReadsSafe (com : Commitment) : Prop :=
  ∀ t t' r, Later sha256 com t r → ∀ c, t.next c = some t' →
    ∀ r', c.run sha256 r ≠ .error .outOfBounds r'

end

/-! ## The sizes -/

/-- The sizes after an accepted commitment. -/
structure Sized (com : Commitment) (t : Turn) (r : Receiver) : Prop where
  com_eq : r.com = com
  n_ne_zero : com.n ≠ 0
  length_W : com.W.length = com.K.toNat + 1
  noWrap : (com.K + 1).toNat = com.K.toNat + 1
  commitValues : t ≠ .zk1 → r.commitValues.length = com.K.toNat + 1
  zw : t = .zk5 → r.zw.1.length = com.K.toNat + 1 ∧ r.zw.2.length = com.K.toNat + 1

variable {sha256 : Sha256} {com : Commitment} {t t' : Turn} {r r' : Receiver}

theorem sized_of_accepted (h : Receiver.acceptCommitment com r = .ok () r') :
    Sized com .zk1 r' := by
  obtain ⟨rfl, haccept⟩ := Receiver.acceptCommitment_eq_ok.1 h
  have hnoWrap := haccept.toNat_K_add_one
  exact ⟨rfl, haccept.n_ne_zero, haccept.length_W.trans hnoWrap, hnoWrap, fun h => absurd rfl h,
    nofun⟩

namespace Sized

/-- What an earlier call established is not needed for a new round. -/
theorem restart (h : Sized com t r) : Sized com .zk1 r :=
  ⟨h.com_eq, h.n_ne_zero, h.length_W, h.noWrap, fun h => absurd rfl h, nofun⟩

theorem resizeCheck (h : Sized com t r) : TimedCommitment.resizeCheck r.com.K = .ok () := by
  refine refuseIf_of_not (not_not.2 ?_)
  have hnoWrap := h.noWrap
  rw [h.com_eq]
  omega

/-- After `zk_1` there is a challenge for every index. -/
theorem zk1 (h : Sized com t r) (sha256 : Sha256) (draw : ℕ → ℤ) :
    ∃ r', (ReceiverRequest.zk1 draw).run sha256 r = .ok () r' ∧ Sized com .zk3 r' := by
  unfold ReceiverRequest.run Receiver.zk1
  simp only [bind_apply, get_apply, h.resizeCheck, lift_ok, set_apply, pure_apply]
  refine ⟨_, rfl, h.com_eq, h.n_ne_zero, h.length_W, h.noWrap, fun _ => ?_, nofun⟩
  simp [h.com_eq]

/-- `zk_3` keeps vectors of the right size only. -/
theorem zk3 (h : Sized com .zk3 r) (sha256 : Sha256) (zw : List ℤ × List ℤ) :
    (∃ r', (ReceiverRequest.zk3 zw).run sha256 r = .ok () r' ∧ Sized com .zk5 r') ∨
      ∃ msg, (ReceiverRequest.zk3 zw).run sha256 r = .error (.timedProtocolException msg) r := by
  unfold ReceiverRequest.run Receiver.zk3
  simp only [bind_apply, get_apply]
  by_cases hsize : zw.1.length ≠ (r.com.K + 1).toNat ∨ zw.2.length ≠ (r.com.K + 1).toNat
  · rw [throwIf_of hsize]
    exact .inr ⟨_, rfl⟩
  · rw [throwIf_of_not hsize]
    rw [not_or, not_not, not_not, h.com_eq, h.noWrap] at hsize
    exact .inl ⟨_, rfl, h.com_eq, h.n_ne_zero, h.length_W, h.noWrap,
      fun _ => h.commitValues (by decide), fun _ => hsize⟩

/-- Every index of `zk_5` is at most `K`. -/
theorem zk5 (h : Sized com .zk5 r) (y : List ℤ) : Avoids .outOfBounds (r.zk5 y) := by
  obtain ⟨hz, hw⟩ := h.zw rfl
  have hvalues := h.commitValues nofun
  have hW := h.length_W
  unfold Receiver.zk5
  by_cases hy : y.length ≠ (r.com.K + 1).toNat
  · rw [refuseIf_of hy]
    nofun
  rw [refuseIf_of_not hy, except_ok_bind]
  rw [not_not, h.com_eq, h.noWrap] at hy
  rw [h.com_eq]
  refine Avoids.forM fun i hi => ?_
  obtain ⟨hi1, hiK⟩ := List.mem_range'_1.1 hi
  unfold Receiver.zk5Check
  rw [h.com_eq]
  refine (avoids_elemAt (by omega)).bind fun yi => ?_
  refine (avoids_elemAt (by omega)).bind fun w => ?_
  refine (avoids_elemAt (by omega)).bind fun value => ?_
  refine (Avoids.refuseIf (by decide)).bind fun _ => ?_
  refine (avoids_elemAt (by omega)).bind fun z => ?_
  refine (Avoids.refuseIf (by decide)).bind fun _ => ?_
  refine (avoids_elemAt (by omega)).bind fun w' => ?_
  refine (avoids_elemAt (by omega)).bind fun zw => ?_
  exact Avoids.refuseIf (by decide)

end Sized

/-- The calls after `zk_3` only look at the receiver. -/
theorem run_keeps {c : ReceiverRequest} (hzk1 : ∀ draw, c ≠ .zk1 draw) (hzk3 : ∀ zw, c ≠ .zk3 zw) :
    Keeps id (c.run sha256) := by
  cases c with
  | zk1 draw => exact absurd rfl (hzk1 draw)
  | zk3 zw => exact absurd rfl (hzk3 zw)
  | zk5 y => exact Keeps.get.bind fun _ => Keeps.lift.bind fun _ => Keeps.pure
  | «open» vp => exact Keeps.get.bind fun _ => Keeps.lift.bind fun _ => Keeps.pure
  | forceOpen => exact Keeps.get.bind fun _ => Keeps.lift.bind fun _ => Keeps.pure
  | forceOpenSmart => exact Keeps.get.bind fun _ => Keeps.lift.bind fun _ => Keeps.pure

/-- One call keeps the sizes, whether it returns or throws. -/
theorem sized_run {c : ReceiverRequest} (hnext : t.next c = some t') :
    Triple (Sized com t) (c.run sha256) (fun _ => Sized com t') (fun _ => Sized com t) := by
  have hlook : Keeps id (c.run sha256) → (∀ r, Sized com t r → Sized com t' r) →
      Triple (Sized com t) (c.run sha256) (fun _ => Sized com t') (fun _ => Sized com t) :=
    fun hkeeps ht => (Triple.of_keeps hkeeps).conseq (fun _ h => h) (fun _ r h => ht r h)
      fun _ _ h => h
  cases c with
  | zk1 draw =>
    rw [Turn.of_next_zk1 hnext]
    intro r h
    obtain ⟨r1, hrun, hsized⟩ := h.zk1 sha256 draw
    rw [hrun]
    exact hsized
  | zk3 zw =>
    obtain ⟨rfl, rfl⟩ := Turn.of_next_zk3 hnext
    intro r h
    rcases h.zk3 sha256 zw with ⟨r1, hrun, hsized⟩ | ⟨msg, hrun⟩
    · rw [hrun]
      exact hsized
    · rw [hrun]
      exact h
  | zk5 y =>
    obtain ⟨rfl, rfl⟩ := Turn.of_next_zk5 hnext
    exact hlook (run_keeps (by simp) (by simp)) fun _ h => h.restart
  | «open» vp =>
    rw [Turn.next_open, Option.some.injEq] at hnext
    exact hlook (run_keeps (by simp) (by simp)) fun _ h => hnext ▸ h
  | forceOpen =>
    rw [Turn.next_forceOpen, Option.some.injEq] at hnext
    exact hlook (run_keeps (by simp) (by simp)) fun _ h => hnext ▸ h
  | forceOpenSmart =>
    rw [Turn.next_forceOpenSmart, Option.some.injEq] at hnext
    exact hlook (run_keeps (by simp) (by simp)) fun _ h => hnext ▸ h

/-- Whatever happened since the acceptance, the sizes are right. -/
theorem Later.sized (h : Later sha256 com t r) : Sized com t r := by
  induction h with
  | accepted hacc => exact sized_of_accepted hacc
  | returned _ hnext hrun ih => exact (sized_run hnext).of_ok ih hrun
  | thrown _ hnext hrun ih => exact (sized_run hnext).of_error ih hrun

/-! ## The openings -/

namespace Receiver

/-- An opening reads past the end of `S` when its value passes the first test. -/
theorem decodeChecked_eq_outOfBounds (hn : r.com.n ≠ 0) {v : ℤ} :
    r.decodeChecked v = .error .outOfBounds ↔
      v ^ 2 ^ r.com.l.toNat % r.com.n = r.com.u ∧ r.com.S.length < r.com.l.toNat := by
  simp only [decodeChecked, decode, aExpBModC_two_pow, ne_eq]
  rw [refuseIf_of_not hn, except_ok_bind]
  by_cases hu : v ^ 2 ^ r.com.l.toNat % r.com.n = r.com.u
  · rw [refuseIf_of_not (not_not.2 hu), except_ok_bind, and_iff_right hu]
    by_cases hS : r.com.S.length < r.com.l.toNat
    · rw [refuseIf_of hS]
      exact iff_of_true rfl hS
    · rw [refuseIf_of_not hS, except_ok_bind]
      exact iff_of_false ((Avoids.refuseIf (by decide)).bind fun _ => Avoids.ok _) hS
  · rw [refuseIf_of hu]
    exact iff_of_false (by simp) fun h => hu h.1

theorem open_eq_outOfBounds (hn : r.com.n ≠ 0) {vp : ℤ} :
    r.open vp = .error .outOfBounds ↔
      vp ^ (mult.toNat * 2 ^ r.com.l.toNat) % r.com.n = r.com.u ∧
        r.com.S.length < r.com.l.toNat := by
  have hpow : getG r.com.n vp ^ 2 ^ r.com.l.toNat % r.com.n =
      vp ^ (mult.toNat * 2 ^ r.com.l.toNat) % r.com.n := by
    rw [pow_mul]
    exact (Int.mod_modEq _ _).pow _
  rw [Receiver.open, decodeChecked_eq_outOfBounds hn, hpow]

/-- The forced opening of an accepted commitment is the opening by a power of `h`. -/
theorem forceOpen_eq_open (hg : r.com.g = getG r.com.n r.com.h) :
    ∃ vp, r.forceOpen = r.open vp := by
  refine ⟨r.com.h ^ 2 ^ (2 ^ r.com.K.toNat - r.com.l.toNat : ℤ).toNat, ?_⟩
  rw [forceOpen, hg, squareLoop_getG, Receiver.open, getG_eq]

/-- With `K = 0` the shortcut starts at an element that does not exist. -/
theorem forceOpenSmart_zero (hW : r.com.W.length = 1) (hK : r.com.K = 0) :
    r.forceOpenSmart = .error .outOfBounds := by
  have hread : elemAt r.com.W (r.com.K - 1).toNat = .error .outOfBounds := by
    refine elemAt_of_le ?_
    rw [hW, hK]
    decide
  rw [forceOpenSmart, hread, except_error_bind]

/-- Otherwise it ends in a value with the same power as its start. -/
theorem forceOpenSmart_eq_outOfBounds (hn : r.com.n ≠ 0) (hK : r.com.K ≠ 0) {w : ℤ}
    (hw : r.com.W[r.com.K.toNat - 1]? = some w) : r.forceOpenSmart = .error .outOfBounds ↔
      w ^ 2 ^ max (2 ^ (r.com.K.toNat - 1)) r.com.l.toNat % r.com.n = r.com.u ∧
        r.com.S.length < r.com.l.toNat := by
  have hpos : 0 < r.com.K.toNat := Nat.pos_of_ne_zero fun h => hK (UInt32.toNat_inj.1 h)
  have hpred : (r.com.K - 1).toNat = r.com.K.toNat - 1 := by
    rw [UInt32.toNat_sub_of_le _ _ (by rwa [UInt32.le_iff_toNat_le]), UInt32.toNat_one]
  have hpow : squareLoop r.com.n (2 ^ (r.com.K.toNat - 1) - r.com.l.toNat) w ^
      2 ^ r.com.l.toNat % r.com.n =
      w ^ 2 ^ max (2 ^ (r.com.K.toNat - 1)) r.com.l.toNat % r.com.n := by
    have hexp : (2 ^ (r.com.K.toNat - 1) - r.com.l.toNat : ℤ).toNat + r.com.l.toNat =
        max (2 ^ (r.com.K.toNat - 1)) r.com.l.toNat := by
      have hcast : (2 : ℤ) ^ (r.com.K.toNat - 1) = (2 ^ (r.com.K.toNat - 1) : ℕ) := by push_cast; rfl
      omega
    rw [← hexp, pow_add, pow_mul]
    exact (TwoPrimes.iterate_sq_modEq _ _ _).pow _
  rw [forceOpenSmart, hpred, elemAt_eq_ok.2 hw, except_ok_bind, decodeChecked_eq_outOfBounds hn,
    hpow]

end Receiver

/-- The calls that only look at the receiver throw what their result does. -/
theorem lift_ne_error {α : Type} {f : Receiver → Except Exn α} {e : Exn} :
    (∀ r', (do
      let s ← get
      let _ ← lift (f s) : Proc Receiver Unit) r ≠ .error e r') ↔ Avoids e (f r) := by
  simp only [bind_apply, get_apply]
  cases hf : f r with
  | ok a => exact iff_of_true (by simp) nofun
  | error e' =>
    rw [lift_error]
    refine ⟨fun h herr => h r ?_, fun h r' herr => h ?_⟩
    · rw [Except.error.inj herr]
    · rw [(EStateM.Result.error.inj herr).1]

/-- The calls of the proof read inside their vectors. -/
theorem Sized.avoids_proof (h : Sized com t r) {c : ReceiverRequest} (hnext : t.next c = some t')
    (hproof : (∃ draw, c = .zk1 draw) ∨ (∃ zw, c = .zk3 zw) ∨ ∃ y, c = .zk5 y) :
    ∀ r', c.run sha256 r ≠ .error .outOfBounds r' := by
  rcases hproof with ⟨draw, rfl⟩ | ⟨zw, rfl⟩ | ⟨y, rfl⟩
  · obtain ⟨r1, hrun, -⟩ := h.zk1 sha256 draw
    simp [hrun]
  · obtain ⟨rfl, -⟩ := Turn.of_next_zk3 hnext
    rcases h.zk3 sha256 zw with ⟨r1, hrun, -⟩ | ⟨msg, hrun⟩
    · simp [hrun]
    · simp [hrun]
  · obtain ⟨rfl, -⟩ := Turn.of_next_zk5 hnext
    exact lift_ne_error.2 (h.zk5 y)

/-! ## Safe commitments -/

/-- A number the committer may open with, or the one the shortcut starts at, has `u` as the
power that the first test of an opening computes. -/
def PassesTest (com : Commitment) : Prop :=
  (∃ vp : ℤ, vp ^ (mult.toNat * 2 ^ com.l.toNat) % com.n = com.u) ∨
    ∃ w, com.W[com.K.toNat - 1]? = some w ∧
      w ^ 2 ^ max (2 ^ (com.K.toNat - 1)) com.l.toNat % com.n = com.u

/-- **Safe reads.**  An accepted commitment is read safely exactly when `K` is not zero and
`S` has `l` elements, or no opening gets to read them. -/
theorem readsSafe_iff (sha256 : Sha256) {com : Commitment} {r r' : Receiver}
    (hacc : Receiver.acceptCommitment com r = .ok () r') :
    ReadsSafe sha256 com ↔
      com.K ≠ 0 ∧ (com.l.toNat ≤ com.S.length ∨ ¬ PassesTest com) := by
  have hsized := sized_of_accepted hacc
  have hg := (Receiver.acceptCommitment_eq_ok.1 hacc).2.base
  have hstart : ∃ w, com.W[com.K.toNat - 1]? = some w :=
    ⟨_, List.getElem?_eq_getElem (by rw [hsized.length_W]; omega)⟩
  obtain ⟨w, hw⟩ := hstart
  constructor
  · intro hsafe
    have hopen : ∀ vp, Avoids .outOfBounds (r'.open vp) := fun vp =>
      lift_ne_error.1 (hsafe .zk1 .zk1 r' (.accepted hacc) (.open vp) rfl)
    have hsmart : Avoids .outOfBounds r'.forceOpenSmart :=
      lift_ne_error.1 (hsafe .zk1 .zk1 r' (.accepted hacc) .forceOpenSmart rfl)
    have hK : com.K ≠ 0 := by
      intro hK
      have hW : r'.com.W.length = 1 := by
        rw [hsized.com_eq, hsized.length_W, hK]
        rfl
      exact hsmart (Receiver.forceOpenSmart_zero hW (by rw [hsized.com_eq, hK]))
    refine ⟨hK, or_iff_not_imp_left.2 fun hS htest => ?_⟩
    rw [not_le] at hS
    rcases htest with ⟨vp, hvp⟩ | ⟨w', hw', hpow⟩
    · refine hopen vp ((Receiver.open_eq_outOfBounds (hsized.com_eq ▸ hsized.n_ne_zero)).2 ?_)
      rw [hsized.com_eq]
      exact ⟨hvp, hS⟩
    · have hr : r'.com.n ≠ 0 ∧ r'.com.K ≠ 0 ∧ r'.com.W[r'.com.K.toNat - 1]? = some w' := by
        rw [hsized.com_eq]
        exact ⟨hsized.n_ne_zero, hK, hw'⟩
      refine hsmart ((Receiver.forceOpenSmart_eq_outOfBounds hr.1 hr.2.1 hr.2.2).2 ?_)
      rw [hsized.com_eq]
      exact ⟨hpow, hS⟩
  · rintro ⟨hK, hS⟩ t t' s hlater c hnext
    have hs := hlater.sized
    have hcom := hs.com_eq
    have hshort : ∀ (P : Prop), (P → PassesTest com) → ¬ (P ∧ com.S.length < com.l.toNat) := by
      rintro P hP ⟨hp, hlt⟩
      rcases hS with hle | htest
      · omega
      · exact htest (hP hp)
    have hopen : ∀ vp, Avoids .outOfBounds (s.open vp) := by
      intro vp herr
      rw [Receiver.open_eq_outOfBounds (by rw [hcom]; exact hs.n_ne_zero), hcom] at herr
      exact hshort _ (fun hvp => .inl ⟨vp, hvp⟩) herr
    cases c with
    | zk1 draw => exact hs.avoids_proof hnext (.inl ⟨_, rfl⟩)
    | zk3 zw => exact hs.avoids_proof hnext (.inr (.inl ⟨_, rfl⟩))
    | zk5 y => exact hs.avoids_proof hnext (.inr (.inr ⟨_, rfl⟩))
    | «open» vp => exact lift_ne_error.2 (hopen vp)
    | forceOpen =>
      obtain ⟨vp, hvp⟩ := Receiver.forceOpen_eq_open (r := s) (by rw [hcom, hg])
      refine lift_ne_error.2 ?_
      rw [hvp]
      exact hopen vp
    | forceOpenSmart =>
      refine lift_ne_error.2 fun herr => ?_
      rw [Receiver.forceOpenSmart_eq_outOfBounds (w := w) (by rw [hcom]; exact hs.n_ne_zero)
        (by rwa [hcom]) (by rwa [hcom]), hcom] at herr
      exact hshort _ (fun hpow => .inr ⟨w, hw, hpow⟩) herr

/-- `readsSafe_iff` at a commitment to one bit modulo fifteen. -/
theorem readsSafe_fifteen :
    let com : Commitment := { K := 1, n := 15, h := 1, g := 1, u := 1, S := [true], W := [1, 1], l := 1 }
    Receiver.acceptCommitment com Receiver.new = .ok () { Receiver.new with com } ∧
      ReadsSafe (fun _ => Vector.replicate 32 0) com := by
  intro com
  have hacc : Receiver.acceptCommitment com Receiver.new = .ok () { Receiver.new with com } :=
    Receiver.acceptCommitment_eq_ok.2 ⟨rfl, by decide, by simp [com, getG_eq], rfl, rfl, rfl⟩
  exact ⟨hacc, (readsSafe_iff _ hacc).2 ⟨by decide, .inl (by decide)⟩⟩

/-- With no `S` at all the commitment is accepted too, and opening it with one reads past its
end. -/
theorem not_readsSafe_empty :
    let com : Commitment := { K := 1, n := 15, h := 1, g := 1, u := 1, S := [], W := [1, 1], l := 1 }
    Receiver.acceptCommitment com Receiver.new = .ok () { Receiver.new with com } ∧
      ¬ ReadsSafe (fun _ => Vector.replicate 32 0) com := by
  intro com
  have hacc : Receiver.acceptCommitment com Receiver.new = .ok () { Receiver.new with com } :=
    Receiver.acceptCommitment_eq_ok.2 ⟨rfl, by decide, by simp [com, getG_eq], rfl, rfl, rfl⟩
  refine ⟨hacc, fun hsafe => ?_⟩
  refine lift_ne_error.1 (hsafe .zk1 .zk1 _ (.accepted hacc) (.open 1) rfl)
    ((Receiver.open_eq_outOfBounds (by decide)).2 ⟨?_, by decide⟩)
  rw [one_pow]
  rfl

end SellingInformation.TimedCommitment
