import SellingInformation.CutAndChoose.Trace
import SellingInformation.ShaCommitment

/-!
# The verdict of a run that throws

`cut_and_choose` sets `res` before it opens the instances, and a sub-protocol may
refuse an opening with an exception.  The run is considered with the list of the
instances that were opened and then reported `getOpenVerified`.

* `throws_execLoop`, `throws_cheatAt` — when the run throws before anything is opened;
* `reported_iff` — over the openings, a positive verdict is founded unless an `open`
  throws;
* `verdictSound_iff` — the same for a whole run, from any state of the verifier.
-/

namespace SellingInformation.CutAndChoose

open Fallible

variable {A B α : Type} {T : ℕ}

/-! ## The program with the reports -/

/-- `openLoop`, with the instances that were opened and reported that they were verified. -/
def openLoopReported (protocol : Fin T → Protocol A B) (getOpenVerified : B → Bool) (chosen : ℤ) :
    List (Fin T) → Proc ((Prover A T × Verifier B T) × List (Fin T)) Unit
  | [] => pure ()
  | i :: rest =>
    if (i : ℤ) = chosen then openLoopReported protocol getOpenVerified chosen rest
    else do
      onFst (onInstance i (protocol i).open)
      let (_, v) ← onFst get
      if getOpenVerified v.v[i] = false then
        onFst (modify fun (p, v) => (p, { v with res := false }))
      else do
        traced i (pure ())
        openLoopReported protocol getOpenVerified chosen rest

/-- The first loop. -/
def execLoop (protocol : Fin T → Protocol A B) (l : List (Fin T)) :
    Proc (Prover A T × Verifier B T) Unit :=
  l.forM fun i => do
    onInstance i (protocol i).init
    onInstance i (protocol i).exec

/-- `cutAndChoose`, with the same list. -/
def cutAndChooseReported (protocol : Fin T → Protocol A B) (getOpenVerified : B → Bool)
    (cheatMethod : Proc A Unit) (cheat : ℤ) :
    Proc ((Prover A T × Verifier B T) × List (Fin T)) Unit := do
  onFst (execLoop protocol (List.finRange T))
  onFst (cheatAt cheatMethod cheat)
  let (_, v) ← onFst get
  onFst (modify fun (p, v) => (p, { v with res := true }))
  openLoopReported protocol getOpenVerified v.getI (List.finRange T)

section
variable (protocol : Fin T → Protocol A B) (getOpenVerified : B → Bool) (cheatMethod : Proc A Unit)

theorem openLoopReported_erases (chosen : ℤ) (l : List (Fin T)) :
    Erases (openLoopReported protocol getOpenVerified chosen l)
      (openLoop protocol getOpenVerified chosen l) := by
  induction l with
  | nil => exact erases_pure
  | cons i l ih =>
    unfold openLoopReported openLoop
    split
    · exact ih
    refine erases_onFst.bind fun _ => erases_onFst.bind ?_
    rintro ⟨_, v⟩
    dsimp only
    split
    · exact erases_onFst
    · exact erases_traced.bind (m := (pure () : Proc _ Unit)) fun _ => ih

/-- The list changes nothing. -/
theorem cutAndChooseReported_erases (cheat : ℤ) :
    Erases (cutAndChooseReported protocol getOpenVerified cheatMethod cheat)
      (cutAndChoose protocol getOpenVerified cheatMethod cheat) := by
  unfold cutAndChooseReported cutAndChoose
  refine erases_onFst.bind fun _ => erases_onFst.bind fun _ => erases_onFst.bind ?_
  rintro ⟨_, v⟩
  exact erases_onFst.bind fun _ => openLoopReported_erases protocol getOpenVerified v.getI _

end

/-- However the run ends, a positive verdict means that every instance other than the chosen one
was opened and reported that it was verified. -/
def VerdictSound (protocol : Fin T → Protocol A B) (getOpenVerified : B → Bool)
    (cheatMethod : Proc A Unit) (cheat : ℤ) (st : Prover A T × Verifier B T) : Prop :=
  let out := final (cutAndChooseReported protocol getOpenVerified cheatMethod cheat (st, []))
  out.1.2.res = true → ∀ j : Fin T, (j : ℤ) ≠ st.2.i → j ∈ out.2

/-! ## When a run throws -/

section
variable (protocol : Fin T → Protocol A B) (getOpenVerified : B → Bool) (cheatMethod : Proc A Unit)
  (cheat : ℤ) (st : Prover A T × Verifier B T)

/-- `init` of the instance throws, or `exec` after it. -/
def ExecThrows (j : Fin T) : Prop :=
  Throws (protocol j).init (instanceAt st j) ∨
    Throws (protocol j).exec (final ((protocol j).init (instanceAt st j)))

/-- Cheating is asked for, and throws or is aimed at no instance. -/
def CheatThrows : Prop :=
  cheat ≠ -1 ∧ ∀ j : Fin T, (j : ℤ) = cheat →
    Throws cheatMethod (initExec protocol j (instanceAt st j)).1

/-- The run throws before it opens anything. -/
def ThrowsBefore : Prop :=
  (∃ j, ExecThrows protocol st j) ∨ CheatThrows protocol cheatMethod cheat st

/-- From the pair `t`, the instance opens without a throw and reports it. -/
def Reports (j : Fin T) (t : A × B) : Prop :=
  ∃ t', (protocol j).open t = .ok () t' ∧ getOpenVerified t'.2 = true

/-- An instance is opened and throws, after all instances before it have reported. -/
def OpenThrows : Prop :=
  ∃ k : Fin T, (k : ℤ) ≠ st.2.i ∧
    Throws (protocol k).open (executed protocol cheatMethod cheat st k) ∧
    ∀ j < k, (j : ℤ) ≠ st.2.i →
      Reports protocol getOpenVerified j (executed protocol cheatMethod cheat st j)

end

section
variable {protocol : Fin T → Protocol A B} {getOpenVerified : B → Bool} {cheatMethod : Proc A Unit}
  {cheat chosen : ℤ} {st st' : Prover A T × Verifier B T} {rep : List (Fin T)}

theorem throws_onInstance {i : Fin T} {m : Proc (A × B) α} :
    Throws (onInstance i m) st ↔ Throws m (instanceAt st i) := throws_zoom

theorem not_throws_iff {σ : Type} {m : Proc σ Unit} {s : σ} :
    ¬ Throws m s ↔ ∃ s', m s = .ok () s' := by
  cases h : m s with
  | ok u s' => exact iff_of_true (not_throws_of_ok h) ⟨s', rfl⟩
  | error e s' => exact iff_of_false (not_not.2 (throws_of_error h)) (by rintro ⟨_, ⟨⟩⟩)

/-- One round of the first loop. -/
theorem throws_round {i : Fin T} : Throws (onInstance i (protocol i).init >>= fun _ =>
    onInstance i (protocol i).exec) st ↔ ExecThrows protocol st i := by
  rw [throws_bind, throws_onInstance, ExecThrows]
  refine or_congr_right' fun hinit => ?_
  rw [← throws_onInstance, not_throws_iff] at hinit
  obtain ⟨st1, hinit⟩ := hinit
  have hself := (onInstance_eq_ok hinit).2.2 i
  rw [if_pos rfl] at hself
  rw [← hself]
  constructor
  · rintro ⟨_, st', hinit', hexec⟩
    rw [hinit] at hinit'
    cases hinit'
    exact throws_onInstance.1 hexec
  · intro hexec
    exact ⟨(), st1, hinit, throws_onInstance.2 hexec⟩

/-- The first loop throws when one of its instances does. -/
theorem throws_execLoop {l : List (Fin T)} (hl : l.Nodup) :
    Throws (execLoop protocol l) st ↔ ∃ j ∈ l, ExecThrows protocol st j := by
  induction l generalizing st with
  | nil =>
    unfold execLoop
    exact iff_of_false (not_throws_of_ok (pure_apply () st)) (by simp)
  | cons i l ih =>
    obtain ⟨hi, hl⟩ := List.nodup_cons.1 hl
    -- a round leaves the other instances as they are
    have hother : ∀ st', (onInstance i (protocol i).init >>= fun _ =>
        onInstance i (protocol i).exec) st = .ok () st' → ∀ j ∈ l,
          (ExecThrows protocol st' j ↔ ExecThrows protocol st j) := by
      intro st' hround j hj
      obtain ⟨_, st1, hinit, hexec⟩ := bind_eq_ok.1 hround
      have hij : i ≠ j := by
        rintro rfl
        exact hi hj
      rw [ExecThrows, ExecThrows, (onInstance_eq_ok hexec).2.2, if_neg hij,
        (onInstance_eq_ok hinit).2.2, if_neg hij]
    have hcons : (∃ j ∈ i :: l, ExecThrows protocol st j) ↔
        ExecThrows protocol st i ∨ ∃ j ∈ l, ExecThrows protocol st j := by simp
    unfold execLoop at ih ⊢
    rw [forM_cons, throws_bind, throws_round, hcons]
    refine or_congr_right' fun hi => ?_
    rw [← throws_round, not_throws_iff] at hi
    obtain ⟨st1, hround⟩ := hi
    constructor
    · rintro ⟨_, st', hround', hrest⟩
      rw [hround] at hround'
      cases hround'
      obtain ⟨j, hj, hthrows⟩ := (ih hl).1 hrest
      exact ⟨j, hj, (hother st1 hround j hj).1 hthrows⟩
    · rintro ⟨j, hj, hthrows⟩
      exact ⟨(), st1, hround, (ih hl).2 ⟨j, hj, (hother st1 hround j hj).2 hthrows⟩⟩

/-- Cheating throws unless it is switched off or returns for the instance it is aimed at. -/
theorem throws_cheatAt : Throws (cheatAt cheatMethod cheat) st ↔
    cheat ≠ -1 ∧ ∀ j : Fin T, (j : ℤ) = cheat → Throws cheatMethod (instanceAt st j).1 := by
  unfold cheatAt
  by_cases hnone : cheat = -1
  · rw [if_pos hnone]
    exact iff_of_false (not_throws_of_ok (pure_apply () st)) fun h => h.1 hnone
  rw [if_neg hnone]
  by_cases hrange : 0 ≤ cheat ∧ cheat.toNat < T
  · rw [dif_pos hrange]
    have hk : ((⟨cheat.toNat, hrange.2⟩ : Fin T) : ℤ) = cheat := Int.toNat_of_nonneg hrange.1
    generalize (⟨cheat.toNat, hrange.2⟩ : Fin T) = k at hk ⊢
    unfold onFst
    rw [throws_onInstance, throws_zoom]
    constructor
    · intro hthrows
      refine ⟨hnone, fun j hj => ?_⟩
      have hjk : j = k := Fin.ext (by omega)
      rwa [hjk]
    · intro h
      exact h.2 k hk
  · rw [dif_neg hrange]
    refine iff_of_true (throws_of_error (throw_apply _ _)) ⟨hnone, fun j hj => ?_⟩
    exact absurd ⟨by omega, by omega⟩ hrange

theorem onInstance_res (i : Fin T) (m : Proc (A × B) α) :
    Keeps (fun st : Prover A T × Verifier B T => st.2.res) (onInstance i m) :=
  Keeps.zoom fun _ _ => rfl

theorem execLoop_res (l : List (Fin T)) :
    Keeps (fun st : Prover A T × Verifier B T => st.2.res) (execLoop protocol l) :=
  Keeps.forM fun i _ => (onInstance_res i _).bind fun _ => onInstance_res i _

theorem cheatAt_res : Keeps (fun st : Prover A T × Verifier B T => st.2.res)
    (cheatAt cheatMethod cheat) := by
  unfold cheatAt
  split
  · exact Keeps.pure
  split
  · exact onInstance_res _ _
  · exact Keeps.throw

/-! ## The openings -/

/-- An instance of `l` is opened and throws, after those before it have reported. -/
def OpenThrowsIn (protocol : Fin T → Protocol A B) (getOpenVerified : B → Bool) (chosen : ℤ)
    (pairs : Fin T → A × B) (l : List (Fin T)) : Prop :=
  ∃ (pre : List (Fin T)) (k : Fin T) (post : List (Fin T)), l = pre ++ k :: post ∧
    (k : ℤ) ≠ chosen ∧ Throws (protocol k).open (pairs k) ∧
      ∀ j ∈ pre, (j : ℤ) ≠ chosen → Reports protocol getOpenVerified j (pairs j)

theorem openThrowsIn_cons {pairs : Fin T → A × B} {i : Fin T} {l : List (Fin T)} :
    OpenThrowsIn protocol getOpenVerified chosen pairs (i :: l) ↔
      ((i : ℤ) ≠ chosen ∧ Throws (protocol i).open (pairs i)) ∨
      (((i : ℤ) ≠ chosen → Reports protocol getOpenVerified i (pairs i)) ∧
        OpenThrowsIn protocol getOpenVerified chosen pairs l) := by
  constructor
  · rintro ⟨pre, k, post, hl, hk, hthrows, hpre⟩
    cases pre with
    | nil =>
      cases hl
      exact .inl ⟨hk, hthrows⟩
    | cons j pre =>
      cases hl
      exact .inr ⟨hpre i List.mem_cons_self, pre, k, post, rfl, hk, hthrows, fun j hj =>
        hpre j (List.mem_cons_of_mem _ hj)⟩
  · rintro (⟨hi, hthrows⟩ | ⟨hi, pre, k, post, rfl, hk, hthrows, hpre⟩)
    · exact ⟨[], i, l, rfl, hi, hthrows, by simp⟩
    · exact ⟨i :: pre, k, post, rfl, hk, hthrows, List.forall_mem_cons.2 ⟨hi, hpre⟩⟩

theorem openThrowsIn_congr {pairs pairs' : Fin T → A × B} {l : List (Fin T)}
    (h : ∀ j ∈ l, pairs j = pairs' j) : OpenThrowsIn protocol getOpenVerified chosen pairs l ↔
      OpenThrowsIn protocol getOpenVerified chosen pairs' l := by
  induction l with
  | nil => simp [OpenThrowsIn]
  | cons i l ih =>
    rw [openThrowsIn_cons, openThrowsIn_cons, h i List.mem_cons_self,
      ih fun j hj => h j (List.mem_cons_of_mem _ hj)]

section
variable (getOpenVerified rep) {i : Fin T} (l : List (Fin T)) {t : A × B}

/-- A round of the second loop that throws. -/
theorem openLoopReported_of_error {e : Exn} (hc : (i : ℤ) ≠ chosen)
    (h : (protocol i).open (instanceAt st i) = .error e t) :
    ∃ st1, openLoopReported protocol getOpenVerified chosen (i :: l) (st, rep) =
      .error e (st1, rep) ∧ st1.2.res = st.2.res := by
  rw [openLoopReported, if_neg hc, bind_apply, onFst, zoom, onInstance, zoom]
  unfold instanceAt at h
  simp only [h]
  exact ⟨_, rfl, rfl⟩

/-- A round that is refused. -/
theorem openLoopReported_of_refused (hc : (i : ℤ) ≠ chosen)
    (h : (protocol i).open (instanceAt st i) = .ok () t) (hver : getOpenVerified t.2 = false) :
    ∃ st1, openLoopReported protocol getOpenVerified chosen (i :: l) (st, rep) =
      .ok () (st1, rep) ∧ st1.2.res = false := by
  have hopen := @onInstance_of_ok _ _ _ _ _ _ st _ _ h
  have hself : getOpenVerified (st.2.v.set i t.2 i.isLt)[i] = false := by
    have hget : (st.2.v.set i t.2 i.isLt)[i] = t.2 := by simp
    rw [hget, hver]
  rw [openLoopReported, if_neg hc, bind_of_ok (onFst_of_ok hopen), bind_of_ok (onFst_of_ok (get_apply _))]
  simp only [hself, if_true]
  exact ⟨_, onFst_of_ok (modify_apply _ _), rfl⟩

/-- A round that reports. -/
theorem openLoopReported_of_verified (hc : (i : ℤ) ≠ chosen)
    (h : (protocol i).open (instanceAt st i) = .ok () t) (hver : getOpenVerified t.2 = true) :
    ∃ st1, openLoopReported protocol getOpenVerified chosen (i :: l) (st, rep) =
      openLoopReported protocol getOpenVerified chosen l (st1, rep ++ [i]) ∧
      st1.2.res = st.2.res ∧ ∀ j, i ≠ j → instanceAt st1 j = instanceAt st j := by
  have hopen := @onInstance_of_ok _ _ _ _ _ _ st _ _ h
  have hself : getOpenVerified (st.2.v.set i t.2 i.isLt)[i] = true := by
    have hget : (st.2.v.set i t.2 i.isLt)[i] = t.2 := by simp
    rw [hget, hver]
  rw [openLoopReported, if_neg hc, bind_of_ok (onFst_of_ok hopen), bind_of_ok (onFst_of_ok (get_apply _))]
  simp only [hself, Bool.true_eq_false, if_false]
  refine ⟨_, bind_of_ok (traced_eq_ok.2 ⟨pure_apply _ _, rfl⟩), rfl, fun j hij => ?_⟩
  exact ((onInstance_eq_ok hopen).2.2 j).trans (if_neg hij)

end

/-- A report is not taken back. -/
theorem reported_mono {l : List (Fin T)} : ∀ j ∈ rep,
    j ∈ (final (openLoopReported protocol getOpenVerified chosen l (st, rep))).2 := by
  induction l generalizing st rep with
  | nil => exact fun j hj => hj
  | cons i l ih =>
    by_cases hc : (i : ℤ) = chosen
    · rw [openLoopReported, if_pos hc]
      exact ih
    cases h : (protocol i).open (instanceAt st i) with
    | error e t =>
      obtain ⟨st1, hrun, -⟩ := openLoopReported_of_error getOpenVerified rep l hc h
      rw [hrun]
      exact fun j hj => hj
    | ok u t =>
      cases hver : getOpenVerified t.2 with
      | false =>
        obtain ⟨st1, hrun, -⟩ := openLoopReported_of_refused getOpenVerified rep l hc h hver
        rw [hrun]
        exact fun j hj => hj
      | true =>
        obtain ⟨st1, hrun, -⟩ := openLoopReported_of_verified getOpenVerified rep l hc h hver
        rw [hrun]
        exact fun j hj => ih j (List.mem_append_left _ hj)

/-- With a positive verdict to start from, the one at the end is founded unless an `open`
throws. -/
theorem reported_iff {l : List (Fin T)} (hl : l.Nodup) (hrep : ∀ j ∈ l, j ∉ rep) (hres : st.2.res = true) :
    ((final (openLoopReported protocol getOpenVerified chosen l (st, rep))).1.2.res = true →
      ∀ j ∈ l, (j : ℤ) ≠ chosen →
        j ∈ (final (openLoopReported protocol getOpenVerified chosen l (st, rep))).2) ↔
      ¬ OpenThrowsIn protocol getOpenVerified chosen (instanceAt st) l := by
  induction l generalizing st rep with
  | nil => simp [OpenThrowsIn]
  | cons i l ih =>
    obtain ⟨hi, hl⟩ := List.nodup_cons.1 hl
    obtain ⟨hirep, hlrep⟩ := List.forall_mem_cons.1 hrep
    rw [openThrowsIn_cons]
    by_cases hc : (i : ℤ) = chosen
    · have hskip := ih hl hlrep hres
      rw [openLoopReported, if_pos hc]
      simp only [hc, List.forall_mem_cons, ne_eq, not_true_eq_false, false_implies, true_and,
        false_and, false_or] at hskip ⊢
      exact hskip
    cases h : (protocol i).open (instanceAt st i) with
    | error e t =>
      -- the verdict is still positive, and this instance has not reported
      obtain ⟨st1, hrun, hres1⟩ := openLoopReported_of_error getOpenVerified rep l hc h
      rw [hrun]
      refine iff_of_false (fun hsound => ?_) (not_not.2 (.inl ⟨hc, throws_of_error h⟩))
      exact hirep (hsound (hres1.trans hres) i List.mem_cons_self hc)
    | ok u t =>
      have hreturns : ¬ Throws (protocol i).open (instanceAt st i) := not_throws_of_ok h
      cases hver : getOpenVerified t.2 with
      | false =>
        obtain ⟨st1, hrun, hres1⟩ := openLoopReported_of_refused getOpenVerified rep l hc h hver
        have hno : ¬ Reports protocol getOpenVerified i (instanceAt st i) := by
          rintro ⟨t', h', hver'⟩
          rw [h] at h'
          cases h'
          rw [hver] at hver'
          cases hver'
        rw [hrun]
        refine iff_of_true (fun htrue => ?_) ?_
        · rw [final_ok, hres1] at htrue
          cases htrue
        · rintro (⟨-, hthrows⟩ | ⟨hreports, -⟩)
          · exact hreturns hthrows
          · exact hno (hreports hc)
      | true =>
        obtain ⟨st1, hrun, hres1, hat⟩ := openLoopReported_of_verified getOpenVerified rep l hc h hver
        have hne : ∀ j ∈ l, i ≠ j := by
          rintro j hj rfl
          exact hi hj
        have hlrep' : ∀ j ∈ l, j ∉ rep ++ [i] := by
          intro j hj hmem
          rcases List.mem_append.1 hmem with hmem | hmem
          · exact hlrep j hj hmem
          · exact hne j hj (List.mem_singleton.1 hmem).symm
        have hmono := @reported_mono _ _ _ protocol getOpenVerified chosen st1 (rep ++ [i]) l i
          (List.mem_append_right _ (List.mem_singleton_self i))
        have hrest := ih hl hlrep' (hres1.trans hres)
        rw [openThrowsIn_congr fun j hj => hat j (hne j hj)] at hrest
        rw [hrun, or_iff_right fun hthrows => hreturns hthrows.2,
          and_iff_right fun _ => ⟨t, h, hver⟩, ← hrest]
        simp only [List.forall_mem_cons]
        exact forall_congr' fun _ => and_iff_right fun _ => hmono

end

/-! ## The run -/

section
variable {protocol : Fin T → Protocol A B} {getOpenVerified : B → Bool} {cheatMethod : Proc A Unit}
  {cheat : ℤ} {st st1 st2 : Prover A T × Verifier B T}

theorem execLoop_instanceAt (h : execLoop protocol (List.finRange T) st = .ok () st1) :
    st1.2.i = st.2.i ∧ ∀ j, instanceAt st1 j = initExec protocol j (instanceAt st j) := by
  have herases : Erases ((List.finRange T).forM fun i => do
      traced (Call.init i) (onInstance i (protocol i).init)
      traced (Call.exec i) (onInstance i (protocol i).exec)) (execLoop protocol (List.finRange T)) :=
    Erases.forM (fun i => erases_traced.bind fun _ => erases_traced) _
  obtain ⟨log, hlog⟩ := herases.of_ok h []
  obtain ⟨-, hi, hat⟩ := execLoop_log (List.nodup_finRange T) hlog
  exact ⟨hi, fun j => (hat j).trans (if_pos (List.mem_finRange j))⟩

theorem cheatAt_instanceAt (h : cheatAt cheatMethod cheat st1 = .ok () st2) :
    st2.2.i = st1.2.i ∧ ∀ j, instanceAt st2 j = if (j : ℤ) = cheat
      then (final (cheatMethod (instanceAt st1 j).1), (instanceAt st1 j).2) else instanceAt st1 j := by
  obtain ⟨log, hlog⟩ := (cheatAt_erases cheatMethod cheat).of_ok h []
  obtain ⟨-, hi, hat⟩ := cheatAt_log hlog
  exact ⟨hi, hat⟩

/-- Before the openings nothing has been reported, and `res` is what it was. -/
theorem verdictSound_of_error {e : Exn}
    (h : cutAndChooseReported protocol getOpenVerified cheatMethod cheat (st, []) = .error e (st1, []))
    (hres : st1.2.res = st.2.res) : VerdictSound protocol getOpenVerified cheatMethod cheat st ↔
      st.2.res = false ∨ ∀ j : Fin T, (j : ℤ) = st.2.i := by
  unfold VerdictSound
  rw [h, final_error]
  simp only [hres, List.not_mem_nil, imp_false, not_not]
  cases st.2.res <;> simp

/-- Where the openings are the list of all instances in order. -/
theorem openThrowsIn_finRange : OpenThrowsIn protocol getOpenVerified st.2.i
    (executed protocol cheatMethod cheat st) (List.finRange T) ↔
      OpenThrows protocol getOpenVerified cheatMethod cheat st := by
  constructor
  · rintro ⟨pre, k, post, hl, hk, hthrows, hpre⟩
    exact ⟨k, hk, hthrows, fun j hj => hpre j (((finRange_split hl).1 j).2 hj)⟩
  · rintro ⟨k, hk, hthrows, hpre⟩
    obtain ⟨pre, post, hl⟩ := List.append_of_mem (List.mem_finRange k)
    exact ⟨pre, k, post, hl, hk, hthrows, fun j hj => hpre j (((finRange_split hl).1 j).1 hj)⟩

end

/-- A run leaves a positive verdict behind a failure exactly when a call throws before the
openings and `res` was already set, or an `open` that the run comes to throws. -/
theorem verdictSound_iff (protocol : Fin T → Protocol A B) (getOpenVerified : B → Bool)
    (cheatMethod : Proc A Unit) (cheat : ℤ) (st : Prover A T × Verifier B T) :
    VerdictSound protocol getOpenVerified cheatMethod cheat st ↔
      (ThrowsBefore protocol cheatMethod cheat st →
        st.2.res = false ∨ ∀ j : Fin T, (j : ℤ) = st.2.i) ∧
      (¬ ThrowsBefore protocol cheatMethod cheat st →
        ¬ OpenThrows protocol getOpenVerified cheatMethod cheat st) := by
  have hexecThrows := @throws_execLoop A B T protocol st _ (List.nodup_finRange T)
  simp only [List.mem_finRange, true_and] at hexecThrows
  cases hexec : execLoop protocol (List.finRange T) st with
  | error e st1 =>
    have hbefore : ThrowsBefore protocol cheatMethod cheat st :=
      .inl (hexecThrows.1 (throws_of_error hexec))
    have hres : st1.2.res = st.2.res := by
      have h := @execLoop_res A B T protocol (List.finRange T) st
      rwa [hexec] at h
    rw [verdictSound_of_error (bind_of_error (onFst_of_error hexec)) hres]
    simp [hbefore]
  | ok u st1 =>
    obtain ⟨hi1, hat1⟩ := execLoop_instanceAt hexec
    have hres1 : st1.2.res = st.2.res := (execLoop_res (List.finRange T)).of_ok hexec
    have hnoExec : ¬ ∃ j, ExecThrows protocol st j := fun h =>
      not_throws_of_ok hexec (hexecThrows.2 h)
    have hcheatThrows : Throws (cheatAt cheatMethod cheat) st1 ↔
        CheatThrows protocol cheatMethod cheat st := by
      rw [throws_cheatAt, CheatThrows]
      simp only [hat1]
    cases hcheat : cheatAt cheatMethod cheat st1 with
    | error e st2 =>
      have hbefore : ThrowsBefore protocol cheatMethod cheat st :=
        .inr (hcheatThrows.1 (throws_of_error hcheat))
      have hres : st2.2.res = st.2.res := by
        have h := @cheatAt_res A B T cheatMethod cheat st1
        rw [hcheat] at h
        exact h.trans hres1
      rw [verdictSound_of_error ((bind_of_ok (onFst_of_ok hexec)).trans
        (bind_of_error (onFst_of_error hcheat))) hres]
      simp [hbefore]
    | ok u' st2 =>
      obtain ⟨hi2, hat2⟩ := cheatAt_instanceAt hcheat
      have hbefore : ¬ ThrowsBefore protocol cheatMethod cheat st := by
        rintro (h | h)
        · exact hnoExec h
        · exact not_throws_of_ok hcheat (hcheatThrows.2 h)
      have hpairs : instanceAt (st2.1, { st2.2 with res := true }) =
          executed protocol cheatMethod cheat st := by
        funext j
        refine (hat2 j).trans ?_
        rw [hat1]
        rfl
      have hrun : cutAndChooseReported protocol getOpenVerified cheatMethod cheat (st, []) =
          openLoopReported protocol getOpenVerified st.2.i (List.finRange T)
            ((st2.1, { st2.2 with res := true }), []) := by
        have hgetI : st2.2.getI = st.2.i := hi2.trans hi1
        unfold cutAndChooseReported
        rw [bind_of_ok (onFst_of_ok hexec), bind_of_ok (onFst_of_ok hcheat),
          bind_of_ok (onFst_of_ok (get_apply _))]
        simp only [hgetI]
        exact bind_of_ok (onFst_of_ok (modify_apply _ _))
      have hreported := @reported_iff A B T protocol getOpenVerified st.2.i
        (st2.1, { st2.2 with res := true }) [] (List.finRange T) (List.nodup_finRange T)
        (by simp) rfl
      rw [hpairs, openThrowsIn_finRange] at hreported
      unfold VerdictSound
      rw [hrun]
      simp only [List.mem_finRange, true_implies] at hreported
      simp only [hbefore, false_implies, true_and, not_false_eq_true, true_implies]
      exact hreported

/-- Two hash commitments, the first of them chosen: when the sender cheats in the other one,
its opening throws and the verdict stays positive. -/
theorem not_verdictSound_shaCommitment :
    let sha256 : Sha256 := fun msg => Vector.replicate 32 (msg.headD 0)
    let sender : ShaCommitment.Sender := { ShaCommitment.Sender.new with m := [1] }
    ¬ VerdictSound (fun _ => ShaCommitment.protocol sha256 (Vector.replicate 32 0))
      ShaCommitment.Receiver.openVerified ShaCommitment.Sender.cheat 1
      (({ v := Vector.replicate 2 sender },
        { v := Vector.replicate 2 ShaCommitment.Receiver.new, i := 0, res := false }) :
          Prover ShaCommitment.Sender 2 × Verifier ShaCommitment.Receiver 2) := by
  intro sha256 sender hsound
  have hone := hsound (by decide +kernel) 1 (by decide)
  exact absurd hone (by decide +kernel)

end SellingInformation.CutAndChoose
