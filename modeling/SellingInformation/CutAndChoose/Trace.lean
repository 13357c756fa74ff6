import SellingInformation.CutAndChoose
import SellingInformation.Lib.Trace

/-!
# What cut and choose does with each instance

`cut_and_choose` with a log of its calls.  The protocol of an instance may be anything:
what its calls make of the pair of parties is `executed`, and `opened` after `open`.

* `cutAndChoose_erases` — the log changes nothing;
* `execLoop_log`, `openLoop_log` — the calls that each of the two loops makes, and the
  pairs they leave;
* `cutAndChoose_outcome` — the verdict, the final pairs and the calls of a run that
  returned, in terms of the first instance that does not open verified.
-/

namespace SellingInformation.CutAndChoose

open Fallible

/-- A call on the instance `i`. -/
inductive Call (T : ℕ) where
  | init (i : Fin T)
  | exec (i : Fin T)
  | cheat (i : Fin T)
  | «open» (i : Fin T)
  deriving DecidableEq, Repr

variable {A B α : Type} {T : ℕ}

/-! ## The program with the log -/

theorem cheat_lt {cheat : ℤ} (h : 0 ≤ cheat ∧ cheat.toNat < T) : cheat.toNat < T := h.2

/-- `cheatAt`, with the log. -/
def cheatAtTraced (cheatMethod : Proc A Unit) (cheat : ℤ) :
    Proc ((Prover A T × Verifier B T) × List (Call T)) Unit :=
  if cheat = -1 then pure ()
  else if h : 0 ≤ cheat ∧ cheat.toNat < T then
    traced (Call.cheat ⟨cheat.toNat, cheat_lt h⟩)
      (onInstance ⟨cheat.toNat, cheat_lt h⟩ (onFst cheatMethod))
  else throw .outOfBounds

/-- `openLoop`, with the log. -/
def openLoopTraced (protocol : Fin T → Protocol A B) (getOpenVerified : B → Bool) (chosen : ℤ) :
    List (Fin T) → Proc ((Prover A T × Verifier B T) × List (Call T)) Unit
  | [] => pure ()
  | i :: rest =>
    if (i : ℤ) = chosen then openLoopTraced protocol getOpenVerified chosen rest
    else do
      traced (Call.open i) (onInstance i (protocol i).open)
      let (_, v) ← onFst get
      if getOpenVerified v.v[i] = false then
        onFst (modify fun (p, v) => (p, { v with res := false }))
      else openLoopTraced protocol getOpenVerified chosen rest

/-- The call that cheating makes, if it is aimed at an instance. -/
def cheatCalls (cheat : ℤ) : List (Call T) :=
  if h : 0 ≤ cheat ∧ cheat.toNat < T then [Call.cheat ⟨cheat.toNat, cheat_lt h⟩] else []

/-- `cutAndChoose`, with the log. -/
def cutAndChooseTraced (protocol : Fin T → Protocol A B) (getOpenVerified : B → Bool)
    (cheatMethod : Proc A Unit) (cheat : ℤ) :
    Proc ((Prover A T × Verifier B T) × List (Call T)) Unit := do
  (List.finRange T).forM fun i => do
    traced (Call.init i) (onInstance i (protocol i).init)
    traced (Call.exec i) (onInstance i (protocol i).exec)
  cheatAtTraced cheatMethod cheat
  let (_, v) ← onFst get
  onFst (modify fun (p, v) => (p, { v with res := true }))
  openLoopTraced protocol getOpenVerified v.getI (List.finRange T)

section
variable (protocol : Fin T → Protocol A B) (getOpenVerified : B → Bool) (cheatMethod : Proc A Unit)

theorem cheatAt_erases (cheat : ℤ) :
    Erases (cheatAtTraced cheatMethod cheat : Proc ((Prover A T × Verifier B T) × List (Call T)) Unit)
      (cheatAt cheatMethod cheat) := by
  unfold cheatAtTraced cheatAt
  split
  · exact erases_pure
  split
  · exact erases_traced
  · exact erases_throw

theorem openLoop_erases (chosen : ℤ) (l : List (Fin T)) :
    Erases (openLoopTraced protocol getOpenVerified chosen l)
      (openLoop protocol getOpenVerified chosen l) := by
  induction l with
  | nil => exact erases_pure
  | cons i l ih =>
    unfold openLoopTraced openLoop
    split
    · exact ih
    refine erases_traced.bind fun _ => erases_onFst.bind ?_
    rintro ⟨_, v⟩
    dsimp only
    split
    · exact erases_onFst
    · exact ih

/-- The log changes nothing. -/
theorem cutAndChoose_erases (cheat : ℤ) :
    Erases (cutAndChooseTraced protocol getOpenVerified cheatMethod cheat)
      (cutAndChoose protocol getOpenVerified cheatMethod cheat) := by
  unfold cutAndChooseTraced cutAndChoose
  refine (Erases.forM (fun i => erases_traced.bind fun _ => erases_traced) _).bind fun _ => ?_
  refine (cheatAt_erases cheatMethod cheat).bind fun _ => erases_onFst.bind ?_
  rintro ⟨_, v⟩
  exact erases_onFst.bind fun _ => openLoop_erases protocol getOpenVerified v.getI _

end

/-! ## The pairs of parties -/

/-- The pair of parties of one instance. -/
def instanceAt (st : Prover A T × Verifier B T) (j : Fin T) : A × B := (st.1.v[j], st.2.v[j])

theorem onInstance_eq_ok {i : Fin T} {m : Proc (A × B) α} {st st' : Prover A T × Verifier B T} {x : α}
    (h : onInstance i m st = .ok x st') : st'.2.i = st.2.i ∧ st'.2.res = st.2.res ∧
      ∀ j, instanceAt st' j = if i = j then final (m (instanceAt st i)) else instanceAt st j := by
  obtain ⟨t, hm, rfl⟩ := zoom_eq_ok.1 h
  have hfinal : final (m (instanceAt st i)) = t := congrArg final hm
  refine ⟨rfl, rfl, fun j => ?_⟩
  rw [hfinal]
  exact set_getElem st t i j

section
variable (protocol : Fin T → Protocol A B) (cheatMethod : Proc A Unit) (cheat : ℤ)

/-- What `init` and `exec` make of a pair of parties. -/
def initExec (j : Fin T) (t : A × B) : A × B :=
  final ((protocol j).exec (final ((protocol j).init t)))

/-- What is left in the instance `j` before anything is opened. -/
def executed (st : Prover A T × Verifier B T) (j : Fin T) : A × B :=
  let t := initExec protocol j (instanceAt st j)
  if (j : ℤ) = cheat then (final (cheatMethod t.1), t.2) else t

/-- What opening makes of it. -/
def opened (st : Prover A T × Verifier B T) (j : Fin T) : A × B :=
  final ((protocol j).open (executed protocol cheatMethod cheat st j))

end

/-! ## The loops -/

section
variable {protocol : Fin T → Protocol A B} {getOpenVerified : B → Bool} {cheatMethod : Proc A Unit}
  {cheat : ℤ} {st st' : Prover A T × Verifier B T} {log log' : List (Call T)}

/-- The first loop calls `init` and `exec` of each instance in turn. -/
theorem execLoop_log {l : List (Fin T)} (hl : l.Nodup)
    (h : (l.forM fun i => do
      traced (Call.init i) (onInstance i (protocol i).init)
      traced (Call.exec i) (onInstance i (protocol i).exec)) (st, log) = .ok () (st', log')) :
    log' = log ++ l.flatMap (fun i => [Call.init i, Call.exec i]) ∧ st'.2.i = st.2.i ∧
      ∀ j, instanceAt st' j =
        if j ∈ l then initExec protocol j (instanceAt st j) else instanceAt st j := by
  induction l generalizing st log with
  | nil =>
    cases h
    simp
  | cons i l ih =>
    obtain ⟨hi, hl⟩ := List.nodup_cons.1 hl
    rw [forM_cons] at h
    obtain ⟨_, ⟨st2, log2⟩, hround, hrest⟩ := bind_eq_ok.1 h
    obtain ⟨_, ⟨st1, log1⟩, hinit, hexec⟩ := bind_eq_ok.1 hround
    obtain ⟨hinit, hlog1⟩ := traced_eq_ok.1 hinit
    obtain ⟨hexec, hlog2⟩ := traced_eq_ok.1 hexec
    obtain ⟨hi1, -, hat1⟩ := onInstance_eq_ok hinit
    obtain ⟨hi2, -, hat2⟩ := onInstance_eq_ok hexec
    obtain ⟨hlog, hi3, hat⟩ := ih hl hrest
    refine ⟨?_, hi3.trans (hi2.trans hi1), fun j => ?_⟩
    · rw [hlog, show log2 = _ from hlog2, show log1 = _ from hlog1]
      simp
    · have hround : instanceAt st2 j =
          if i = j then initExec protocol i (instanceAt st i) else instanceAt st j := by
        rw [hat2, hat1, hat1]
        by_cases hij : i = j
        · rw [if_pos hij, if_pos hij, if_pos rfl]
          rfl
        · rw [if_neg hij, if_neg hij, if_neg hij]
      rw [hat, hround]
      by_cases hij : i = j
      · subst hij
        rw [if_neg hi, if_pos rfl, if_pos List.mem_cons_self]
      · have hmem : j ∈ i :: l ↔ j ∈ l := by simp [Ne.symm hij]
        rw [if_neg hij, if_congr hmem rfl rfl]

/-- Cheating changes the party of one instance, or of none. -/
theorem cheatAt_log (h : cheatAtTraced cheatMethod cheat (st, log) = .ok () (st', log')) :
    log' = log ++ cheatCalls cheat ∧ st'.2.i = st.2.i ∧
      ∀ j, instanceAt st' j = if (j : ℤ) = cheat
        then (final (cheatMethod (instanceAt st j).1), (instanceAt st j).2) else instanceAt st j := by
  unfold cheatAtTraced at h
  by_cases hnone : cheat = -1
  · rw [if_pos hnone] at h
    cases h
    refine ⟨?_, rfl, fun j => ?_⟩
    · rw [cheatCalls, dif_neg (by omega), List.append_nil]
    · rw [if_neg (by omega)]
  rw [if_neg hnone] at h
  by_cases hrange : 0 ≤ cheat ∧ cheat.toNat < T
  · rw [dif_pos hrange] at h
    rw [cheatCalls, dif_pos hrange]
    have hk : ((⟨cheat.toNat, hrange.2⟩ : Fin T) : ℤ) = cheat := Int.toNat_of_nonneg hrange.1
    generalize (⟨cheat.toNat, hrange.2⟩ : Fin T) = k at h hk ⊢
    obtain ⟨hcheat, hlog⟩ := traced_eq_ok.1 h
    obtain ⟨hi, -, hat⟩ := onInstance_eq_ok hcheat
    refine ⟨hlog, hi, fun j => ?_⟩
    have hself : k = j ↔ (j : ℤ) = cheat := by
      rw [← hk, Fin.ext_iff]
      omega
    rw [hat, if_congr hself rfl rfl, final_onFst]
    by_cases hj : (j : ℤ) = cheat
    · rw [if_pos hj, if_pos hj, hself.2 hj]
    · rw [if_neg hj, if_neg hj]
  · rw [dif_neg hrange] at h
    cases h

/-- How the second loop ends over the instances `l`: the verdict, and the instances that it
opened, in order. -/
inductive Verdict (verified : Fin T → Prop) (chosen : Fin T) (l : List (Fin T)) :
    Bool → List (Fin T) → Prop where
  /-- Every instance opened verified. -/
  | accepted (h : ∀ j ∈ l, j ≠ chosen → verified j) :
      Verdict verified chosen l true (l.filter fun j => j ≠ chosen)
  /-- The instance `k` is the first that did not. -/
  | refused (pre post : List (Fin T)) (k : Fin T) (hl : l = pre ++ k :: post) (hk : k ≠ chosen)
      (hpre : ∀ j ∈ pre, j ≠ chosen → verified j) (h : ¬ verified k) :
      Verdict verified chosen l false ((pre.filter fun j => j ≠ chosen) ++ [k])

namespace Verdict

variable {verified verified' : Fin T → Prop} {chosen i : Fin T} {l done : List (Fin T)} {b : Bool}

/-- One more instance in front that opened verified. -/
theorem cons (h : Verdict verified chosen l b done) (hi : i ≠ chosen) (hver : verified i) :
    Verdict verified chosen (i :: l) b (i :: done) := by
  cases h with
  | accepted h =>
    have hfilter : i :: l.filter (fun j => j ≠ chosen) = (i :: l).filter fun j => j ≠ chosen := by
      rw [List.filter_cons_of_pos (by simpa using hi)]
    rw [hfilter]
    refine accepted fun j hj hne => ?_
    rcases List.mem_cons.1 hj with rfl | hj
    · exact hver
    · exact h j hj hne
  | refused pre post k hl hk hpre h =>
    have hfilter : i :: (pre.filter (fun j => j ≠ chosen) ++ [k]) =
        ((i :: pre).filter fun j => j ≠ chosen) ++ [k] := by
      rw [List.filter_cons_of_pos (by simpa using hi), List.cons_append]
    rw [hfilter]
    refine refused (i :: pre) post k (by rw [hl, List.cons_append]) hk (fun j hj hne => ?_) h
    rcases List.mem_cons.1 hj with rfl | hj
    · exact hver
    · exact hpre j hj hne

/-- One more instance in front that is the chosen one. -/
theorem skip (h : Verdict verified chosen l b done) : Verdict verified chosen (chosen :: l) b done := by
  cases h with
  | accepted h =>
    rw [← List.filter_cons_of_neg (a := chosen) (by simp)]
    refine accepted fun j hj hne => ?_
    exact h j ((List.mem_cons.1 hj).resolve_left hne) hne
  | refused pre post k hl hk hpre h =>
    rw [← List.filter_cons_of_neg (a := chosen) (l := pre) (by simp)]
    refine refused (chosen :: pre) post k (by rw [hl, List.cons_append]) hk (fun j hj hne => ?_) h
    exact hpre j ((List.mem_cons.1 hj).resolve_left hne) hne

theorem congr (h : Verdict verified chosen l b done) (hver : ∀ j ∈ l, verified j ↔ verified' j) :
    Verdict verified' chosen l b done := by
  cases h with
  | accepted h => exact accepted fun j hj hne => (hver j hj).1 (h j hj hne)
  | refused pre post k hl hk hpre h =>
    subst hl
    exact refused pre post k rfl hk (fun j hj hne => (hver j (by simp [hj])).1 (hpre j hj hne))
      fun hk' => h ((hver k (by simp)).2 hk')

theorem subset (h : Verdict verified chosen l b done) : ∀ j ∈ done, j ∈ l := by
  cases h with
  | accepted h => exact fun j hj => List.mem_of_mem_filter hj
  | refused pre post k hl hk hpre h =>
    subst hl
    intro j hj
    rcases List.mem_append.1 hj with hj | hj
    · exact List.mem_append_left _ (List.mem_of_mem_filter hj)
    · rw [List.mem_singleton.1 hj]
      simp

end Verdict

/-- The second loop opens instances until one does not open verified. -/
theorem openLoop_log {chosen : Fin T} {l : List (Fin T)} (hl : l.Nodup)
    (h : openLoopTraced protocol getOpenVerified chosen l (st, log) = .ok () (st', log')) :
    ∃ b done, Verdict
        (fun j => getOpenVerified (final ((protocol j).open (instanceAt st j))).2 = true) chosen l b done ∧
      log' = log ++ done.map Call.open ∧ st'.2.i = st.2.i ∧ st'.2.res = (b && st.2.res) ∧
      ∀ j, instanceAt st' j = if j ∈ done then final ((protocol j).open (instanceAt st j))
        else instanceAt st j := by
  induction l generalizing st log with
  | nil =>
    cases h
    exact ⟨true, [], .accepted (by simp), by simp, rfl, by simp, by simp⟩
  | cons i l ih =>
    obtain ⟨hi, hl⟩ := List.nodup_cons.1 hl
    unfold openLoopTraced at h
    by_cases hc : (i : ℤ) = chosen
    · rw [if_pos hc] at h
      have hic : i = chosen := Fin.ext (by exact_mod_cast hc)
      obtain ⟨b, done, hverdict, hrest⟩ := ih hl h
      exact ⟨b, done, hic ▸ hverdict.skip, hrest⟩
    rw [if_neg hc] at h
    have hic : i ≠ chosen := fun hic => hc (by rw [hic])
    obtain ⟨_, ⟨st1, log1⟩, hopen, hrest⟩ := bind_eq_ok.1 h
    obtain ⟨hopen, hlog1⟩ := traced_eq_ok.1 hopen
    obtain ⟨hi1, hres1, hat1⟩ := onInstance_eq_ok hopen
    obtain ⟨⟨_, v⟩, ⟨st2, log2⟩, hget, hrest⟩ := bind_eq_ok.1 hrest
    obtain ⟨hget, hlog2⟩ := onFst_eq_ok.1 hget
    cases hget
    have hself : getOpenVerified v.v[i] =
        getOpenVerified (final ((protocol i).open (instanceAt st i))).2 := by
      have := hat1 i
      rw [if_pos rfl] at this
      exact congrArg (fun t => getOpenVerified t.2) this
    dsimp only at hrest
    rw [hself] at hrest
    by_cases hver : getOpenVerified (final ((protocol i).open (instanceAt st i))).2 = false
    · rw [if_pos hver] at hrest
      obtain ⟨hset, hlog⟩ := onFst_eq_ok.1 hrest
      cases hset
      refine ⟨false, [i], .refused [] l i rfl hic (by simp) (by simp [hver]), ?_, hi1, rfl, fun j => ?_⟩
      · rw [show log' = _ from hlog, show log2 = _ from hlog2, show log1 = _ from hlog1]
        rfl
      · refine (hat1 j).trans ?_
        by_cases hij : i = j
        · subst hij
          simp
        · rw [if_neg hij, if_neg (by simpa using Ne.symm hij)]
    · rw [if_neg hver] at hrest
      obtain ⟨b, done, hverdict, hlog, hi2, hres, hat⟩ := ih hl hrest
      have hother : ∀ j, i ≠ j → instanceAt (_, v) j = instanceAt st j :=
        fun j hij => (hat1 j).trans (if_neg hij)
      have hne : ∀ j ∈ l, i ≠ j := by
        rintro j hj rfl
        exact hi hj
      refine ⟨b, i :: done, ?_, ?_, hi2.trans hi1, hres.trans (by rw [hres1]), fun j => ?_⟩
      · exact (hverdict.congr fun j hj => by rw [hother j (hne j hj)]).cons hic (by simpa using hver)
      · rw [hlog, show log2 = _ from hlog2, show log1 = _ from hlog1]
        simp
      · rw [hat j]
        by_cases hij : i = j
        · subst hij
          rw [if_neg fun hmem => hi (hverdict.subset _ hmem), if_pos List.mem_cons_self]
          exact (hat1 i).trans (if_pos rfl)
        · have hmem : j ∈ i :: done ↔ j ∈ done := by simp [Ne.symm hij]
          rw [hother j hij, if_congr hmem rfl rfl]

end

/-! ## The run -/

/-- The instances up to one of them, of those that are in order. -/
theorem filter_le_finRange {pre post : List (Fin T)} {k : Fin T}
    (h : List.finRange T = pre ++ k :: post) {chosen : Fin T} (hk : k ≠ chosen) :
    (pre.filter fun j => j ≠ chosen) ++ [k] =
      (List.finRange T).filter fun j => j ≠ chosen ∧ j ≤ k := by
  obtain ⟨hpre, hpost⟩ := finRange_split h
  have hbefore : pre.filter (fun j => j ≠ chosen) = pre.filter fun j => j ≠ chosen ∧ j ≤ k :=
    List.filter_congr fun j hj => by simp [((hpre j).1 hj).le]
  have hafter : post.filter (fun j => j ≠ chosen ∧ j ≤ k) = [] :=
    List.filter_eq_nil_iff.2 fun j hj => by simp [hpost j hj]
  rw [h, List.filter_append, List.filter_cons_of_pos (by simpa using hk), hafter, hbefore]

/-- How a run that returned went, where `done` are the instances it opened. -/
structure Outcome (protocol : Fin T → Protocol A B) (getOpenVerified : B → Bool)
    (cheatMethod : Proc A Unit) (cheat : ℤ) (chosen : Fin T) (st st' : Prover A T × Verifier B T)
    (done : List (Fin T)) : Prop where
  res_iff : st'.2.res = true ↔
    ∀ j, j ≠ chosen → getOpenVerified (opened protocol cheatMethod cheat st j).2 = true
  chosen_left : instanceAt st' chosen = executed protocol cheatMethod cheat st chosen
  others : ∀ j, instanceAt st' j = if j ∈ done then opened protocol cheatMethod cheat st j
    else executed protocol cheatMethod cheat st j
  accepted : st'.2.res = true → done = (List.finRange T).filter fun j => j ≠ chosen
  refused : st'.2.res = false → ∃ k, k ≠ chosen ∧
    getOpenVerified (opened protocol cheatMethod cheat st k).2 = false ∧
    (∀ j < k, j ≠ chosen → getOpenVerified (opened protocol cheatMethod cheat st j).2 = true) ∧
    done = (List.finRange T).filter fun j => j ≠ chosen ∧ j ≤ k

/-- **Cut and choose opens exactly the other instances.**  A run that returned has called
`init` and `exec` of every instance once, then the cheating, then `open` of the instances
that the verdict asks for, and nothing else. -/
theorem cutAndChoose_outcome {protocol : Fin T → Protocol A B} {getOpenVerified : B → Bool}
    {cheatMethod : Proc A Unit} {cheat : ℤ} {chosen : Fin T} {st st' : Prover A T × Verifier B T}
    (hchosen : st.2.i = chosen)
    (hrun : cutAndChoose protocol getOpenVerified cheatMethod cheat st = .ok () st') :
    ∃ done, cutAndChooseTraced protocol getOpenVerified cheatMethod cheat (st, []) =
        .ok () (st', (List.finRange T).flatMap (fun i => [Call.init i, Call.exec i]) ++
          cheatCalls cheat ++ done.map Call.open) ∧
      Outcome protocol getOpenVerified cheatMethod cheat chosen st st' done := by
  obtain ⟨log', htraced⟩ :=
    (cutAndChoose_erases protocol getOpenVerified cheatMethod cheat).of_ok hrun []
  obtain ⟨_, ⟨st1, log1⟩, hexec, hrest⟩ := bind_eq_ok.1 htraced
  obtain ⟨_, ⟨st2, log2⟩, hcheat, hrest⟩ := bind_eq_ok.1 hrest
  obtain ⟨⟨p, v⟩, ⟨st3, log3⟩, hget, hrest⟩ := bind_eq_ok.1 hrest
  obtain ⟨_, ⟨st4, log4⟩, hset, hrest⟩ := bind_eq_ok.1 hrest
  obtain ⟨hget, hlog3⟩ := onFst_eq_ok.1 hget
  cases hget
  obtain ⟨hset, hlog4⟩ := onFst_eq_ok.1 hset
  cases hset
  obtain ⟨hlog1, hi1, hat1⟩ := execLoop_log (List.nodup_finRange T) hexec
  obtain ⟨hlog2, hi2, hat2⟩ := cheatAt_log hcheat
  have hgetI : v.getI = chosen := hi2.trans (hi1.trans hchosen)
  rw [hgetI] at hrest
  obtain ⟨b, done, hverdict, hlog, -, hres, hat⟩ := openLoop_log (List.nodup_finRange T) hrest
  have hexecuted : ∀ j, instanceAt (p, { v with res := true }) j =
      executed protocol cheatMethod cheat st j := by
    intro j
    refine (hat2 j).trans ?_
    rw [hat1 j, if_pos (List.mem_finRange j)]
    rfl
  have hpairs : ∀ j, instanceAt st' j = if j ∈ done then opened protocol cheatMethod cheat st j
      else executed protocol cheatMethod cheat st j := by
    intro j
    rw [hat j, hexecuted j]
    rfl
  have hver : Verdict (fun j => getOpenVerified (opened protocol cheatMethod cheat st j).2 = true)
      chosen (List.finRange T) b done :=
    hverdict.congr fun j _ => by rw [hexecuted j, opened]
  rw [Bool.and_true] at hres
  refine ⟨done, ?_, ?_⟩
  · rw [htraced, hlog, show log4 = _ from hlog4, show log3 = _ from hlog3, show log2 = _ from hlog2,
      hlog1, List.nil_append]
  cases hver with
  | accepted h =>
    exact {
      res_iff := ⟨fun _ j hne => h j (List.mem_finRange j) hne, fun _ => hres⟩
      chosen_left := by
        rw [hpairs, if_neg (by simp)]
      others := hpairs
      accepted := fun _ => rfl
      refused := fun hfalse => absurd (hres.symm.trans hfalse) (by simp) }
  | refused pre post k hl hk hpre h =>
    exact {
      res_iff := ⟨fun htrue => absurd (hres.symm.trans htrue) (by simp), fun hall => absurd (hall k hk) h⟩
      chosen_left := by
        rw [hpairs, filter_le_finRange hl hk, if_neg (by simp)]
      others := hpairs
      accepted := fun htrue => absurd (hres.symm.trans htrue) (by simp)
      refused := fun _ => ⟨k, hk, by simpa using h, fun j hjk hne =>
        hpre j (((finRange_split hl).1 j).2 hjk) hne, filter_le_finRange hl hk⟩ }

/-- A protocol whose first party is honest until it cheats, and shows it when it opens. -/
def honesty : Protocol Bool Bool where
  init := modify fun _ => (true, false)
  exec := pure ()
  «open» := modify fun t => (t.1, t.1)

/-- `cutAndChoose_outcome` for three instances, with cheating in the last one. -/
theorem cutAndChoose_outcome_three :
    let st : Prover Bool 3 × Verifier Bool 3 :=
      ({ v := Vector.replicate 3 false }, { v := Vector.replicate 3 false, i := 1, res := true })
    ∃ st' done, cutAndChooseTraced (fun _ => honesty) id (modify fun _ => false) 2 (st, []) =
        .ok () (st', (List.finRange 3).flatMap (fun i => [Call.init i, Call.exec i]) ++
          cheatCalls 2 ++ done.map Call.open) ∧
      Outcome (fun _ => honesty) id (modify fun _ => false) 2 1 st st' done := by
  intro st
  have hchosen : st.2.i = ((1 : Fin 3) : ℤ) := rfl
  have hrun : cutAndChoose (fun _ => honesty) id (modify fun _ => false) 2 st =
      .ok () ({ v := #v[true, true, false] }, { v := #v[true, false, false], i := 1, res := false }) :=
    rfl
  exact ⟨_, cutAndChoose_outcome hchosen hrun⟩

end SellingInformation.CutAndChoose
