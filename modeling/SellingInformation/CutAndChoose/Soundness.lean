import SellingInformation.CutAndChoose.Verdict

/-!
# What cut and choose is good for

The verifier's choice is made before the run, and nothing that the prover does depends on it.
So for one behaviour of the prover the run can be looked at for all choices at once: a choice
passes when every other instance opens verified.

* `passes_iff` — when a run returns with a positive verdict;
* `kept_eq` — what is kept has been executed and not been opened;
* `passing_choices` — a prover with a bad instance passes for one choice or for none.
-/

namespace SellingInformation.CutAndChoose

open Fallible

variable {A B : Type} {T : ℕ} {protocol : Fin T → Protocol A B} {getOpenVerified : B → Bool}
  {cheatMethod : Proc A Unit} {cheat : ℤ} {st st' : Prover A T × Verifier B T}

/-! ## The second loop -/

section
variable {chosen : ℤ} {l : List (Fin T)}

/-- The second loop changes neither the choice nor the chosen instance. -/
theorem keeps_openLoop : Keeps (fun st : Prover A T × Verifier B T =>
    (st.2.i, fun j : Fin T => if (j : ℤ) = chosen then some (instanceAt st j) else none))
    (openLoop protocol getOpenVerified chosen l) := by
  induction l with
  | nil => exact Keeps.pure
  | cons i l ih =>
    unfold openLoop
    by_cases hc : (i : ℤ) = chosen
    · rw [if_pos hc]
      exact ih
    · rw [if_neg hc]
      refine Keeps.bind (Keeps.zoom fun t st => ?_) fun _ => ?_
      · refine Prod.ext rfl (funext fun j => ?_)
        by_cases hj : (j : ℤ) = chosen
        · have hij : i ≠ j := fun h => hc (h ▸ hj)
          simp only [if_pos hj]
          exact congrArg some ((set_getElem st t i j).trans (if_neg hij))
        · simp only [if_neg hj]
      refine Keeps.bind Keeps.get ?_
      rintro ⟨_, v⟩
      by_cases hver : getOpenVerified v.v[i] = false
      · simp only [if_pos hver]
        exact Keeps.modify fun _ => rfl
      · simp only [if_neg hver]
        exact ih

/-- The second loop returns with a positive verdict when the instances it comes to report. -/
theorem openLoop_passes_iff (hl : l.Nodup) (hres : st.2.res = true) :
    (∃ st', openLoop protocol getOpenVerified chosen l st = .ok () st' ∧ st'.2.res = true) ↔
      ∀ j ∈ l, (j : ℤ) ≠ chosen → Reports protocol getOpenVerified j (instanceAt st j) := by
  induction l generalizing st with
  | nil => exact iff_of_true ⟨st, rfl, hres⟩ (by simp)
  | cons i l ih =>
    obtain ⟨hi, hl⟩ := List.nodup_cons.1 hl
    rw [List.forall_mem_cons]
    unfold openLoop
    by_cases hc : (i : ℤ) = chosen
    · rw [if_pos hc, ih hl hres]
      simp [hc]
    · rw [if_neg hc]
      cases hopen : (protocol i).open (instanceAt st i) with
      | error e t =>
        have hthrow : Throws (onInstance i (protocol i).open) st :=
          throws_onInstance.2 (throws_of_error hopen)
        obtain ⟨e', st1, hst1⟩ := hthrow
        rw [bind_of_error hst1]
        refine iff_of_false ?_ ?_
        · rintro ⟨st', hst', -⟩
          cases hst'
        · rintro ⟨hrep, -⟩
          obtain ⟨t', ht', -⟩ := hrep hc
          rw [hopen] at ht'
          cases ht'
      | ok u t =>
        rw [bind_of_ok (onInstance_of_ok hopen), bind_of_ok (get_apply _)]
        have hself : (st.2.v.set i t.2 i.isLt)[i] = t.2 := by simp
        by_cases hver : getOpenVerified t.2 = false
        · simp only [hself, if_pos hver]
          refine iff_of_false ?_ ?_
          · rintro ⟨st', hst', hres'⟩
            cases hst'
            exact absurd hres' Bool.false_ne_true
          · rintro ⟨hrep, -⟩
            obtain ⟨t', ht', hver'⟩ := hrep hc
            rw [hopen] at ht'
            cases ht'
            rw [hver] at hver'
            exact absurd hver' Bool.false_ne_true
        · simp only [hself, if_neg hver]
          have hrep : Reports protocol getOpenVerified i (instanceAt st i) :=
            ⟨t, hopen, Bool.not_eq_false _ ▸ hver⟩
          refine (ih hl ?_).trans ?_
          · exact hres
          have hrest : ∀ j ∈ l, instanceAt ({ st.1 with v := st.1.v.set i t.1 i.isLt },
              { st.2 with v := st.2.v.set i t.2 i.isLt }) j = instanceAt st j := by
            intro j hj
            exact (set_getElem st t i j).trans (if_neg fun hij : i = j => hi (hij ▸ hj))
          constructor
          · intro h
            refine ⟨fun _ => hrep, fun j hj hjc => ?_⟩
            rw [← hrest j hj]
            exact h j hj hjc
          · rintro ⟨-, h⟩ j hj hjc
            rw [hrest j hj]
            exact h j hj hjc

end

/-! ## The run -/

/-- A run that comes to the openings does so with every instance executed. -/
theorem run_cases : (ThrowsBefore protocol cheatMethod cheat st ∧
      Throws (cutAndChoose protocol getOpenVerified cheatMethod cheat) st) ∨
    (¬ ThrowsBefore protocol cheatMethod cheat st ∧ ∃ st2 : Prover A T × Verifier B T,
      (st2.2.i = st.2.i ∧ st2.2.res = true ∧
        instanceAt st2 = executed protocol cheatMethod cheat st) ∧
      cutAndChoose protocol getOpenVerified cheatMethod cheat st =
        openLoop protocol getOpenVerified st.2.i (List.finRange T) st2) := by
  have hexecThrows := @throws_execLoop A B T protocol st _ (List.nodup_finRange T)
  simp only [List.mem_finRange, true_and] at hexecThrows
  have hloop : cutAndChoose protocol getOpenVerified cheatMethod cheat =
      (execLoop protocol (List.finRange T) >>= fun _ => cheatAt cheatMethod cheat >>= fun _ =>
        (get >>= fun w => (modify fun u => (u.1, { u.2 with res := true })) >>= fun _ =>
          openLoop protocol getOpenVerified w.2.getI (List.finRange T))) := rfl
  rw [hloop]
  cases hexec : execLoop protocol (List.finRange T) st with
  | error e st1 =>
    exact Or.inl ⟨.inl (hexecThrows.1 (throws_of_error hexec)), throws_of_error (bind_of_error hexec)⟩
  | ok u st1 =>
    obtain ⟨hi1, hat1⟩ := execLoop_instanceAt hexec
    rw [bind_of_ok hexec]
    have hnoExec : ¬ ∃ j, ExecThrows protocol st j := fun h =>
      not_throws_of_ok hexec (hexecThrows.2 h)
    have hcheatThrows : Throws (cheatAt cheatMethod cheat) st1 ↔
        CheatThrows protocol cheatMethod cheat st := by
      rw [throws_cheatAt, CheatThrows]
      simp only [hat1]
    cases hcheat : cheatAt cheatMethod cheat st1 with
    | error e st2 =>
      exact Or.inl ⟨.inr (hcheatThrows.1 (throws_of_error hcheat)),
        throws_of_error ((bind_of_ok hexec).trans (bind_of_error hcheat))⟩
    | ok u' st2 =>
      obtain ⟨hi2, hat2⟩ := cheatAt_instanceAt hcheat
      have hi : st2.2.i = st.2.i := hi2.trans hi1
      have hgetI : st2.2.getI = st.2.i := hi
      refine Or.inr ⟨?_, (st2.1, { st2.2 with res := true }), ⟨hi, rfl, funext fun j => ?_⟩, ?_⟩
      · rintro (h | h)
        · exact hnoExec h
        · exact not_throws_of_ok hcheat (hcheatThrows.2 h)
      · refine (hat2 j).trans ?_
        rw [hat1]
        rfl
      · rw [bind_of_ok hcheat, bind_of_ok (get_apply _), bind_of_ok (modify_apply _ _), hgetI]

/-- The run returns with a positive verdict. -/
def Positive (protocol : Fin T → Protocol A B) (getOpenVerified : B → Bool)
    (cheatMethod : Proc A Unit) (cheat : ℤ) (st : Prover A T × Verifier B T) : Prop :=
  ∃ st', cutAndChoose protocol getOpenVerified cheatMethod cheat st = .ok () st' ∧ st'.2.res = true

/-- The instance `j` would report, if it were opened. -/
def Good (protocol : Fin T → Protocol A B) (getOpenVerified : B → Bool)
    (cheatMethod : Proc A Unit) (cheat : ℤ) (st : Prover A T × Verifier B T) (j : Fin T) : Prop :=
  Reports protocol getOpenVerified j (executed protocol cheatMethod cheat st j)

/-- The verdict is positive exactly when nothing throws before the openings and every instance
other than the chosen one reports. -/
theorem positive_iff : Positive protocol getOpenVerified cheatMethod cheat st ↔
    ¬ ThrowsBefore protocol cheatMethod cheat st ∧
      ∀ j : Fin T, (j : ℤ) ≠ st.2.i → Good protocol getOpenVerified cheatMethod cheat st j := by
  unfold Positive Good
  rcases @run_cases A B T protocol getOpenVerified cheatMethod cheat st with
    ⟨hbefore, hthrows⟩ | ⟨hbefore, st2, ⟨-, hres, hat⟩, hrun⟩
  · refine iff_of_false ?_ fun h => h.1 hbefore
    rintro ⟨st', hok, -⟩
    exact not_throws_of_ok hok hthrows
  · rw [hrun, openLoop_passes_iff (List.nodup_finRange T) hres, hat]
    simp [hbefore]

/-- **What is kept.**  When the run returns, the chosen instance is as its execution left it. -/
theorem kept_eq (h : cutAndChoose protocol getOpenVerified cheatMethod cheat st = .ok () st') :
    st'.2.i = st.2.i ∧ ¬ ThrowsBefore protocol cheatMethod cheat st ∧
      ∀ j : Fin T, (j : ℤ) = st.2.i →
        instanceAt st' j = executed protocol cheatMethod cheat st j := by
  rcases @run_cases A B T protocol getOpenVerified cheatMethod cheat st with
    ⟨-, hthrows⟩ | ⟨hbefore, st2, ⟨hi, -, hat⟩, hrun⟩
  · exact absurd hthrows (not_throws_of_ok h)
  · obtain ⟨hi', hkept⟩ := Prod.mk.inj (keeps_openLoop.of_ok (hrun.symm.trans h))
    refine ⟨hi'.trans hi, hbefore, fun j hj => ?_⟩
    have hsome := congrFun hkept j
    simp only [if_pos hj, Option.some.injEq] at hsome
    rw [hsome, hat]

/-- Without cheating, what is opened or kept is what `init` and `exec` return. -/
theorem executed_eq_ok (h : ¬ ThrowsBefore protocol cheatMethod (-1) st) (j : Fin T) :
    ((protocol j).init >>= fun _ => (protocol j).exec) (instanceAt st j) =
      .ok () (executed protocol cheatMethod (-1) st j) := by
  have hexec : ¬ ExecThrows protocol st j := fun hthrows => h (Or.inl ⟨j, hthrows⟩)
  rw [ExecThrows, not_or, not_throws_iff] at hexec
  obtain ⟨⟨t, hinit⟩, hexec⟩ := hexec
  rw [hinit, final_ok, not_throws_iff] at hexec
  obtain ⟨t', hexec⟩ := hexec
  have hcheat : ¬ ((j : ℕ) : ℤ) = -1 := by omega
  rw [bind_of_ok hinit, hexec, executed, if_neg hcheat, initExec, hinit, final_ok, hexec, final_ok]

/-- **A positive verdict**, from instances that all start fresh and without cheating: each of them
returns on its own, the chosen one is kept as it is then, and the others report. -/
theorem kept_of_fresh {a : A} {b : B} {chosen : ℤ} {res : Bool} {p : Prover A T} {v : Verifier B T}
    (h : cutAndChoose protocol getOpenVerified cheatMethod (-1)
      ({ v := Vector.replicate T a }, { v := Vector.replicate T b, i := chosen, res }) =
        .ok () (p, v)) (hres : v.res = true) :
    v.i = chosen ∧ ∃ t : Fin T → A × B,
      (∀ j, ((protocol j).init >>= fun _ => (protocol j).exec) (a, b) = .ok () (t j)) ∧
      (∀ j : Fin T, (j : ℤ) = chosen → (p.v[j], v.v[j]) = t j) ∧
      ∀ j : Fin T, (j : ℤ) ≠ chosen → Reports protocol getOpenVerified j (t j) := by
  obtain ⟨hi, hbefore, hkept⟩ := kept_eq h
  obtain ⟨-, hgood⟩ := positive_iff.1 ⟨_, h, hres⟩
  refine ⟨hi, _, fun j => ?_, hkept, hgood⟩
  rw [← executed_eq_ok hbefore j]
  simp [instanceAt]

/-! ## All choices at once -/

/-- The parties, with this choice of the verifier. -/
def choosing (st : Prover A T × Verifier B T) (i : Fin T) : Prover A T × Verifier B T :=
  (st.1, { st.2 with i })

/-- The choices that a prover passes with. -/
def winners (protocol : Fin T → Protocol A B) (getOpenVerified : B → Bool)
    (cheatMethod : Proc A Unit) (cheat : ℤ) (st : Prover A T × Verifier B T) : Set (Fin T) :=
  { i | Positive protocol getOpenVerified cheatMethod cheat (choosing st i) }

/-- The choice plays no part before the openings. -/
theorem mem_winners {i : Fin T} : i ∈ winners protocol getOpenVerified cheatMethod cheat st ↔
    ¬ ThrowsBefore protocol cheatMethod cheat st ∧
      ∀ j, j ≠ i → Good protocol getOpenVerified cheatMethod cheat st j := by
  unfold winners
  rw [Set.mem_ofPred_eq, positive_iff]
  refine and_congr Iff.rfl (forall_congr' fun j => ?_)
  exact imp_congr (by simp [choosing, Fin.ext_iff]) Iff.rfl

/-- **Soundness.**  A prover passes with no choice; or it has exactly one bad instance, and passes
only with the choice of that one; or it passes with every choice, and all its instances are good.
So a bad instance is kept with at most one of the `T` choices. -/
theorem passing_choices (protocol : Fin T → Protocol A B) (getOpenVerified : B → Bool)
    (cheatMethod : Proc A Unit) (cheat : ℤ) (st : Prover A T × Verifier B T) :
    let good := Good protocol getOpenVerified cheatMethod cheat st
    let winners := winners protocol getOpenVerified cheatMethod cheat st
    winners = ∅ ∨ (∃ k, winners = {k} ∧ ¬ good k ∧ ∀ j, j ≠ k → good j) ∨
      (winners = Set.univ ∧ ∀ j, good j) := by
  intro good winners
  have hmem : ∀ i, i ∈ winners ↔ ¬ ThrowsBefore protocol cheatMethod cheat st ∧
      ∀ j, j ≠ i → good j := fun i => mem_winners
  rcases Set.eq_empty_or_nonempty winners with hnone | ⟨i, hi⟩
  · exact Or.inl hnone
  obtain ⟨hbefore, hothers⟩ := (hmem i).1 hi
  by_cases hbad : good i
  · have hall : ∀ j, good j := fun j => by
      by_cases hji : j = i
      · rwa [hji]
      · exact hothers j hji
    refine Or.inr (Or.inr ⟨Set.eq_univ_of_forall fun k => ?_, hall⟩)
    exact (hmem k).2 ⟨hbefore, fun j _ => hall j⟩
  · refine Or.inr (Or.inl ⟨i, ?_, hbad, hothers⟩)
    refine Set.eq_singleton_iff_unique_mem.2 ⟨hi, fun k hk => ?_⟩
    by_contra hki
    exact hbad (((hmem k).1 hk).2 i (Ne.symm hki))

end SellingInformation.CutAndChoose
