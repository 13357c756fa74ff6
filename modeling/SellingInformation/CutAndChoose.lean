import Mathlib.Data.List.FinRange
import SellingInformation.Protocol

/-!
# Cut and choose

`cut_and_choose.h`: a protocol is run in `T` instances, and all but the one the
verifier has chosen are opened.  The first instance that does not open verified
ends the loop with a negative verdict.

The instances are `std::vector`s of length `T`.  `C++` calls one protocol object,
which draws afresh for every instance; here every instance has a protocol of its
own.

* `cutAndChoose_ok` — when every instance is executed into a state that opens
  verified, the verdict is positive and the chosen instance is as executed.
-/

namespace SellingInformation.CutAndChoose

open Fallible

/-- The members of `Prover<A>`. -/
structure Prover (A : Type) (T : ℕ) where
  v : Vector A T

/-- The members of `Verifier<B>`. -/
structure Verifier (B : Type) (T : ℕ) where
  v : Vector B T
  i : ℤ
  res : Bool

/-- `getI`. -/
def Verifier.getI {B : Type} {T : ℕ} (v : Verifier B T) : ℤ := v.i

variable {A B α : Type} {T : ℕ}

/-- Run a program on the `i`-th pair of parties. -/
def onInstance (i : Fin T) (m : Proc (A × B) α) : Proc (Prover A T × Verifier B T) α :=
  zoom (fun st => (st.1.v[i], st.2.v[i]))
    (fun t st => ({ st.1 with v := st.1.v.set i t.1 i.isLt }, { st.2 with v := st.2.v.set i t.2 i.isLt })) m

/-- `p->v[cheat].cheat()`, unless `cheat` is `-1`. -/
def cheatAt (cheatMethod : Proc A Unit) (cheat : ℤ) : Proc (Prover A T × Verifier B T) Unit :=
  if cheat = -1 then pure ()
  else if h : 0 ≤ cheat ∧ cheat.toNat < T then onInstance ⟨cheat.toNat, h.2⟩ (onFst cheatMethod)
  else throw .outOfBounds

/-- The second loop, for the instances that are left. -/
def openLoop (protocol : Fin T → Protocol A B) (getOpenVerified : B → Bool) (chosen : ℤ) :
    List (Fin T) → Proc (Prover A T × Verifier B T) Unit
  | [] => pure ()
  | i :: rest =>
    if (i : ℤ) = chosen then openLoop protocol getOpenVerified chosen rest
    else do
      onInstance i (protocol i).open
      let (_, v) ← get
      if getOpenVerified v.v[i] = false then
        modify fun (p, v) => (p, { v with res := false })
      else openLoop protocol getOpenVerified chosen rest

/-- `cut_and_choose`. -/
def cutAndChoose (protocol : Fin T → Protocol A B) (getOpenVerified : B → Bool)
    (cheatMethod : Proc A Unit) (cheat : ℤ) : Proc (Prover A T × Verifier B T) Unit := do
  (List.finRange T).forM fun i => do
    onInstance i (protocol i).init
    onInstance i (protocol i).exec
  cheatAt cheatMethod cheat
  let (_, v) ← get
  modify fun (p, v) => (p, { v with res := true })
  openLoop protocol getOpenVerified v.getI (List.finRange T)

/-! ## Instances that open -/

section
variable {protocol : Fin T → Protocol A B} {getOpenVerified : B → Bool} {cheatMethod : Proc A Unit}
  {a : A} {b : B} {Executed : A × B → Prop} {chosen : Fin T}

/-- The instances in `done` have been executed, and the others are as at the start. -/
structure ExecutedUpTo (Executed : A × B → Prop) (a : A) (b : B) (chosen : ℤ) (done : List (Fin T))
    (st : Prover A T × Verifier B T) : Prop where
  executed : ∀ j ∈ done, Executed (st.1.v[j], st.2.v[j])
  fresh : ∀ j, j ∉ done → (st.1.v[j], st.2.v[j]) = (a, b)
  i_eq : st.2.i = chosen

/-- The pair of parties of one instance, after a program on another one or on itself. -/
theorem set_getElem (st : Prover A T × Verifier B T) (t : A × B) (i j : Fin T) :
    ((st.1.v.set i t.1 i.isLt)[j], (st.2.v.set i t.2 i.isLt)[j]) =
      if i = j then t else (st.1.v[j], st.2.v[j]) := by
  by_cases hij : i = j
  · subst hij
    simp
  · simp [Fin.ext_iff.not.1 hij, hij]

theorem onInstance_of_ok {i : Fin T} {m : Proc (A × B) α} {st : Prover A T × Verifier B T} {x : α}
    {t : A × B} (h : m (st.1.v[i], st.2.v[i]) = .ok x t) : onInstance i m st =
      .ok x ({ st.1 with v := st.1.v.set i t.1 i.isLt }, { st.2 with v := st.2.v.set i t.2 i.isLt }) :=
  zoom_eq_ok.2 ⟨t, h, rfl⟩

/-- The first loop: every instance starts fresh, since no index comes twice. -/
theorem execLoop_ok
    (hexec : ∀ i : Fin T, ∃ t, ((protocol i).init >>= fun _ => (protocol i).exec) (a, b) = .ok () t ∧
      Executed t) (chosen : ℤ) :
    Triple (ExecutedUpTo Executed a b chosen ([] : List (Fin T)))
      ((List.finRange T).forM fun i => do
        onInstance i (protocol i).init
        onInstance i (protocol i).exec)
      (fun _ => ExecutedUpTo Executed a b chosen (List.finRange T)) (fun _ _ => False) := by
  refine Triple.forM (I := ExecutedUpTo Executed a b chosen) ?_
  intro pre i post hsplit st hst
  have hnot : i ∉ pre := by
    have hnodup := List.nodup_finRange T
    rw [hsplit, List.nodup_append] at hnodup
    intro hmem
    exact hnodup.2.2 i hmem i List.mem_cons_self rfl
  obtain ⟨t, hrun, ht⟩ := hexec i
  obtain ⟨_, t1, hinit, hexec'⟩ := bind_eq_ok.1 hrun
  rw [← hst.fresh i hnot] at hinit
  rw [bind_of_ok (onInstance_of_ok hinit)]
  have hself := set_getElem st t1 i i
  rw [if_pos rfl] at hself
  rw [← hself] at hexec'
  rw [onInstance_of_ok hexec']
  have hget : ∀ j : Fin T, (((st.1.v.set i t1.1 i.isLt).set i t.1 i.isLt)[j], ((st.2.v.set i t1.2 i.isLt).set i t.2 i.isLt)[j]) =
      if i = j then t else (st.1.v[j], st.2.v[j]) := by
    intro j
    rw [set_getElem ({ st.1 with v := st.1.v.set i t1.1 i.isLt }, { st.2 with v := st.2.v.set i t1.2 i.isLt }) t i j]
    by_cases hij : i = j
    · rw [if_pos hij, if_pos hij]
    · rw [if_neg hij, if_neg hij]
      exact (set_getElem st t1 i j).trans (if_neg hij)
  refine ⟨?_, ?_, hst.i_eq⟩
  · intro j hj
    rw [hget]
    by_cases hij : i = j
    · rw [if_pos hij]
      exact ht
    · rw [if_neg hij]
      exact hst.executed j (by simpa [Ne.symm hij] using hj)
  · intro j hj
    rw [List.mem_append, not_or] at hj
    rw [hget, if_neg fun hij => hj.2 (by simp [hij])]
    exact hst.fresh j hj.1

/-- The second loop: the instances open verified, and the chosen one is left alone. -/
theorem openLoop_ok (hopen : ∀ (i : Fin T) (t : A × B), Executed t →
      ∃ t', (protocol i).open t = .ok () t' ∧ getOpenVerified t'.2 = true)
    {l : List (Fin T)} (hl : l.Nodup) {st : Prover A T × Verifier B T}
    (hst : ∀ j ∈ l, Executed (st.1.v[j], st.2.v[j])) :
    ∃ st', openLoop protocol getOpenVerified chosen l st = .ok () st' ∧ st'.2.res = st.2.res ∧
      st'.2.i = st.2.i ∧ (st'.1.v[chosen], st'.2.v[chosen]) = (st.1.v[chosen], st.2.v[chosen]) := by
  induction l generalizing st with
  | nil => exact ⟨st, rfl, rfl, rfl, rfl⟩
  | cons i l ih =>
    obtain ⟨hi, hl⟩ := List.nodup_cons.1 hl
    unfold openLoop
    by_cases hc : (i : ℤ) = chosen
    · rw [if_pos hc]
      exact ih hl fun j hj => hst j (List.mem_cons_of_mem _ hj)
    · rw [if_neg hc]
      have hne : i ≠ chosen := fun h => hc (by rw [h])
      obtain ⟨t, hrun, hver⟩ := hopen i _ (hst i List.mem_cons_self)
      have hrest : ∀ j ∈ l, Executed ((st.1.v.set i t.1 i.isLt)[j], (st.2.v.set i t.2 i.isLt)[j]) := by
        intro j hj
        rw [set_getElem, if_neg fun hij => hi (by rwa [hij])]
        exact hst j (List.mem_cons_of_mem _ hj)
      obtain ⟨st', hloop, hres, hchosen, hsame⟩ := @ih hl ({ st.1 with v := st.1.v.set i t.1 i.isLt },
        { st.2 with v := st.2.v.set i t.2 i.isLt }) hrest
      refine ⟨st', ?_, hres, hchosen, hsame.trans ((set_getElem st t i chosen).trans (if_neg hne))⟩
      rw [bind_of_ok (onInstance_of_ok hrun), bind_of_ok (get_apply _)]
      have hself : getOpenVerified (st.2.v.set i t.2 i.isLt)[i] = true := by
        have hget : (st.2.v.set i t.2 i.isLt)[i] = t.2 := by simp
        rw [hget]
        exact hver
      simp only [hself]
      exact hloop

/-- **Completeness.**  When every instance is executed into a state that opens verified, the
verdict is positive, and the chosen instance has been executed and not been opened. -/
theorem cutAndChoose_ok
    (hexec : ∀ i : Fin T, ∃ t, ((protocol i).init >>= fun _ => (protocol i).exec) (a, b) = .ok () t ∧
      Executed t)
    (hopen : ∀ (i : Fin T) (t : A × B), Executed t →
      ∃ t', (protocol i).open t = .ok () t' ∧ getOpenVerified t'.2 = true) (res : Bool) :
    ∃ p v, cutAndChoose protocol getOpenVerified cheatMethod (-1)
        ({ v := Vector.replicate T a }, { v := Vector.replicate T b, i := chosen, res }) =
        .ok () (p, v) ∧
      v.res = true ∧ v.i = chosen ∧ Executed (p.v[chosen], v.v[chosen]) := by
  have hfresh : ExecutedUpTo Executed a b chosen ([] : List (Fin T))
      ({ v := Vector.replicate T a }, { v := Vector.replicate T b, i := chosen, res }) :=
    ⟨fun _ hj => absurd hj List.not_mem_nil, fun j _ => by simp, rfl⟩
  obtain ⟨_, ⟨p, v⟩, hloop, hst⟩ := (execLoop_ok hexec chosen).returns hfresh
  obtain ⟨st', hopened, hres, hi, hsame⟩ := @openLoop_ok A B T protocol getOpenVerified Executed chosen
    hopen _ (List.nodup_finRange T) (p, { v with res := true }) fun j hj => hst.executed j hj
  refine ⟨st'.1, st'.2, ?_, hres, hi.trans hst.i_eq, ?_⟩
  · unfold cutAndChoose
    rw [bind_of_ok hloop, cheatAt, if_pos rfl, bind_of_ok (pure_apply _ _),
      bind_of_ok (get_apply _)]
    have hgetI : v.getI = chosen := hst.i_eq
    simp only [hgetI]
    exact (bind_of_ok (modify_apply _ _)).trans hopened
  · rw [hsame]
    exact hst.executed chosen (List.mem_finRange chosen)

end

end SellingInformation.CutAndChoose
