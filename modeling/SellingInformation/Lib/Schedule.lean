import Mathlib.Data.List.Induction
import Mathlib.Data.Nat.Init
import Mathlib.Order.Nat
import Mathlib.Logic.Relation

/-!
# Threads in any order

A system of threads is a partial function: the step of a thread in a state, or nothing when the
thread cannot move.  Which thread moves next is not determined.

* `reachable_iff_run` — the reachable states are the ends of the schedules;
* `Reachable.invariant` — what holds at the start and is kept by every step holds in every
  reachable state;
* `run_invariant` — the same for what is said of a schedule together with the state it leads to.

An infinite schedule passes over a thread that cannot move.  `Fair.eventually` is the rule for
liveness: a thread that is scheduled again and again brings down a rank that no other thread raises.

With events in the place of threads the system is an automaton and its schedules are the words it
accepts; `exists_run_of_prefix` says that they are closed under prefixes.
-/

namespace Schedule

variable {σ τ : Type} {step : τ → σ → Option σ} {start s s' : σ}

/-- Some thread makes this step. -/
def Next (step : τ → σ → Option σ) (s s' : σ) : Prop := ∃ t, step t s = some s'

/-- The states that the threads can get to. -/
def Reachable (step : τ → σ → Option σ) (start s : σ) : Prop :=
  Relation.ReflTransGen (Next step) start s

/-- Let the threads move in this order. -/
def run (step : τ → σ → Option σ) : List τ → σ → Option σ
  | [], s => some s
  | t :: ts, s => (step t s).bind (run step ts)

theorem run_cons {t : τ} {ts : List τ} (h : step t s = some s') :
    run step (t :: ts) s = run step ts s' := by
  rw [run, h, Option.bind_some]

theorem run_append_singleton {t : τ} {ts : List τ} :
    run step (ts ++ [t]) s = (run step ts s).bind (step t) := by
  induction ts generalizing s with
  | nil => cases h : step t s <;> simp [run, h]
  | cons u ts ih =>
    cases h : step u s with
    | none => simp [run, h]
    | some s1 => rw [List.cons_append, run_cons h, run_cons h, ih]

/-- The reachable states are the ends of the schedules. -/
theorem reachable_iff_run : Reachable step start s ↔ ∃ ts, run step ts start = some s := by
  constructor
  · intro h
    induction h with
    | refl => exact ⟨[], rfl⟩
    | tail _ hnext ih =>
      obtain ⟨ts, hts⟩ := ih
      obtain ⟨t, ht⟩ := hnext
      exact ⟨ts ++ [t], by rw [run_append_singleton, hts, Option.bind_some, ht]⟩
  · rintro ⟨ts, h⟩
    induction ts generalizing start with
    | nil =>
      cases h
      exact .refl
    | cons t ts ih =>
      obtain ⟨s1, ht, hs⟩ := Option.bind_eq_some_iff.1 h
      exact .head ⟨t, ht⟩ (ih hs)

/-- **Induction over the steps.** -/
theorem Reachable.invariant {I : σ → Prop} (h : Reachable step start s) (hstart : I start)
    (hstep : ∀ t s s', I s → step t s = some s' → I s') : I s := by
  induction h with
  | refl => exact hstart
  | tail _ hnext ih =>
    obtain ⟨t, ht⟩ := hnext
    exact hstep t _ _ ih ht

/-- **Induction over a schedule.** -/
theorem run_invariant {I : List τ → σ → Prop} {ts : List τ} (h : run step ts start = some s)
    (hstart : I [] start)
    (hstep : ∀ ts t s s', I ts s → step t s = some s' → I (ts ++ [t]) s') : I ts s := by
  induction ts using List.reverseRecOn generalizing s with
  | nil =>
    cases h
    exact hstart
  | append_singleton ts t ih =>
    rw [run_append_singleton] at h
    obtain ⟨s1, hs1, ht⟩ := Option.bind_eq_some_iff.1 h
    exact hstep ts t s1 s (ih hs1) ht

/-- A schedule can be cut in two. -/
theorem run_append {ts us : List τ} :
    run step (ts ++ us) s = (run step ts s).bind (run step us) := by
  induction ts generalizing s with
  | nil => rfl
  | cons t ts ih =>
    cases h : step t s with
    | none => simp [run, h]
    | some s1 => rw [List.cons_append, run_cons h, run_cons h, ih]

/-- A schedule can be cut short. -/
theorem exists_run_of_prefix {ts ts' : List τ} (hpre : ts' <+: ts)
    (h : run step ts start = some s) : ∃ s', run step ts' start = some s' := by
  obtain ⟨rest, rfl⟩ := hpre
  rw [run_append] at h
  obtain ⟨s', hs', -⟩ := Option.bind_eq_some_iff.1 h
  exact ⟨s', hs'⟩

/-! ## Infinite schedules -/

/-- The states along an infinite schedule.  A thread that cannot move is passed over. -/
def states (step : τ → σ → Option σ) (start : σ) (schedule : ℕ → τ) : ℕ → σ
  | 0 => start
  | n + 1 =>
    (step (schedule n) (states step start schedule n)).getD (states step start schedule n)

/-- The thread is scheduled again and again. -/
def Fair (schedule : ℕ → τ) (t : τ) : Prop := ∀ n, ∃ m, n ≤ m ∧ schedule m = t

section
variable {schedule : ℕ → τ} {n m : ℕ}

theorem states_succ_of_step (h : step (schedule n) (states step start schedule n) = some s) :
    states step start schedule (n + 1) = s := by
  rw [states, h, Option.getD_some]

theorem states_succ_of_none (h : step (schedule n) (states step start schedule n) = none) :
    states step start schedule (n + 1) = states step start schedule n := by
  rw [states, h, Option.getD_none]

/-- A schedule leads through reachable states. -/
theorem reachable_states : Reachable step start (states step start schedule n) := by
  induction n with
  | zero => exact .refl
  | succ n ih =>
    cases h : step (schedule n) (states step start schedule n) with
    | none => rwa [states_succ_of_none h]
    | some s =>
      rw [states_succ_of_step h]
      exact .tail ih ⟨_, h⟩

/-- What every step keeps stays true along a schedule. -/
theorem states_stable {I : σ → Prop} (hstep : ∀ t s s', I s → step t s = some s' → I s')
    (hI : I (states step start schedule n)) (hle : n ≤ m) : I (states step start schedule m) := by
  induction m, hle using Nat.le_induction with
  | base => exact hI
  | succ m _ ih =>
    cases h : step (schedule m) (states step start schedule m) with
    | none => rwa [states_succ_of_none h]
    | some s =>
      rw [states_succ_of_step h]
      exact hstep _ _ _ ih h

/-- **Liveness.**  Let no step raise the rank, and a step of the thread `t` bring it down, until
the goal is reached.  If `t` is scheduled again and again, the goal is reached. -/
theorem Fair.eventually {t : τ} {I goal : σ → Prop} {rank : σ → ℕ} (hfair : Fair schedule t)
    (hI : ∀ m, n ≤ m → I (states step start schedule m))
    (hkeep : ∀ u s s', I s → step u s = some s' → goal s' ∨ rank s' ≤ rank s)
    (hdown : ∀ s, I s → ¬ goal s → ∃ s', step t s = some s' ∧ (goal s' ∨ rank s' < rank s)) :
    ∃ m, n ≤ m ∧ goal (states step start schedule m) := by
  induction hk : rank (states step start schedule n) using Nat.strong_induction_on generalizing n with
  | h k ih =>
    obtain ⟨m, hnm, hm⟩ := hfair n
    -- up to its next turn the rank of the thread's state is no higher
    have hwait : ∀ j, n ≤ j → j ≤ m → (∃ i, n ≤ i ∧ goal (states step start schedule i)) ∨
        rank (states step start schedule j) ≤ k := by
      intro j hnj
      induction j, hnj using Nat.le_induction with
      | base => exact fun _ => Or.inr hk.le
      | succ j hnj ihj =>
        intro hjm
        rcases ihj (by omega) with hgoal | hrank
        · exact Or.inl hgoal
        cases h : step (schedule j) (states step start schedule j) with
        | none =>
          rw [states_succ_of_none h]
          exact Or.inr hrank
        | some s =>
          rw [states_succ_of_step h]
          rcases hkeep _ _ _ (hI j hnj) h with hgoal | hle
          · exact Or.inl ⟨j + 1, by omega, by rwa [states_succ_of_step h]⟩
          · exact Or.inr (hle.trans hrank)
    rcases hwait m hnm le_rfl with hgoal | hrank
    · exact hgoal
    by_cases hgoal : goal (states step start schedule m)
    · exact ⟨m, hnm, hgoal⟩
    obtain ⟨s, hs, hdone⟩ := hdown _ (hI m hnm) hgoal
    rw [← hm] at hs
    rcases hdone with hgoal' | hlt
    · exact ⟨m + 1, by omega, by rwa [states_succ_of_step hs]⟩
    · rw [← states_succ_of_step hs] at hlt
      obtain ⟨i, hi, hgoal'⟩ := ih _ (lt_of_lt_of_le hlt hrank) (fun j hj => hI j (by omega)) rfl
      exact ⟨i, by omega, hgoal'⟩

end

end Schedule
