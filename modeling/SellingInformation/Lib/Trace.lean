import SellingInformation.Lib.Fallible

/-!
# Programs with a log

A program that also writes what it does in a log.  The log is beside the state, so
that it cannot change what the program does: `Erases` says that a program with a log
does the same as one without, and it holds as soon as the two are built alike
(`erases_onFst`, `erases_traced`, `Erases.bind`, `Erases.forM`).

With that, a statement about the order of steps is proved of the program with the log,
and `Erases.of_ok` takes a run of the plain program to a run of the other one.
-/

namespace Fallible

variable {ε σ ev α β : Type}

/-- Write `e` in the log, then run `m`. -/
def traced (e : ev) (m : EStateM ε σ α) : EStateM ε (σ × List ev) α := do
  modify fun st => (st.1, st.2 ++ [e])
  onFst m

theorem traced_eq_ok {e : ev} {m : EStateM ε σ α} {p p' : σ × List ev} {a : α} :
    traced e m p = .ok a p' ↔ m p.1 = .ok a p'.1 ∧ p'.2 = p.2 ++ [e] := by
  unfold traced
  rw [bind_of_ok (modify_apply _ _), onFst_eq_ok]

/-- The program with the log does what the one without does. -/
def Erases (mt : EStateM ε (σ × List ev) α) (m : EStateM ε σ α) : Prop :=
  ∀ s log, ∃ log', mt (s, log) = match m s with
    | .ok a s' => .ok a (s', log')
    | .error e s' => .error e (s', log')

theorem erases_pure {a : α} : Erases (Pure.pure a : EStateM ε (σ × List ev) α) (Pure.pure a) :=
  fun _ log => ⟨log, rfl⟩

theorem erases_throw {e : ε} : Erases (throw e : EStateM ε (σ × List ev) α) (throw e) :=
  fun _ log => ⟨log, rfl⟩

/-- A program that writes nothing. -/
theorem erases_onFst {m : EStateM ε σ α} : Erases (onFst m : EStateM ε (σ × List ev) α) m := by
  intro s log
  refine ⟨log, ?_⟩
  unfold onFst zoom
  cases m s <;> rfl

theorem erases_traced {e : ev} {m : EStateM ε σ α} : Erases (traced e m) m := by
  intro s log
  unfold traced
  rw [bind_of_ok (modify_apply _ _)]
  exact erases_onFst s (log ++ [e])

namespace Erases

variable {mt : EStateM ε (σ × List ev) α} {m : EStateM ε σ α}

theorem bind {kt : α → EStateM ε (σ × List ev) β} {k : α → EStateM ε σ β} (h : Erases mt m)
    (hk : ∀ a, Erases (kt a) (k a)) : Erases (mt >>= kt) (m >>= k) := by
  intro s log
  obtain ⟨log', hm⟩ := h s log
  rw [bind_apply, bind_apply, hm]
  cases m s with
  | ok a s' => exact hk a s' log'
  | error e s' => exact ⟨log', rfl⟩

theorem forM {kt : β → EStateM ε (σ × List ev) Unit} {k : β → EStateM ε σ Unit}
    (hk : ∀ b, Erases (kt b) (k b)) (l : List β) : Erases (l.forM kt) (l.forM k) := by
  induction l with
  | nil => exact erases_pure
  | cons b l ih =>
    rw [forM_cons, forM_cons]
    exact (hk b).bind fun _ => ih

/-- A run of the plain program is a run of the program with the log. -/
theorem of_ok (h : Erases mt m) {s s' : σ} {a : α} (hrun : m s = .ok a s') (log : List ev) :
    ∃ log', mt (s, log) = .ok a (s', log') := by
  obtain ⟨log', hm⟩ := h s log
  rw [hrun] at hm
  exact ⟨log', hm⟩

end Erases

end Fallible
