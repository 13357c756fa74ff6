import SellingInformation.Lib.Fallible

/-!
# Programs seen through a map of their states

`Projects π m m'`: what the program `m` does to a state, the program `m'` does to its image under
`π`, with the same result or exception.  With a `π` that forgets a part of the state this takes a
program to one that never had that part; with a `π` from the states to themselves, and `m'` the
same as `m`, it says that `m` does not look at what `π` changes.

The rules follow how a program is put together, so that it is enough to look at the single steps.
-/

namespace Fallible

variable {ε σ τ σ' τ' α β : Type}

/-- `m'` does on the images what `m` does. -/
def Projects (π : σ → τ) (m : EStateM ε σ α) (m' : EStateM ε τ α) : Prop :=
  ∀ s, m' (π s) = match m s with
    | .ok a t => .ok a (π t)
    | .error e t => .error e (π t)

namespace Projects

variable {π : σ → τ} {m : EStateM ε σ α} {m' : EStateM ε τ α}

theorem of_ok (h : Projects π m m') {s t : σ} {a : α} (hr : m s = .ok a t) :
    m' (π s) = .ok a (π t) := by
  rw [h s, hr]

theorem pure {a : α} : Projects π (Pure.pure a : EStateM ε σ α) (Pure.pure a) := fun _ => rfl

theorem throw {e : ε} : Projects π (throw e : EStateM ε σ α) (throw e) := fun _ => rfl

theorem lift {x : Except ε α} : Projects π (lift x : EStateM ε σ α) (Fallible.lift x) := by
  intro s
  cases x with
  | ok a => rfl
  | error e => rfl

/-- A step of the first one that changes nothing that is seen. -/
theorem skip {f : σ → σ} (hf : ∀ s, π (f s) = π s) (h : Projects π m m') :
    Projects π ((modify f : EStateM ε σ Unit) >>= fun _ => m) m' := by
  intro s
  rw [bind_of_ok (modify_apply _ _), ← hf s]
  exact h (f s)

theorem modify {f : σ → σ} {f' : τ → τ} (h : ∀ s, f' (π s) = π (f s)) :
    Projects π (modify f : EStateM ε σ Unit) (modify f') := by
  intro s
  rw [modify_apply, modify_apply, h]

theorem bind {k : α → EStateM ε σ β} {k' : α → EStateM ε τ β} (h : Projects π m m')
    (hk : ∀ a, Projects π (k a) (k' a)) : Projects π (m >>= k) (m' >>= k') := by
  intro s
  rw [bind_apply, bind_apply, h s]
  cases m s with
  | ok a t => exact hk a t
  | error e t => rfl

/-- What a computation without a state returned is known in what follows. -/
theorem lift_bind {x : Except ε α} {k : α → EStateM ε σ β} {k' : α → EStateM ε τ β}
    (hk : ∀ a, x = .ok a → Projects π (k a) (k' a)) :
    Projects π (Fallible.lift x >>= k) (Fallible.lift x >>= k') := by
  cases x with
  | ok a => exact hk a rfl
  | error e => exact fun _ => rfl

/-- A step of the first program that is two steps of the second one. -/
theorem bind_two {γ : Type} {m₁ : EStateM ε τ γ} {m₂ : γ → EStateM ε τ α} {k : α → EStateM ε σ β}
    {k' : α → EStateM ε τ β} (h : Projects π m (m₁ >>= m₂)) (hk : ∀ a, Projects π (k a) (k' a)) :
    Projects π (m >>= k) (m₁ >>= fun c => m₂ c >>= k') := by
  have hbind := h.bind hk
  rwa [bind_assoc] at hbind

/-- Both read their state. -/
theorem get_bind {k : σ → EStateM ε σ β} {k' : τ → EStateM ε τ β}
    (h : ∀ s, Projects π (k s) (k' (π s))) : Projects π (get >>= k) (get >>= k') := by
  intro s
  rw [bind_of_ok (get_apply _), bind_of_ok (get_apply _)]
  exact h s s

/-- Only the first one reads its state. -/
theorem get_left {k : σ → EStateM ε σ α} (h : ∀ s, Projects π (k s) m') :
    Projects π (get >>= k) m' := by
  intro s
  rw [bind_of_ok (get_apply _)]
  exact h s s

theorem forM {k : β → EStateM ε σ Unit} {k' : β → EStateM ε τ Unit} (hk : ∀ b, Projects π (k b) (k' b))
    (l : List β) : Projects π (l.forM k) (l.forM k') := by
  induction l with
  | nil => exact pure
  | cons b l ih =>
    rw [forM_cons, forM_cons]
    exact (hk b).bind fun _ => ih

/-- The first program on one component, and the second on another one that is alike. -/
theorem zoom {proj : σ → σ'} {inj : σ' → σ → σ} {proj' : τ → τ'} {inj' : τ' → τ → τ} {π' : σ' → τ'}
    {m : EStateM ε σ' α} {m' : EStateM ε τ' α} (h : Projects π' m m')
    (hproj : ∀ s, proj' (π s) = π' (proj s)) (hinj : ∀ t s, inj' (π' t) (π s) = π (inj t s)) :
    Projects π (Fallible.zoom proj inj m) (Fallible.zoom proj' inj' m') := by
  intro s
  unfold Fallible.zoom
  rw [hproj, h (proj s)]
  cases m (proj s) with
  | ok a t =>
    dsimp only
    rw [hinj]
  | error e t =>
    dsimp only
    rw [hinj]

/-- The same program on one component. -/
theorem same {m : EStateM ε σ α} : Projects id m m := by
  intro s
  cases h : m s with
  | ok a t => exact h
  | error e t => exact h

end Projects

end Fallible
