import Mathlib.Data.List.Basic
import Mathlib.Data.List.Induction
import Mathlib.Tactic.Common

/-!
# Programs with a state and exceptions

A method of an object that may throw is an `EStateM ε σ α`: it leaves a state
behind whether it returns or throws.  This file collects what is needed to
reason about such programs without unfolding the monad:

* **running** — `bind_eq_ok` inverts a sequence that returned, and the `@[simp]`
  lemmas around it evaluate the primitive programs;
* **loops** — `forM_eq_ok_iff` for loops without a state of their own, and
  `Triple.forM` for a loop with an invariant indexed by the prefix already done;
* **searches** — `lastMatch_of_ok` for a loop that keeps the last element to pass a test;
* **avoided exceptions** — `Avoids e x`: whatever else `x` throws, it is not `e`;
* **zooming** — `zoom` runs a program on one component of a larger state, and
  `Triple.zoom` transports what is known about it;
* **frames** — `Keeps f m`: however `m` ends, the part `f` of the state is as it was;
* **triples** — `Triple P m Q E`: started in a state satisfying `P`, the program
  `m` returns only with `Q` and throws only with `E`; `Maintains I m` is the case
  where all three are one invariant.

Nothing here depends on what the states, the results or the exceptions are.
-/

namespace Fallible

variable {ε σ τ α β : Type}

/-! ## Running -/

/-- The state a program leaves behind, whether it returned or threw. -/
def final : EStateM.Result ε σ α → σ
  | .ok _ s => s
  | .error _ s => s

@[simp] theorem final_ok (a : α) (s : σ) : final (.ok a s : EStateM.Result ε σ α) = s := rfl

@[simp] theorem final_error (e : ε) (s : σ) :
    final (.error e s : EStateM.Result ε σ α) = s := rfl

/-- Throw `e` when `c` holds, and do nothing otherwise. -/
def throwIf (c : Prop) [Decidable c] (e : ε) : EStateM ε σ Unit :=
  if c then throw e else pure ()

/-- A computation without a state, run as a program that leaves the state alone. -/
def lift (x : Except ε α) : EStateM ε σ α := fun s =>
  match x with
  | .ok a => .ok a s
  | .error e => .error e s

@[simp] theorem pure_apply (a : α) (s : σ) : (pure a : EStateM ε σ α) s = .ok a s := rfl

@[simp] theorem throw_apply (e : ε) (s : σ) : (throw e : EStateM ε σ α) s = .error e s := rfl

@[simp] theorem get_apply (s : σ) : (get : EStateM ε σ σ) s = .ok s s := rfl

@[simp] theorem set_apply (t s : σ) : (set t : EStateM ε σ Unit) s = .ok () t := rfl

@[simp] theorem modify_apply (f : σ → σ) (s : σ) :
    (modify f : EStateM ε σ Unit) s = .ok () (f s) := rfl

@[simp] theorem lift_ok (a : α) (s : σ) : (lift (.ok a) : EStateM ε σ α) s = .ok a s := rfl

@[simp] theorem lift_error (e : ε) (s : σ) :
    (lift (.error e) : EStateM ε σ α) s = .error e s := rfl

theorem bind_apply (m : EStateM ε σ α) (f : α → EStateM ε σ β) (s : σ) :
    (m >>= f) s = match m s with
      | .ok a s' => f a s'
      | .error e s' => .error e s' := rfl

/-- Running a sequence whose first program is known to return. -/
theorem bind_of_ok {m : EStateM ε σ α} {f : α → EStateM ε σ β} {s s' : σ} {a : α}
    (h : m s = .ok a s') : (m >>= f) s = f a s' := by
  rw [bind_apply, h]

/-- Running a sequence whose first program is known to throw. -/
theorem bind_of_error {m : EStateM ε σ α} {f : α → EStateM ε σ β} {s s' : σ} {e : ε}
    (h : m s = .error e s') : (m >>= f) s = .error e s' := by
  rw [bind_apply, h]

/-- A sequence returned exactly when its first program did and the rest did too. -/
theorem bind_eq_ok {m : EStateM ε σ α} {f : α → EStateM ε σ β} {s s'' : σ} {b : β} :
    (m >>= f) s = .ok b s'' ↔ ∃ a s', m s = .ok a s' ∧ f a s' = .ok b s'' := by
  rw [bind_apply]
  cases m s with
  | ok a s' => simp
  | error e s' => simp

theorem throwIf_eq_ok {c : Prop} [Decidable c] {e : ε} {s s' : σ} {u : Unit} :
    throwIf c e s = .ok u s' ↔ ¬ c ∧ s' = s := by
  unfold throwIf
  by_cases h : c <;> simp [h, eq_comm]

theorem throwIf_of_not {c : Prop} [Decidable c] {e : ε} {s : σ} (h : ¬ c) :
    (throwIf c e : EStateM ε σ Unit) s = .ok () s := by
  rw [throwIf, if_neg h]; rfl

theorem throwIf_of {c : Prop} [Decidable c] {e : ε} {s : σ} (h : c) :
    (throwIf c e : EStateM ε σ Unit) s = .error e s := by
  rw [throwIf, if_pos h]; rfl

theorem lift_eq_ok {x : Except ε α} {s s' : σ} {a : α} :
    lift x s = .ok a s' ↔ x = .ok a ∧ s' = s := by
  cases x with
  | ok b => simp [eq_comm]
  | error e => simp

/-! ## Computations without a state -/

/-- A sequence of stateless computations returned exactly when both did. -/
theorem except_bind_eq_ok {x : Except ε α} {f : α → Except ε β} {b : β} :
    (x >>= f) = .ok b ↔ ∃ a, x = .ok a ∧ f a = .ok b := by
  cases x <;> simp [Bind.bind, Except.bind]

@[simp] theorem except_ok_bind (a : α) (f : α → Except ε β) :
    ((Except.ok a : Except ε α) >>= f) = f a := rfl

@[simp] theorem except_error_bind (e : ε) (f : α → Except ε β) :
    ((Except.error e : Except ε α) >>= f) = .error e := rfl

/-- Renaming the exceptions does not change what is returned. -/
theorem mapError_eq_ok {ε' : Type} {f : ε → ε'} {x : Except ε α} {a : α} :
    x.mapError f = .ok a ↔ x = .ok a := by
  cases x <;> simp [Except.mapError]

/-- Refuse with `e` when `c` holds. -/
def refuseIf (c : Prop) [Decidable c] (e : ε) : Except ε Unit :=
  if c then .error e else .ok ()

theorem refuseIf_eq_ok {c : Prop} [Decidable c] {e : ε} {u : Unit} :
    refuseIf c e = .ok u ↔ ¬ c := by
  unfold refuseIf
  by_cases h : c <;> simp [h]

theorem refuseIf_of_not {c : Prop} [Decidable c] {e : ε} (h : ¬ c) :
    refuseIf c e = .ok () := if_neg h

theorem refuseIf_of {c : Prop} [Decidable c] {e : ε} (h : c) :
    refuseIf c e = .error e := if_pos h

theorem forM_cons {m : Type → Type} [Monad m] (f : α → m Unit) (a : α) (l : List α) :
    (a :: l).forM f = (f a >>= fun _ => l.forM f) := rfl

/-- A loop of stateless checks returned exactly when every one of them did. -/
theorem forM_eq_ok_iff {f : α → Except ε Unit} {l : List α} :
    l.forM f = .ok () ↔ ∀ a ∈ l, f a = .ok () := by
  induction l with
  | nil => simp [List.forM, pure, Except.pure]
  | cons a l ih =>
    rw [forM_cons, except_bind_eq_ok]
    simp only [List.forall_mem_cons]
    constructor
    · rintro ⟨_, ha, hl⟩
      exact ⟨ha, ih.1 hl⟩
    · rintro ⟨ha, hl⟩
      exact ⟨(), ha, ih.2 hl⟩

/-- A stateless computation that does not throw `e`. -/
def Avoids (e : ε) (x : Except ε α) : Prop := x ≠ .error e

namespace Avoids

variable {e : ε}

theorem ok (a : α) : Avoids e (.ok a) := nofun

theorem bind {x : Except ε α} {f : α → Except ε β} (hx : Avoids e x) (hf : ∀ a, Avoids e (f a)) :
    Avoids e (x >>= f) := by
  cases x with
  | ok a => exact hf a
  | error e' =>
    intro h
    exact hx (congrArg Except.error (Except.error.inj h))

theorem refuseIf {c : Prop} [Decidable c] {e' : ε} (h : e' ≠ e) : Avoids e (refuseIf c e') := by
  by_cases hc : c
  · rw [refuseIf_of hc]
    exact fun herr => h (Except.error.inj herr)
  · rw [refuseIf_of_not hc]
    exact ok ()

theorem forM {f : α → Except ε Unit} {l : List α} (h : ∀ a ∈ l, Avoids e (f a)) :
    Avoids e (l.forM f) := by
  induction l with
  | nil => exact ok ()
  | cons a l ih =>
    rw [forM_cons]
    exact (h a List.mem_cons_self).bind fun _ => ih fun b hb => h b (List.mem_cons_of_mem _ hb)

end Avoids

/-- A loop over all elements that keeps the last one to pass a test, where the test may throw. -/
def lastMatch (f : α → Except ε Bool) (l : List α) : Except ε (Option α) :=
  l.foldlM (fun found a => do
    let b ← f a
    .ok (if b then some a else found)) none

theorem lastMatch_concat (f : α → Except ε Bool) (l : List α) (a : α) :
    lastMatch f (l ++ [a]) = lastMatch f l >>= fun found => f a >>= fun b =>
      .ok (if b then some a else found) := by
  unfold lastMatch
  rw [List.foldlM_append]
  refine congrArg _ (funext fun found => ?_)
  rw [List.foldlM_cons]
  cases f a <;> rfl

/-- The loop looks at every element, so it returns when all tests do. -/
theorem exists_lastMatch_eq_ok_iff {f : α → Except ε Bool} {l : List α} :
    (∃ found, lastMatch f l = .ok found) ↔ ∀ a ∈ l, ∃ b, f a = .ok b := by
  induction l using List.reverseRecOn with
  | nil => exact iff_of_true ⟨none, rfl⟩ (by simp)
  | append_singleton l a ih =>
    simp only [lastMatch_concat, List.mem_append, List.mem_singleton, or_imp, forall_and,
      forall_eq, ← ih, except_bind_eq_ok]
    constructor
    · rintro ⟨_, found, hl, b, ha, -⟩
      exact ⟨⟨found, hl⟩, b, ha⟩
    · rintro ⟨⟨found, hl⟩, b, ha⟩
      exact ⟨_, found, hl, b, ha, rfl⟩

/-- What is kept is an element that passed the test. -/
theorem mem_of_lastMatch {f : α → Except ε Bool} {l : List α} {a : α}
    (h : lastMatch f l = .ok (some a)) : a ∈ l ∧ f a = .ok true := by
  induction l using List.reverseRecOn with
  | nil => cases h
  | append_singleton l c ih =>
    rw [lastMatch_concat, except_bind_eq_ok] at h
    obtain ⟨found, hfound, h⟩ := h
    obtain ⟨b, hb, h⟩ := except_bind_eq_ok.1 h
    cases b with
    | true =>
      cases h
      exact ⟨by simp, hb⟩
    | false =>
      cases h
      obtain ⟨hmem, ha⟩ := ih hfound
      exact ⟨List.mem_append_left _ hmem, ha⟩

/-- Searching the images is searching the elements. -/
theorem lastMatch_map (f : β → Except ε Bool) (g : α → β) (l : List α) :
    lastMatch f (l.map g) = (lastMatch (f ∘ g) l).map (Option.map g) := by
  induction l using List.reverseRecOn with
  | nil => rfl
  | append_singleton l a ih =>
    rw [List.map_append, List.map_singleton, lastMatch_concat, lastMatch_concat, ih]
    cases lastMatch (f ∘ g) l with
    | error e => rfl
    | ok found =>
      cases hb : f (g a) with
      | error e => simp [Except.map, hb]
      | ok b => cases b <;> simp [Except.map, hb]

/-- A later match replaces an earlier one. -/
theorem lastMatch_of_ok {f : α → Except ε Bool} {p : α → Bool} {l : List α}
    (h : ∀ a ∈ l, f a = .ok (p a)) : lastMatch f l = .ok (l.filter p).getLast? := by
  induction l using List.reverseRecOn with
  | nil => rfl
  | append_singleton l a ih =>
    rw [lastMatch_concat, ih fun b hb => h b (List.mem_append_left _ hb), except_ok_bind,
      h a (List.mem_append_right _ (List.mem_singleton_self a)), except_ok_bind]
    rw [List.filter_append, List.getLast?_append]
    cases hp : p a <;> simp [hp]

/-- A stateless computation on every element of a list, when all of them return. -/
theorem mapM_of_ok {f : α → Except ε β} {g : α → β} {l : List α}
    (h : ∀ a ∈ l, f a = .ok (g a)) : l.mapM f = .ok (l.map g) := by
  induction l with
  | nil => rfl
  | cons a l ih =>
    rw [List.mapM_cons, h a List.mem_cons_self, except_ok_bind,
      ih fun b hb => h b (List.mem_cons_of_mem _ hb)]
    rfl

/-- A stateless computation on every element of a list returned exactly when each did. -/
theorem mapM_eq_ok_iff {f : α → Except ε β} {l : List α} {l' : List β} :
    l.mapM f = .ok l' ↔ List.Forall₂ (fun a b => f a = .ok b) l l' := by
  induction l generalizing l' with
  | nil =>
    rw [List.mapM_nil]
    constructor
    · intro h
      cases h
      exact List.Forall₂.nil
    · intro h
      cases h
      rfl
  | cons a l ih =>
    rw [List.mapM_cons, except_bind_eq_ok]
    constructor
    · rintro ⟨b, hb, hrest⟩
      obtain ⟨bs, hbs, hpure⟩ := except_bind_eq_ok.1 hrest
      cases hpure
      exact List.Forall₂.cons hb (ih.1 hbs)
    · intro h
      cases h with
      | cons hb hrest =>
        exact ⟨_, hb, except_bind_eq_ok.2 ⟨_, ih.2 hrest, rfl⟩⟩

theorem exists_of_mapM_eq_ok {f : α → Except ε β} {l : List α} {l' : List β}
    (h : l.mapM f = .ok l') {a : α} (ha : a ∈ l) : ∃ b, f a = .ok b := by
  have hall := mapM_eq_ok_iff.1 h
  clear h
  induction hall with
  | nil => simp at ha
  | cons hab _ ih =>
    rcases List.mem_cons.1 ha with rfl | hmem
    · exact ⟨_, hab⟩
    · exact ih hmem

/-! ## Zooming into a component of the state -/

/-- Run `m` on the component `proj s` of the state, and store what it leaves
behind with `inj` — also when it throws. -/
def zoom (proj : σ → τ) (inj : τ → σ → σ) (m : EStateM ε τ α) : EStateM ε σ α := fun s =>
  match m (proj s) with
  | .ok a t => .ok a (inj t s)
  | .error e t => .error e (inj t s)

theorem zoom_of_ok {proj : σ → τ} {inj : τ → σ → σ} {m : EStateM ε τ α} {s : σ} {a : α} {t : τ}
    (h : m (proj s) = .ok a t) : zoom proj inj m s = .ok a (inj t s) := by
  unfold zoom
  rw [h]

theorem zoom_eq_ok {proj : σ → τ} {inj : τ → σ → σ} {m : EStateM ε τ α} {s s' : σ} {a : α} :
    zoom proj inj m s = .ok a s' ↔ ∃ t, m (proj s) = .ok a t ∧ s' = inj t s := by
  unfold zoom
  cases m (proj s) with
  | ok b t => simp [eq_comm]
  | error e t => simp

/-- Run a program on the first component of a pair. -/
def onFst (m : EStateM ε σ α) : EStateM ε (σ × τ) α := zoom Prod.fst (fun s p => (s, p.2)) m

/-- Run a program on the second component of a pair. -/
def onSnd (m : EStateM ε τ α) : EStateM ε (σ × τ) α := zoom Prod.snd (fun t p => (p.1, t)) m

theorem onFst_of_ok {m : EStateM ε σ α} {s s' : σ} {t : τ} {a : α} (h : m s = .ok a s') :
    onFst m (s, t) = .ok a (s', t) := zoom_of_ok h

theorem onFst_of_error {m : EStateM ε σ α} {s s' : σ} {t : τ} {e : ε} (h : m s = .error e s') :
    onFst m (s, t) = .error e (s', t) := by
  unfold onFst zoom
  rw [h]

theorem onSnd_of_ok {m : EStateM ε τ α} {s : σ} {t t' : τ} {a : α} (h : m t = .ok a t') :
    onSnd m (s, t) = .ok a (s, t') := zoom_of_ok h

theorem onSnd_of_error {m : EStateM ε τ α} {s : σ} {t t' : τ} {e : ε} (h : m t = .error e t') :
    onSnd m (s, t) = .error e (s, t') := by
  unfold onSnd zoom
  rw [h]

theorem onFst_eq_ok {m : EStateM ε σ α} {p p' : σ × τ} {a : α} :
    onFst m p = .ok a p' ↔ m p.1 = .ok a p'.1 ∧ p'.2 = p.2 := by
  unfold onFst
  rw [zoom_eq_ok]
  constructor
  · rintro ⟨s, h, rfl⟩
    exact ⟨h, rfl⟩
  · rintro ⟨h, h2⟩
    exact ⟨p'.1, h, Prod.ext rfl h2⟩

theorem onSnd_eq_ok {m : EStateM ε τ α} {p p' : σ × τ} {a : α} :
    onSnd m p = .ok a p' ↔ m p.2 = .ok a p'.2 ∧ p'.1 = p.1 := by
  unfold onSnd
  rw [zoom_eq_ok]
  constructor
  · rintro ⟨t, h, rfl⟩
    exact ⟨h, rfl⟩
  · rintro ⟨h, h1⟩
    exact ⟨p'.2, h, Prod.ext h1 rfl⟩

theorem final_onFst {m : EStateM ε σ α} {p : σ × τ} : final (onFst m p) = (final (m p.1), p.2) := by
  unfold onFst zoom
  cases m p.1 <;> rfl

/-! ## Throwing -/

/-- Started in `s`, the program throws. -/
def Throws (m : EStateM ε σ α) (s : σ) : Prop := ∃ e s', m s = .error e s'

theorem throws_of_error {m : EStateM ε σ α} {s s' : σ} {e : ε} (h : m s = .error e s') :
    Throws m s := ⟨e, s', h⟩

theorem not_throws_of_ok {m : EStateM ε σ α} {s s' : σ} {a : α} (h : m s = .ok a s') :
    ¬ Throws m s := by
  rintro ⟨e, s'', herr⟩
  rw [h] at herr
  cases herr

/-- A sequence throws when its first program does, or the rest from where that returns. -/
theorem throws_bind {m : EStateM ε σ α} {f : α → EStateM ε σ β} {s : σ} :
    Throws (m >>= f) s ↔ Throws m s ∨ ∃ a s', m s = .ok a s' ∧ Throws (f a) s' := by
  unfold Throws
  rw [bind_apply]
  cases m s with
  | ok a s' => simp
  | error e s' => simp

theorem throws_zoom {proj : σ → τ} {inj : τ → σ → σ} {m : EStateM ε τ α} {s : σ} :
    Throws (zoom proj inj m) s ↔ Throws m (proj s) := by
  unfold Throws zoom
  cases m (proj s) with
  | ok a t => simp
  | error e t => simp

/-- Run a program on a local state that is dropped when it throws, and hand out what it
leaves behind when it returns. -/
def within (t : τ) (m : EStateM ε τ α) : EStateM ε σ τ := fun s =>
  match m t with
  | .ok _ t' => .ok t' s
  | .error e _ => .error e s

theorem within_of_ok {t t' : τ} {m : EStateM ε τ α} {a : α} {s : σ} (h : m t = .ok a t') :
    within t m s = .ok t' s := by
  unfold within
  rw [h]

/-! ## Frames -/

/-- However `m` ends, the part `f` of the state is as it was. -/
def Keeps {γ : Type} (f : σ → γ) (m : EStateM ε σ α) : Prop := ∀ s, f (final (m s)) = f s

namespace Keeps

variable {γ δ : Type} {f : σ → γ} {m : EStateM ε σ α}

theorem of_ok (h : Keeps f m) {s s' : σ} {a : α} (hr : m s = .ok a s') : f s' = f s := by
  have := h s
  rwa [hr] at this

theorem pure {a : α} : Keeps f (Pure.pure a : EStateM ε σ α) := fun _ => rfl

theorem throw {e : ε} : Keeps f (throw e : EStateM ε σ α) := fun _ => rfl

theorem get : Keeps f (get : EStateM ε σ σ) := fun _ => rfl

theorem modify {g : σ → σ} (h : ∀ s, f (g s) = f s) : Keeps f (modify g : EStateM ε σ Unit) := h

theorem throwIf {c : Prop} [Decidable c] {e : ε} : Keeps f (throwIf c e : EStateM ε σ Unit) := by
  intro s
  by_cases h : c
  · rw [throwIf_of h, final_error]
  · rw [throwIf_of_not h, final_ok]

theorem lift {x : Except ε α} : Keeps f (lift x : EStateM ε σ α) := by
  intro s
  cases x with
  | ok a => rfl
  | error e => rfl

theorem bind {k : α → EStateM ε σ β} (hm : Keeps f m) (hk : ∀ a, Keeps f (k a)) :
    Keeps f (m >>= k) := by
  intro s
  have h := hm s
  rw [bind_apply]
  cases hr : m s with
  | ok a s' =>
    rw [hr, final_ok] at h
    exact (hk a s').trans h
  | error e s' =>
    rw [hr, final_error] at h
    exact h

theorem forM {k : α → EStateM ε σ Unit} {l : List α} (h : ∀ a ∈ l, Keeps f (k a)) :
    Keeps f (l.forM k) := by
  induction l with
  | nil => exact pure
  | cons a l ih =>
    rw [forM_cons]
    exact (h a List.mem_cons_self).bind fun _ => ih fun b hb => h b (List.mem_cons_of_mem _ hb)

/-- A program on a local state keeps everything. -/
theorem within {t : τ} {m : EStateM ε τ α} : Keeps f (within t m : EStateM ε σ τ) := by
  intro s
  unfold Fallible.within
  cases m t with
  | ok a t' => rfl
  | error e t' => rfl

/-- A program on one component keeps what does not look at it. -/
theorem zoom {proj : σ → τ} {inj : τ → σ → σ} {m : EStateM ε τ α} (h : ∀ t s, f (inj t s) = f s) :
    Keeps f (zoom proj inj m) := by
  intro s
  unfold Fallible.zoom
  cases m (proj s) with
  | ok a t => exact h t s
  | error e t => exact h t s

/-- A program on one component keeps what it keeps of it. -/
theorem zoom_of {proj : σ → τ} {inj : τ → σ → σ} {m : EStateM ε τ α} {g : τ → δ} (hm : Keeps g m)
    (h : ∀ t s, g t = g (proj s) → f (inj t s) = f s) : Keeps f (Fallible.zoom proj inj m) := by
  intro s
  have hg := hm (proj s)
  unfold Fallible.zoom
  cases hr : m (proj s) with
  | ok a t =>
    rw [hr] at hg
    exact h t s hg
  | error e t =>
    rw [hr] at hg
    exact h t s hg

end Keeps

/-! ## Triples -/

/-- Started in a state satisfying `P`, the program returns only with `Q` and
throws only with `E`. -/
def Triple (P : σ → Prop) (m : EStateM ε σ α) (Q : α → σ → Prop) (E : ε → σ → Prop) : Prop :=
  ∀ s, P s → match m s with
    | .ok a s' => Q a s'
    | .error e s' => E e s'

/-- However the program ends, `I` is maintained. -/
abbrev Maintains (I : σ → Prop) (m : EStateM ε σ α) : Prop :=
  Triple I m (fun _ => I) (fun _ => I)

namespace Triple

variable {P P' : σ → Prop} {Q Q' : α → σ → Prop} {E E' : ε → σ → Prop} {m : EStateM ε σ α}

/-- What a triple says of a run that returned. -/
theorem of_ok (h : Triple P m Q E) {s s' : σ} {a : α} (hs : P s) (hr : m s = .ok a s') :
    Q a s' := by
  have := h s hs
  rwa [hr] at this

/-- What a triple says of a run that threw. -/
theorem of_error (h : Triple P m Q E) {s s' : σ} {e : ε} (hs : P s) (hr : m s = .error e s') :
    E e s' := by
  have := h s hs
  rwa [hr] at this

/-- A program that cannot throw from `P` returns. -/
theorem returns (h : Triple P m Q fun _ _ => False) {s : σ} (hs : P s) :
    ∃ a s', m s = .ok a s' ∧ Q a s' := by
  have := h s hs
  cases hr : m s with
  | ok a s' => rw [hr] at this; exact ⟨a, s', rfl, this⟩
  | error e s' => rw [hr] at this; exact this.elim

theorem conseq (h : Triple P m Q E) (hP : ∀ s, P' s → P s) (hQ : ∀ a s, Q a s → Q' a s)
    (hE : ∀ e s, E e s → E' e s) : Triple P' m Q' E' := by
  intro s hs
  have := h s (hP s hs)
  cases hr : m s with
  | ok a s' => rw [hr] at this; exact hQ a s' this
  | error e s' => rw [hr] at this; exact hE e s' this

theorem pure {a : α} (h : ∀ s, P s → Q a s) : Triple P (Pure.pure a : EStateM ε σ α) Q E :=
  fun s hs => h s hs

theorem throw {e : ε} (h : ∀ s, P s → E e s) : Triple P (throw e : EStateM ε σ α) Q E :=
  fun s hs => h s hs

theorem get {Q : σ → σ → Prop} (h : ∀ s, P s → Q s s) :
    Triple P (get : EStateM ε σ σ) Q E :=
  fun s hs => h s hs

theorem modify {f : σ → σ} {Q : Unit → σ → Prop} (h : ∀ s, P s → Q () (f s)) :
    Triple P (modify f : EStateM ε σ Unit) Q E :=
  fun s hs => h s hs

theorem throwIf {c : Prop} [Decidable c] {e : ε} {Q : Unit → σ → Prop}
    (hE : c → ∀ s, P s → E e s) (hQ : ¬ c → ∀ s, P s → Q () s) :
    Triple P (throwIf c e : EStateM ε σ Unit) Q E := by
  intro s hs
  by_cases h : c
  · rw [throwIf_of h]; exact hE h s hs
  · rw [throwIf_of_not h]; exact hQ h s hs

theorem lift {x : Except ε α} (hQ : ∀ a, x = .ok a → ∀ s, P s → Q a s)
    (hE : ∀ e, x = .error e → ∀ s, P s → E e s) : Triple P (lift x : EStateM ε σ α) Q E := by
  intro s hs
  cases x with
  | ok a => exact hQ a rfl s hs
  | error e => exact hE e rfl s hs

theorem bind {f : α → EStateM ε σ β} {R : β → σ → Prop} (hm : Triple P m Q E)
    (hf : ∀ a, Triple (Q a) (f a) R E) : Triple P (m >>= f) R E := by
  intro s hs
  have h := hm s hs
  rw [bind_apply]
  cases hr : m s with
  | ok a s' => rw [hr] at h; exact hf a s' h
  | error e s' => rw [hr] at h; exact h

/-- **The loop rule.**  `I pre` is what holds once the elements `pre` are done. -/
theorem forM {f : α → EStateM ε σ Unit} {I : List α → σ → Prop} {E : ε → σ → Prop} {l : List α}
    (h : ∀ pre a post, l = pre ++ a :: post →
      Triple (I pre) (f a) (fun _ => I (pre ++ [a])) E) :
    Triple (I []) (l.forM f) (fun _ => I l) E := by
  have key : ∀ post pre, l = pre ++ post →
      Triple (I pre) (post.forM f) (fun _ => I (pre ++ post)) E := by
    intro post
    induction post with
    | nil =>
      intro pre _
      rw [List.append_nil]
      exact Triple.pure fun s hs => hs
    | cons a post ih =>
      intro pre hl
      have hrest := ih (pre ++ [a]) (by simpa using hl)
      rw [List.append_assoc] at hrest
      exact (h pre a post hl).bind fun _ => hrest
  simpa using key l [] rfl

/-- A loop whose body keeps `I` keeps `I`. -/
theorem forM_invariant {f : α → EStateM ε σ Unit} {I : σ → Prop} {E : ε → σ → Prop} {l : List α}
    (h : ∀ a ∈ l, Triple I (f a) (fun _ => I) E) : Triple I (l.forM f) (fun _ => I) E :=
  forM (I := fun _ => I) fun pre a post hl => h a (by simp [hl])

/-- A loop in which every round establishes what belongs to its element and keeps what
belongs to the others. -/
theorem forM_each {f : β → EStateM ε σ Unit} {I : σ → Prop} {R : β → σ → Prop}
    {E : ε → σ → Prop} {l : List β}
    (h : ∀ b ∈ l, ∀ s, I s → match f b s with
      | .ok _ s' => I s' ∧ R b s' ∧ ∀ c, c ≠ b → R c s → R c s'
      | .error e s' => E e s') :
    Triple I (l.forM f) (fun _ s => I s ∧ ∀ b ∈ l, R b s) E := by
  have hloop : Triple (fun s => I s ∧ ∀ b ∈ ([] : List β), R b s) (l.forM f)
      (fun _ s => I s ∧ ∀ b ∈ l, R b s) E := by
    refine forM (I := fun pre s => I s ∧ ∀ b ∈ pre, R b s) ?_
    rintro pre b post hl s ⟨hs, hpre⟩
    have hstep := h b (by simp [hl]) s hs
    cases hr : f b s with
    | error e s' =>
      rw [hr] at hstep
      exact hstep
    | ok u s' =>
      rw [hr] at hstep
      obtain ⟨hI, hb, hothers⟩ := hstep
      refine ⟨hI, ?_⟩
      intro c hc
      by_cases hcb : c = b
      · rw [hcb]
        exact hb
      · have hc' : c ∈ pre := by simpa [hcb] using hc
        exact hothers c hcb (hpre c hc')
  exact hloop.conseq (fun s hs => ⟨hs, by simp⟩) (fun _ _ h => h) (fun _ _ h => h)

theorem zoom {proj : σ → τ} {inj : τ → σ → σ} {m : EStateM ε τ α} {P₀ : τ → Prop}
    {Q₀ : α → τ → Prop} {E₀ : ε → τ → Prop} (hm : Triple P₀ m Q₀ E₀) (hP : ∀ s, P s → P₀ (proj s))
    (hQ : ∀ s a t, P s → Q₀ a t → Q a (inj t s)) (hE : ∀ s e t, P s → E₀ e t → E e (inj t s)) :
    Triple P (Fallible.zoom proj inj m) Q E := by
  intro s hs
  have h := hm _ (hP s hs)
  unfold Fallible.zoom
  cases hr : m (proj s) with
  | ok a t =>
    rw [hr] at h
    exact hQ s a t hs h
  | error e t =>
    rw [hr] at h
    exact hE s e t hs h

/-- Reading the state: what follows runs from the state that was read. -/
theorem get_bind {k : σ → EStateM ε σ β} {R : β → σ → Prop}
    (h : ∀ s₀, P s₀ → Triple (fun s => s = s₀) (k s₀) R E) :
    Triple P ((MonadState.get : EStateM ε σ σ) >>= k) R E :=
  fun s hs => h s hs s rfl

/-- From a state that was read, as from any in which `P` holds. -/
theorem of_read (h : Triple P m Q E) {s₀ : σ} (hs₀ : P s₀) : Triple (fun s => s = s₀) m Q E := by
  rintro s rfl
  exact h s hs₀

/-- What a program keeps, it keeps true. -/
theorem of_keeps {γ : Type} {f : σ → γ} {I : γ → Prop} (h : Keeps f m) :
    Maintains (fun s => I (f s)) m := by
  intro s hs
  have hf := h s
  cases hr : m s with
  | ok a s' =>
    rw [hr, final_ok] at hf
    show I (f s')
    rwa [hf]
  | error e s' =>
    rw [hr, final_error] at hf
    show I (f s')
    rwa [hf]

/-- However a run ends. -/
theorem final_of {I : σ → Prop} (h : Triple P m (fun _ => I) (fun _ => I)) {s : σ} (hs : P s) :
    I (final (m s)) := by
  have := h s hs
  cases hr : m s with
  | ok a s' => rwa [hr] at this
  | error e s' => rwa [hr] at this

end Triple

end Fallible
