import Mathlib.Data.List.Count
import SellingInformation.Lib.Schedule
import SellingInformation.Main.Frames

/-!
# The course of a sale

What may happen in a sale, and in which order, as an automaton over the events of the log.
Its state says for every index what is open, and has no value for the key together with both
ciphertexts.  The payment is accepted once everything that is due is open, `T2` only after the
payment and never from a seller that cheats.

* `advance` — the automaton, and `Advances` for what one step of it can be;
* `count_opens` — along an accepted log nothing is opened twice;
* `due_of_paid` — what is open when the payment is accepted;
* `paid_of_taken` — `T2` comes after the payment.
-/

namespace SellingInformation.Main

open CryptoPP Common

/-! ## The automaton -/

/-- What the seller has opened of an index. -/
inductive Opened
  | nothing
  | key
  | keyAndFirst
  | keyAndSecond
  | first
  | both
  deriving DecidableEq, Repr

/-- How far a sale has come. -/
inductive Phase
  | start
  /-- The squares have been sent. -/
  | asked
  /-- The subset has been sent. -/
  | opening
  /-- `T1` has been broadcast. -/
  | paid
  /-- `T2` has been broadcast. -/
  | taken
  /-- The buyer waits for the signature and the time lock. -/
  | recovering
  deriving DecidableEq, Repr

/-- The buyer has paid. -/
def Phase.isPaid : Phase → Bool
  | .paid => true
  | .taken => true
  | .recovering => true
  | _ => false

/-- The state of the automaton. -/
structure Course where
  phase : Phase
  subset : List ℕ
  opened : Fin L → Opened

namespace Course

/-- Nothing has happened. -/
def start : Course := { phase := .start, subset := [], opened := fun _ => .nothing }

/-- More is open of one index. -/
def set (k : Course) (i : Fin L) (o : Opened) : Course :=
  { k with opened := Function.update k.opened i o }

@[simp] theorem set_phase (k : Course) (i : Fin L) (o : Opened) : (k.set i o).phase = k.phase := rfl

@[simp] theorem set_subset (k : Course) (i : Fin L) (o : Opened) :
    (k.set i o).subset = k.subset := rfl

@[simp] theorem set_opened_self (k : Course) (i : Fin L) (o : Opened) :
    (k.set i o).opened i = o := by
  simp [set]

theorem set_opened_of_ne (k : Course) {i j : Fin L} (o : Opened) (h : j ≠ i) :
    (k.set i o).opened j = k.opened j := by
  simp [set, h]

@[simp] theorem set_set (k : Course) (i : Fin L) (o o' : Opened) :
    (k.set i o).set i o' = k.set i o' := by
  simp [set]

/-- What is open of an index is what has to be before the payment: the key and one ciphertext
inside the subset, both ciphertexts outside. -/
def Due (k : Course) (i : Fin L) : Prop :=
  if (i : ℕ) ∈ k.subset then k.opened i = .keyAndFirst ∨ k.opened i = .keyAndSecond
  else k.opened i = .both

instance instDecidableDue (k : Course) (i : Fin L) : Decidable (k.Due i) := by
  unfold Due
  infer_instance

end Course

/-- A step of the automaton, for a seller that cheats or does not. -/
def advance (cheat : Bool) (e : Event) (k : Course) : Option Course :=
  match k.phase, e with
  | .start, .squares _ => some { k with phase := .asked }
  | .asked, .subset indices _ => some { k with phase := .opening, subset := indices.toList }
  | .opening, .openKey i _ =>
    if (i : ℕ) ∈ k.subset ∧ k.opened i = .nothing then some (k.set i .key) else none
  | .opening, .openD1 i _ =>
    if k.opened i = .key then some (k.set i .keyAndFirst)
    else if (i : ℕ) ∉ k.subset ∧ k.opened i = .nothing then some (k.set i .first)
    else none
  | .opening, .openD2 i _ =>
    if k.opened i = .key then some (k.set i .keyAndSecond)
    else if k.opened i = .first then some (k.set i .both)
    else none
  | .opening, .broadcastT1 _ => if ∀ i, k.Due i then some { k with phase := .paid } else none
  | .paid, .broadcastT2 _ => if cheat then none else some { k with phase := .taken }
  | .paid, .startRecovery => if cheat then some { k with phase := .recovering } else none
  | .taken, .startRecovery => some { k with phase := .recovering }
  | _, _ => none

/-- The automaton accepts the log and is left in `k`. -/
def OnCourse (cheat : Bool) (log : List Event) (k : Course) : Prop :=
  Schedule.run (advance cheat) log Course.start = some k

theorem OnCourse.concat {cheat : Bool} {log : List Event} {k k' : Course} {e : Event}
    (h : OnCourse cheat log k) (he : advance cheat e k = some k') :
    OnCourse cheat (log ++ [e]) k' := by
  unfold OnCourse
  rw [Schedule.run_append_singleton, h, Option.bind_some, he]

/-! ## What an accepted log is like -/

/-- Whether an item is among what is open. -/
def Opened.has : Opened → Item → Bool
  | .key, .key => true
  | .keyAndFirst, .key => true
  | .keyAndFirst, .first => true
  | .keyAndSecond, .key => true
  | .keyAndSecond, .second => true
  | .first, .first => true
  | .both, .first => true
  | .both, .second => true
  | _, _ => false

/-- How often a log opens an item of an index. -/
def opens (log : List Event) (i : Fin L) (item : Item) : ℕ :=
  log.countP fun e => e.opens = some (i, item)

theorem opens_concat (log : List Event) (e : Event) (i : Fin L) (item : Item) :
    opens (log ++ [e]) i item = opens log i item + if e.opens = some (i, item) then 1 else 0 := by
  simp [opens, List.countP_append, List.countP_cons]

section
variable {cheat : Bool} {log : List Event} {k k' : Course} {e : Event} {i : Fin L} {item : Item}

/-- What a step of the automaton can be. -/
inductive Advances (cheat : Bool) (k : Course) (e : Event) : Course → Prop
  | squares {y : Vector ℤ L} (at_start : k.phase = .start) (event : e = .squares y) :
      Advances cheat k e { k with phase := .asked }
  | subset {indices : Vector ℕ (L / 2)} {values : Vector ℤ (L / 2)} (at_asked : k.phase = .asked)
      (event : e = .subset indices values) :
      Advances cheat k e { k with phase := .opening, subset := indices.toList }
  /-- One more item is open of one index. -/
  | opens {i : Fin L} {item : Item} {o : Opened} (at_opening : k.phase = .opening)
      (event : e.opens = some (i, item)) (more : ∀ it, (o.has it).toNat =
        ((k.opened i).has it).toNat + if item = it then 1 else 0) :
      Advances cheat k e (k.set i o)
  | pays {t1 : Bytes} (at_opening : k.phase = .opening) (event : e = .broadcastT1 t1)
      (due : ∀ i, k.Due i) : Advances cheat k e { k with phase := .paid }
  | takes {t2 : Bytes} (at_paid : k.phase = .paid) (event : e = .broadcastT2 t2)
      (honest : cheat = false) : Advances cheat k e { k with phase := .taken }
  | recovers (at_last : k.phase = .taken ∨ k.phase = .paid ∧ cheat = true)
      (event : e = .startRecovery) : Advances cheat k e { k with phase := .recovering }

theorem advances_of_advance (h : advance cheat e k = some k') : Advances cheat k e k' := by
  unfold advance at h
  split at h
  · next hk =>
    cases h
    exact .squares hk rfl
  · next hk =>
    cases h
    exact .subset hk rfl
  · next hk =>
    obtain ⟨⟨-, hi⟩, heq⟩ := Option.ite_none_right_eq_some.1 h
    cases heq
    exact .opens hk rfl fun it => by cases it <;> simp [hi, Opened.has]
  · next i _ hk =>
    by_cases hi : k.opened i = .key
    · rw [if_pos hi] at h
      cases h
      exact .opens hk rfl fun it => by cases it <;> simp [hi, Opened.has]
    · rw [if_neg hi] at h
      obtain ⟨⟨-, hi⟩, heq⟩ := Option.ite_none_right_eq_some.1 h
      cases heq
      exact .opens hk rfl fun it => by cases it <;> simp [hi, Opened.has]
  · next i _ hk =>
    by_cases hi : k.opened i = .key
    · rw [if_pos hi] at h
      cases h
      exact .opens hk rfl fun it => by cases it <;> simp [hi, Opened.has]
    · rw [if_neg hi] at h
      obtain ⟨hi, heq⟩ := Option.ite_none_right_eq_some.1 h
      cases heq
      exact .opens hk rfl fun it => by cases it <;> simp [hi, Opened.has]
  · next hk =>
    obtain ⟨hdue, heq⟩ := Option.ite_none_right_eq_some.1 h
    cases heq
    exact .pays hk rfl hdue
  · next hk =>
    obtain ⟨hc, heq⟩ := Option.ite_none_left_eq_some.1 h
    cases heq
    exact .takes hk rfl (Bool.not_eq_true _ ▸ hc)
  · next hk =>
    obtain ⟨hc, heq⟩ := Option.ite_none_right_eq_some.1 h
    cases heq
    exact .recovers (Or.inr ⟨hk, hc⟩) rfl
  · next hk =>
    cases h
    exact .recovers (Or.inl hk) rfl
  · cases h

/-- The automaton notes what an event opens. -/
theorem Advances.has (h : Advances cheat k e k') : ((k'.opened i).has item).toNat =
    ((k.opened i).has item).toNat + if e.opens = some (i, item) then 1 else 0 := by
  cases h with
  | squares _ event => simp [event, Event.opens]
  | subset _ event => simp [event, Event.opens]
  | @opens j it o _ event more =>
    rw [event]
    by_cases hij : i = j
    · subst hij
      simp [more item]
    · rw [Course.set_opened_of_ne _ _ hij]
      simp [Ne.symm hij]
  | pays _ event => simp [event, Event.opens]
  | takes _ event => simp [event, Event.opens]
  | recovers _ event => simp [event, Event.opens]

/-- Along an accepted log an item is opened once or not at all. -/
theorem count_opens (h : OnCourse cheat log k) (i : Fin L) (item : Item) :
    opens log i item = ((k.opened i).has item).toNat := by
  refine Schedule.run_invariant (I := fun log (k : Course) =>
    opens log i item = ((k.opened i).has item).toNat) h rfl ?_
  intro log e k k' ih he
  rw [opens_concat, (advances_of_advance he).has, ih]

/-- Once the subset has been sent, the automaton has noted it. -/
theorem subset_noted (h : OnCourse cheat log k) (hk : k.phase ≠ .start ∧ k.phase ≠ .asked) :
    ∃ indices values, Event.subset indices values ∈ log ∧ k.subset = indices.toList := by
  refine Schedule.run_invariant (I := fun log (k : Course) => k.phase ≠ .start ∧ k.phase ≠ .asked →
    ∃ indices values, Event.subset indices values ∈ log ∧ k.subset = indices.toList) h
      (fun hne => absurd rfl hne.1) ?_ hk
  intro log e k k' ih he hk'
  have hold : k.phase ≠ .start ∧ k.phase ≠ .asked → k'.subset = k.subset →
      ∃ indices values, Event.subset indices values ∈ log ++ [e] ∧ k'.subset = indices.toList := by
    intro hk hsame
    obtain ⟨indices, values, hmem, hsubset⟩ := ih hk
    exact ⟨indices, values, List.mem_append_left _ hmem, hsame.trans hsubset⟩
  cases advances_of_advance he with
  | squares => exact absurd rfl hk'.2
  | @subset indices values _ event => exact ⟨indices, values, by simp [event], rfl⟩
  | opens at_opening => exact hold (by simp [at_opening]) rfl
  | pays at_opening => exact hold (by simp [at_opening]) rfl
  | takes at_paid => exact hold (by simp [at_paid]) rfl
  | recovers at_last => exact hold (by rcases at_last with h | ⟨h, -⟩ <;> simp [h]) rfl

/-- What is due of an index, by the number of times its items have been opened. -/
theorem opens_of_due (h : OnCourse cheat log k) (hdue : k.Due i) :
    if (i : ℕ) ∈ k.subset
    then opens log i .key = 1 ∧ opens log i .first + opens log i .second = 1
    else opens log i .key = 0 ∧ opens log i .first = 1 ∧ opens log i .second = 1 := by
  simp only [count_opens h]
  unfold Course.Due at hdue
  by_cases hi : (i : ℕ) ∈ k.subset
  · rw [if_pos hi] at hdue ⊢
    rcases hdue with h | h <;> simp [h, Opened.has]
  · rw [if_neg hi] at hdue ⊢
    simp [hdue, Opened.has]

/-- After the payment nothing more is opened. -/
theorem opened_of_paid (h : Schedule.run (advance cheat) log k = some k')
    (hk : k.phase.isPaid = true) : k'.opened = k.opened := by
  refine (Schedule.run_invariant (I := fun _ (k' : Course) => k'.opened = k.opened ∧
    k'.phase.isPaid = true) h ⟨rfl, hk⟩ ?_).1
  rintro _ e k1 k2 ⟨hsame, hpaid⟩ he
  cases advances_of_advance he with
  | squares at_start => simp [at_start, Phase.isPaid] at hpaid
  | subset at_asked => simp [at_asked, Phase.isPaid] at hpaid
  | opens at_opening => simp [at_opening, Phase.isPaid] at hpaid
  | pays at_opening => simp [at_opening, Phase.isPaid] at hpaid
  | takes => exact ⟨hsame, rfl⟩
  | recovers => exact ⟨hsame, rfl⟩

/-- Once the buyer has paid, `T1` is in the log. -/
theorem paid_noted (h : OnCourse cheat log k) (hk : k.phase.isPaid = true) :
    ∃ t1, Event.broadcastT1 t1 ∈ log := by
  refine Schedule.run_invariant (I := fun log (k : Course) => k.phase.isPaid = true →
    ∃ t1, Event.broadcastT1 t1 ∈ log) h (fun hno => nomatch hno) ?_ hk
  intro log e k k' ih he hk'
  have hold : k.phase.isPaid = true → ∃ t1, Event.broadcastT1 t1 ∈ log ++ [e] := fun hk => by
    obtain ⟨t1, hmem⟩ := ih hk
    exact ⟨t1, List.mem_append_left _ hmem⟩
  cases advances_of_advance he with
  | squares => simp [Phase.isPaid] at hk'
  | subset => simp [Phase.isPaid] at hk'
  | opens at_opening => simp [at_opening, Phase.isPaid] at hk'
  | @pays t1 _ event => exact ⟨t1, by simp [event]⟩
  | takes at_paid => exact hold (by simp [at_paid, Phase.isPaid])
  | recovers at_last => exact hold (by rcases at_last with h | ⟨h, -⟩ <;> simp [h, Phase.isPaid])

/-- The step of the automaton at one event of an accepted log. -/
theorem OnCourse.split {post : List Event} (h : OnCourse cheat (log ++ e :: post) k) :
    ∃ k0 k1, OnCourse cheat log k0 ∧ Advances cheat k0 e k1 ∧
      Schedule.run (advance cheat) post k1 = some k := by
  unfold OnCourse at h
  rw [Schedule.run_append] at h
  obtain ⟨k0, hk0, hpost⟩ := Option.bind_eq_some_iff.1 h
  obtain ⟨k1, hstep, hrest⟩ := Option.bind_eq_some_iff.1 hpost
  exact ⟨k0, k1, hk0, advances_of_advance hstep, hrest⟩

/-- When the payment is accepted, everything that is due is open, and stays all that is. -/
theorem due_of_paid {t1 : Bytes} {post : List Event}
    (h : OnCourse cheat (log ++ Event.broadcastT1 t1 :: post) k) :
    ∃ k0, OnCourse cheat log k0 ∧ k0.phase = .opening ∧ (∀ i, k0.Due i) ∧ k.opened = k0.opened := by
  obtain ⟨k0, k1, hk0, hstep, hrest⟩ := h.split
  cases hstep with
  | squares _ event => cases event
  | subset _ event => cases event
  | opens _ event => cases event
  | takes _ event => cases event
  | recovers _ event => cases event
  | pays at_opening _ due =>
    have hsame := opened_of_paid hrest rfl
    exact ⟨k0, hk0, at_opening, due, hsame⟩

/-- `T2` is accepted after the payment, from a seller that does not cheat. -/
theorem paid_of_taken {t2 : Bytes} {post : List Event}
    (h : OnCourse cheat (log ++ Event.broadcastT2 t2 :: post) k) :
    cheat = false ∧ ∃ t1, Event.broadcastT1 t1 ∈ log := by
  obtain ⟨k0, k1, hk0, hstep, -⟩ := h.split
  cases hstep with
  | squares _ event => cases event
  | subset _ event => cases event
  | opens _ event => cases event
  | pays _ event => cases event
  | recovers _ event => cases event
  | takes at_paid _ honest => exact ⟨honest, paid_noted hk0 (by simp [at_paid, Phase.isPaid])⟩

end

end SellingInformation.Main
