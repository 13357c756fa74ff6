import Mathlib.Data.Int.Notation
import Mathlib.Data.List.FinRange
import SellingInformation.Lib.Fallible

/-!
# Exceptions and protocols

`protocol.h` declares the exception every sub-protocol throws and the interface
`Protocol<A, B>` of a two-party protocol: `init`, `exec` and `open`, each of
which changes the two parties in place and may throw.  The other modules of the
repository have exception classes of their own; `Exn` has one constructor for
each of them, with the text it is thrown with.

Two constructors stand for runs that C++ gives no meaning to: `outOfBounds` for
reading or writing past the end of a vector, and `diverges` for a loop that is
never left.  A model that returns one of them makes no promise about the code.
-/

namespace SellingInformation

/-- What a run may be left by other than a normal return. -/
inductive Exn
  /-- `ProtocolException` of `protocol.h`. -/
  | protocolException (msg : String)
  /-- `timed_commitment::ProtocolException`. -/
  | timedProtocolException (msg : String)
  /-- `timed_commitment::SanityException`. -/
  | sanityException (msg : String)
  /-- `PaillierException`. -/
  | paillierException (msg : String)
  /-- A bare `std::exception`. -/
  | stdException
  /-- `Integer::DivideByZero`, thrown by the big integer library. -/
  | divideByZero
  /-- `InvalidCiphertext`, thrown by the block cipher library. -/
  | invalidCiphertext
  /-- An index past the end of a vector: undefined behaviour. -/
  | outOfBounds
  /-- A loop that is never left. -/
  | diverges
  deriving DecidableEq, Repr

/-- A program over the state `σ` that may throw. -/
abbrev Proc (σ α : Type) := EStateM Exn σ α

/-- `xs[i]`: reading past the end is undefined. -/
def elemAt {α : Type} (xs : List α) (i : ℕ) : Except Exn α :=
  match xs[i]? with
  | some x => .ok x
  | none => .error .outOfBounds

theorem elemAt_eq_ok {α : Type} {xs : List α} {i : ℕ} {x : α} :
    elemAt xs i = .ok x ↔ xs[i]? = some x := by
  unfold elemAt
  cases h : xs[i]? <;> simp

theorem elemAt_of_le {α : Type} {xs : List α} {i : ℕ} (h : xs.length ≤ i) :
    elemAt xs i = .error .outOfBounds := by
  rw [elemAt, List.getElem?_eq_none h]

/-- An index below the size is read. -/
theorem avoids_elemAt {α : Type} {xs : List α} {i : ℕ} (h : i < xs.length) :
    Fallible.Avoids .outOfBounds (elemAt xs i) := by
  rw [elemAt, List.getElem?_eq_getElem h]
  exact Fallible.Avoids.ok _

/-- `xs[i]` for an index of type `int`. -/
def elemAtInt {α : Type} (xs : List α) (i : ℤ) : Except Exn α :=
  if i < 0 then .error .outOfBounds else elemAt xs i.toNat

/-- `xs[i]` of an array, for an index that is in range by its type. -/
instance instGetElemFin {α : Type} {n : ℕ} : GetElem (Vector α n) (Fin n) α fun _ _ => True where
  getElem xs i _ := xs.get i

@[simp] theorem getElem_val {α : Type} {n : ℕ} (xs : Vector α n) (i : Fin n) :
    xs[i] = xs[(i : ℕ)] := rfl

/-- Before it comes to the index `k`, a loop over all indices has done the smaller ones. -/
theorem finRange_split {n : ℕ} {pre post : List (Fin n)} {k : Fin n}
    (h : List.finRange n = pre ++ k :: post) :
    (∀ j, j ∈ pre ↔ j < k) ∧ ∀ j ∈ post, k < j := by
  have hsorted := List.pairwise_lt_finRange n
  rw [h, List.pairwise_append, List.pairwise_cons] at hsorted
  obtain ⟨-, ⟨hpost, -⟩, hpre⟩ := hsorted
  refine ⟨fun j => ⟨fun hj => hpre j hj k List.mem_cons_self, fun hjk => ?_⟩, hpost⟩
  have hmem := List.mem_finRange j
  rw [h, List.mem_append, List.mem_cons] at hmem
  rcases hmem with hj | rfl | hj
  · exact hj
  · exact absurd hjk (Nat.lt_irrefl _)
  · exact absurd hjk (Nat.lt_asymm (hpost j hj))

/-- `Protocol<A, B>`: a two-party protocol, as three programs over the pair of
parties. -/
structure Protocol (A B : Type) where
  init : Proc (A × B) Unit
  exec : Proc (A × B) Unit
  «open» : Proc (A × B) Unit

end SellingInformation
