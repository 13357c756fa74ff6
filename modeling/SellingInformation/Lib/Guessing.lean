import Mathlib.Algebra.BigOperators.Ring.Finset
import Mathlib.Algebra.Group.Action.Defs
import Mathlib.Algebra.Order.BigOperators.Group.Finset
import Mathlib.Data.Fintype.BigOperators
import Mathlib.Data.Fintype.Perm
import Mathlib.Data.Set.Card
import Mathlib.Tactic.Ring

/-!
# Guessing the bits of a random half

A verifier draws a bit for every index and a permutation of the indices, and looks at those
indices that the permutation puts into a fixed half.  A prover has settled beforehand which
indices are good, that is, pass with either bit, and for each of the others the one bit that it
can pass with.

* `card_covers_mul_le` — each index that has to be looked at halves the permutations;
* `card_hidden_mul_le` — to have all good indices looked at and none of the bits wrong costs one
  factor two for each index of the half;
* `card_missed_mul_le` — an index that is not good is left out, with none of the bits wrong, for
  at most half of the draws.
-/

namespace Guessing

open Finset

variable {ι : Type}

/-- A bit for each index, and a permutation of the indices. -/
abbrev Draw (ι : Type) := (ι → Bool) × Equiv.Perm ι

/-- The indices that the permutation puts into the half. -/
def chosen (half : Finset ι) (σ : Equiv.Perm ι) : Finset ι := half.map σ.toEmbedding

section
variable {half : Finset ι} {σ τ : Equiv.Perm ι} {i : ι}

theorem mem_chosen : i ∈ chosen half σ ↔ σ.symm i ∈ half := by
  rw [chosen, mem_map_equiv]

theorem card_chosen : (chosen half σ).card = half.card := card_map _

theorem mem_chosen_mul : i ∈ chosen half (τ * σ) ↔ τ.symm i ∈ chosen half σ := by
  rw [mem_chosen, mem_chosen]
  rfl

end

variable [Fintype ι] [DecidableEq ι]

/-- Half of the bits agree at each index. -/
theorem card_agree (s : Finset ι) (f : ι → Bool) :
    2 ^ s.card * #{b : ι → Bool | ∀ i ∈ s, b i = f i} = 2 ^ Fintype.card ι := by
  have hpi : ({b : ι → Bool | ∀ i ∈ s, b i = f i} : Finset (ι → Bool)) =
      Fintype.piFinset fun i => if i ∈ s then {f i} else univ := by
    ext b
    simp only [mem_filter, mem_univ, true_and, Fintype.mem_piFinset]
    refine forall_congr' fun i => ?_
    by_cases hi : i ∈ s <;> simp [hi]
  have hcard : ∀ i, (if i ∈ s then ({f i} : Finset Bool) else univ).card = if i ∈ s then 1 else 2 := by
    intro i
    by_cases hi : i ∈ s <;> simp [hi]
  have hpow : 2 ^ s.card = ∏ i, if i ∈ s then 2 else 1 := by
    rw [prod_ite_mem, univ_inter, prod_const]
  rw [hpi, Fintype.card_piFinset, hpow, ← prod_mul_distrib]
  have htwo : ∀ i, (if i ∈ s then 2 else 1) *
      (if i ∈ s then ({f i} : Finset Bool) else univ).card = 2 := by
    intro i
    rw [hcard]
    by_cases hi : i ∈ s <;> simp [hi]
  rw [prod_congr rfl fun i _ => htwo i, prod_const, card_univ]

/-! ## The permutations -/

/-- How many permutations put all of `s` into the half. -/
def covers (half s : Finset ι) : ℕ := #{σ : Equiv.Perm ι | s ⊆ chosen half σ}

section
variable {half s : Finset ι} {a c : ι}

/-- Outside `s`, it does not matter which index has to be looked at too. -/
theorem covers_insert_swap (ha : a ∉ s) (hc : c ∉ s) :
    covers half (insert a s) = covers half (insert c s) := by
  have hmem : ∀ {a c : ι}, a ∉ s → c ∉ s → ∀ σ : Equiv.Perm ι, insert a s ⊆ chosen half σ →
      insert c s ⊆ chosen half (Equiv.swap a c * σ) := by
    intro a c ha hc σ h i hi
    rw [mem_chosen_mul, Equiv.symm_swap]
    rcases mem_insert.1 hi with rfl | hs
    · rw [Equiv.swap_apply_right]
      exact h (mem_insert_self _ _)
    · have hia : i ≠ a := by
        rintro rfl
        exact ha hs
      have hic : i ≠ c := by
        rintro rfl
        exact hc hs
      rw [Equiv.swap_apply_of_ne_of_ne hia hic]
      exact h (mem_insert_of_mem hs)
  refine card_bij' (fun σ _ => Equiv.swap a c * σ) (fun σ _ => Equiv.swap a c * σ) ?_ ?_ ?_ ?_
  · intro σ hσ
    exact mem_filter.2 ⟨mem_univ _, hmem ha hc σ (mem_filter.1 hσ).2⟩
  · intro σ hσ
    rw [Equiv.swap_comm]
    exact mem_filter.2 ⟨mem_univ _, hmem hc ha σ (mem_filter.1 hσ).2⟩
  · intro σ _
    rw [← mul_assoc, Equiv.swap_mul_self, one_mul]
  · intro σ _
    rw [← mul_assoc, Equiv.swap_mul_self, one_mul]

/-- Counting, for the permutations that put `s` into the half, what else they put there. -/
theorem card_mul_covers_insert (ha : a ∉ s) :
    (Fintype.card ι - s.card) * covers half (insert a s) =
      (half.card - s.card) * covers half s := by
  have hsum : ∑ c ∈ sᶜ, covers half (insert c s) =
      (Fintype.card ι - s.card) * covers half (insert a s) := by
    rw [sum_congr rfl fun c hc => covers_insert_swap (mem_compl.1 hc) ha, sum_const, card_compl,
      smul_eq_mul]
  have hinner : ∀ σ : Equiv.Perm ι, s ⊆ chosen half σ →
      #{c ∈ sᶜ | insert c s ⊆ chosen half σ} = half.card - s.card := by
    intro σ hσ
    have heq : ({c ∈ sᶜ | insert c s ⊆ chosen half σ} : Finset ι) = chosen half σ \ s := by
      ext c
      simp only [mem_filter, mem_compl, insert_subset_iff, mem_sdiff]
      tauto
    rw [heq, card_sdiff_of_subset hσ, card_chosen]
  have hcovers : ∀ c, covers half (insert c s) =
      ∑ σ : Equiv.Perm ι with s ⊆ chosen half σ, if insert c s ⊆ chosen half σ then 1 else 0 := by
    intro c
    rw [covers, card_filter, sum_filter]
    refine sum_congr rfl fun σ _ => ?_
    by_cases hσ : s ⊆ chosen half σ
    · rw [if_pos hσ]
    · rw [if_neg hσ, if_neg fun h => hσ ((subset_insert c s).trans h)]
  rw [← hsum, sum_congr rfl fun c _ => hcovers c, sum_comm]
  have hconst : ∀ σ ∈ ({σ : Equiv.Perm ι | s ⊆ chosen half σ} : Finset (Equiv.Perm ι)),
      (∑ c ∈ sᶜ, if insert c s ⊆ chosen half σ then 1 else 0) = half.card - s.card := by
    intro σ hσ
    rw [← card_filter]
    exact hinner σ (mem_filter.1 hσ).2
  rw [sum_congr rfl hconst, sum_const, smul_eq_mul, mul_comm, covers]

/-- Each index that has to be looked at halves the permutations. -/
theorem card_covers_mul_le (hhalf : 2 * half.card ≤ Fintype.card ι) (s : Finset ι) :
    2 ^ s.card * covers half s ≤ Fintype.card (Equiv.Perm ι) := by
  induction s using Finset.induction with
  | empty =>
    rw [card_empty, pow_zero, one_mul, covers]
    exact card_le_univ _
  | insert a s ha ih =>
    have hlt : s.card < Fintype.card ι := card_lt_univ_of_notMem ha
    have htwo : 2 * covers half (insert a s) ≤ covers half s := by
      refine Nat.le_of_mul_le_mul_left ?_ (Nat.sub_pos_of_lt hlt)
      calc (Fintype.card ι - s.card) * (2 * covers half (insert a s))
          = 2 * ((Fintype.card ι - s.card) * covers half (insert a s)) := by ring
        _ = (2 * (half.card - s.card)) * covers half s := by
          rw [card_mul_covers_insert ha, mul_assoc]
        _ ≤ (Fintype.card ι - s.card) * covers half s := Nat.mul_le_mul_right _ (by omega)
    calc 2 ^ (insert a s).card * covers half (insert a s)
        = 2 ^ s.card * (2 * covers half (insert a s)) := by
          rw [card_insert_of_notMem ha, pow_succ, mul_assoc]
      _ ≤ 2 ^ s.card * covers half s := Nat.mul_le_mul_left _ htwo
      _ ≤ Fintype.card (Equiv.Perm ι) := ih

end

/-! ## The draws -/

section
variable {half : Finset ι}

/-- The draws, permutation by permutation. -/
theorem card_draws (P : Draw ι → Prop) [DecidablePred P] :
    #{d : Draw ι | P d} = ∑ σ : Equiv.Perm ι, #{b : ι → Bool | P (b, σ)} := by
  rw [card_filter, Fintype.sum_prod_type_right]
  exact sum_congr rfl fun σ _ => (card_filter _ _).symm

/-- A bound on what has a property bounds what is in a set of such. -/
theorem mul_ncard_le {α : Type} [Fintype α] {P : α → Prop} {_ : DecidablePred P} {S : Set α} {k N : ℕ}
    (h : k * #{a | P a} ≤ N) (hS : ∀ a ∈ S, P a) : k * S.ncard ≤ N := by
  refine (Nat.mul_le_mul_left k ?_).trans h
  rw [← Set.ncard_coe_finset]
  refine Set.ncard_le_ncard (fun a ha => ?_) (finite_toSet _)
  simpa using hS a ha

/-- The other way round, for a set that has all of them. -/
theorem le_mul_ncard {α : Type} [Fintype α] {P : α → Prop} {_ : DecidablePred P} {S : Set α} {k N : ℕ}
    (h : N ≤ k * #{a | P a}) (hS : ∀ a, P a → a ∈ S) : N ≤ k * S.ncard := by
  refine h.trans (Nat.mul_le_mul_left k ?_)
  rw [← Set.ncard_coe_finset]
  refine Set.ncard_le_ncard (fun a ha => hS a ?_) S.toFinite
  simpa using ha

theorem card_draw : Fintype.card (Draw ι) = Fintype.card (Equiv.Perm ι) * 2 ^ Fintype.card ι := by
  rw [Fintype.card_prod, Fintype.card_fun, Fintype.card_bool, mul_comm]

/-- **Hidden.**  All good indices are looked at, and the other bits are the ones that pass. -/
theorem card_hidden_mul_le (hhalf : 2 * half.card ≤ Fintype.card ι) (good : Finset ι)
    (f : ι → Bool) :
    2 ^ half.card * #{d : Draw ι | good ⊆ chosen half d.2 ∧
      ∀ i ∈ chosen half d.2 \ good, d.1 i = f i} ≤ Fintype.card (Draw ι) := by
  have hfiber : ∀ σ : Equiv.Perm ι, 2 ^ half.card * #{b : ι → Bool | good ⊆ chosen half σ ∧
      ∀ i ∈ chosen half σ \ good, b i = f i} =
        if good ⊆ chosen half σ then 2 ^ good.card * 2 ^ Fintype.card ι else 0 := by
    intro σ
    by_cases hσ : good ⊆ chosen half σ
    · have hcard : half.card = good.card + (chosen half σ \ good).card := by
        have hle := card_le_card hσ
        rw [card_sdiff_of_subset hσ, card_chosen] at *
        omega
      simp only [hσ, true_and, if_true]
      rw [hcard, pow_add, mul_assoc, card_agree]
    · simp [hσ]
  rw [card_draws, mul_sum, sum_congr rfl fun σ _ => hfiber σ, ← sum_filter, sum_const, smul_eq_mul,
    card_draw, ← mul_assoc]
  refine Nat.mul_le_mul_right _ ?_
  rw [mul_comm]
  exact card_covers_mul_le hhalf good

/-- **Missed.**  An index that is not good is left out, and the other bits are the ones that
pass. -/
theorem card_missed_mul_le (τ : Equiv.Perm ι) (hτ : ∀ i, τ i ∈ half ↔ i ∉ half) (good : Finset ι)
    (f : ι → Bool) :
    2 * #{d : Draw ι | ¬ goodᶜ ⊆ chosen half d.2 ∧
      ∀ i ∈ chosen half d.2 \ good, d.1 i = f i} ≤ Fintype.card (Draw ι) := by
  let count (σ : Equiv.Perm ι) : ℕ := #{b : ι → Bool | ¬ goodᶜ ⊆ chosen half σ ∧
    ∀ i ∈ chosen half σ \ good, b i = f i}
  have hother : ∀ σ i, i ∈ chosen half (σ * τ) ↔ i ∉ chosen half σ := by
    intro σ i
    have h := hτ (τ.symm (σ.symm i))
    rw [Equiv.apply_symm_apply] at h
    rw [mem_chosen, mem_chosen, h, not_not]
    rfl
  have hzero : ∀ σ, goodᶜ ⊆ chosen half σ → count σ = 0 := by
    intro σ hσ
    simp [count, hσ]
  have hle : ∀ σ, count σ ≤ 2 ^ Fintype.card ι := by
    intro σ
    have hcard : Fintype.card (ι → Bool) = 2 ^ Fintype.card ι := by
      rw [Fintype.card_fun, Fintype.card_bool]
    exact (card_le_univ _).trans hcard.le
  have hguess : ∀ σ i, i ∈ chosen half σ → i ∉ good → 2 * count σ ≤ 2 ^ Fintype.card ι := by
    intro σ i hi hgood
    have hsub : count σ ≤ #{b : ι → Bool | ∀ j ∈ ({i} : Finset ι), b j = f j} := by
      refine card_le_card fun b hb => ?_
      have hb' := (mem_filter.1 hb).2.2 i (mem_sdiff.2 ⟨hi, hgood⟩)
      simpa using hb'
    have hone := card_agree {i} f
    rw [card_singleton, pow_one] at hone
    exact (Nat.mul_le_mul_left 2 hsub).trans hone.le
  have hpair : ∀ σ, count σ + count (σ * τ) ≤ 2 ^ Fintype.card ι := by
    intro σ
    by_cases h1 : goodᶜ ⊆ chosen half σ
    · rw [hzero σ h1, zero_add]
      exact hle _
    by_cases h2 : goodᶜ ⊆ chosen half (σ * τ)
    · rw [hzero _ h2, add_zero]
      exact hle _
    -- each of the two halves has an index that is not good
    obtain ⟨i, hi, hiσ⟩ := not_subset.1 h1
    obtain ⟨j, hj, hjσ⟩ := not_subset.1 h2
    have hji : j ∈ chosen half σ := by
      by_contra hno
      exact hjσ ((hother σ j).2 hno)
    have hleft := hguess σ j hji (mem_compl.1 hj)
    have hright := hguess (σ * τ) i ((hother σ i).2 hiσ) (mem_compl.1 hi)
    omega
  rw [card_draws, card_draw]
  have hswap : ∑ σ, count (σ * τ) = ∑ σ, count σ := Equiv.sum_comp (Equiv.mulRight τ) count
  calc 2 * ∑ σ, count σ = ∑ σ, (count σ + count (σ * τ)) := by
        rw [sum_add_distrib, hswap, two_mul]
    _ ≤ ∑ _σ : Equiv.Perm ι, 2 ^ Fintype.card ι := sum_le_sum fun σ _ => hpair σ
    _ = Fintype.card (Equiv.Perm ι) * 2 ^ Fintype.card ι := by
        rw [sum_const, card_univ, smul_eq_mul]

/-- For half of the draws, a given index is not looked at. -/
theorem two_mul_card_left_out (hhalf : 2 * half.card = Fintype.card ι) (i : ι) :
    2 * #{d : Draw ι | i ∉ chosen half d.2} = Fintype.card (Draw ι) := by
  have hpos : 0 < Fintype.card ι := Fintype.card_pos_iff.2 ⟨i⟩
  have hempty : covers half ∅ = Fintype.card (Equiv.Perm ι) := by
    simp [covers, card_univ]
  have hin : 2 * #{σ : Equiv.Perm ι | i ∈ chosen half σ} = Fintype.card (Equiv.Perm ι) := by
    have hcount := @card_mul_covers_insert ι _ _ half ∅ i (notMem_empty i)
    rw [hempty, card_empty, Nat.sub_zero, Nat.sub_zero, ← hhalf, mul_assoc,
      mul_left_comm] at hcount
    have hone := Nat.eq_of_mul_eq_mul_left (by omega) hcount
    simpa [covers] using hone
  have hout : 2 * #{σ : Equiv.Perm ι | i ∉ chosen half σ} = Fintype.card (Equiv.Perm ι) := by
    have hsum := card_filter_add_card_filter_not (s := (univ : Finset (Equiv.Perm ι)))
      (fun σ => i ∈ chosen half σ)
    rw [card_univ] at hsum
    omega
  have hfiber : ∀ σ : Equiv.Perm ι, #{b : ι → Bool | i ∉ chosen half ((b, σ) : Draw ι).2} =
      if i ∉ chosen half σ then 2 ^ Fintype.card ι else 0 := by
    intro σ
    by_cases hσ : i ∈ chosen half σ
    · simp [hσ]
    · simp [hσ, card_univ]
  rw [card_draws, sum_congr rfl fun σ _ => hfiber σ, ← sum_filter, sum_const, smul_eq_mul,
    card_draw, ← mul_assoc, hout]

/-- What happens whenever a given index is not looked at, happens for half of the draws. -/
theorem card_draw_le_of_left_out (hhalf : 2 * half.card = Fintype.card ι) (i : ι) {S : Set (Draw ι)}
    (hS : ∀ d : Draw ι, i ∉ chosen half d.2 → d ∈ S) : Fintype.card (Draw ι) ≤ 2 * S.ncard :=
  le_mul_ncard (two_mul_card_left_out hhalf i).ge hS

end

end Guessing
