import SellingInformation.Main.Delivery

/-!
# Whether an honest buyer's numbers are accepted

`genSquares` draws from `[0, n / 2]` with both ends, and `acceptSubset` refuses what is
not below `n / 2`.  Each number is one of the two roots that the seller keeps for its
square, also at the upper end, so nothing else can go wrong:

* `lt_of_acceptSubset` — what `acceptSubset` lets through is below `n / 2`;
* `buyerAccepted_iff` — an honest buyer is accepted exactly when none of the numbers it
  has to show is `n / 2`.
-/

namespace SellingInformation.Main

open CryptoPP Common Fallible SellInformationProtocol

variable {Point : Type} {sha256 : Sha256} {aes : Cipher} {msr : ModularSquareRoot} {p q : ℕ}
  {signature : Bytes} {ρ : SaleRandom} {st : Sale Point}

/-- With the buyer's own numbers, `acceptSubset` chooses one of the two commitments for every
index, `verifyRoot` accepts what is opened there, and the openings of the run return. -/
def BuyerAccepted (sha256 : Sha256) (aes : Cipher) (msr : ModularSquareRoot) (ρ : SaleRandom)
    (st : Sale Point) : Prop :=
  ∃ st₁ cs st₂, commitRoots sha256 aes msr (honestSide aes ρ) ρ st = .ok () st₁ ∧
    st₁.seller.acceptSubset (ρ.subset.toList.zip (ρ.subset.map fun i => ρ.x[i]).toList) = .ok cs ∧
    (∀ c ∈ cs, c = 1 ∨ c = 2) ∧
    (∀ e ∈ ρ.subset.toList.zip cs,
      st₁.buyer.verifyRoot aes e.1 st₁.seller.singleSeller.keysCommits[e.1].m
        (if e.2 = 1 then st₁.seller.d1[e.1].m else st₁.seller.d2[e.1].m) = .ok ()) ∧
    openRoots sha256 (honestSide aes ρ) st₁ = .ok () st₂

theorem lt_of_acceptSubset {s : Seller Point} {x : Vector ℤ L} {subset : Vector (Fin L) (L / 2)}
    {cs : List ℕ}
    (h : s.acceptSubset (subset.toList.zip (subset.map fun i => x[i]).toList) = .ok cs)
    {i : Fin L} (hi : i ∈ subset.toList) : x[i] < s.n / 2 := by
  have hmem : (i, x[i]) ∈ subset.toList.zip (subset.map fun i => x[i]).toList := by
    rw [Vector.toList_map, zip_map_self]
    exact List.mem_map_of_mem hi
  obtain ⟨c, hc⟩ := exists_of_mapM_eq_ok h hmem
  exact (acceptRoot_eq_ok.1 hc).1

/-- An honest buyer is accepted exactly when none of the numbers of its subset is `n / 2`. -/
theorem buyerAccepted_iff (haes : aes.Lawful) (hmsr : msr.Lawful) (hready : Ready sha256 p q signature st)
    (hsubset : ρ.subset.toList.Nodup) (hx : ∀ i : Fin L, 0 ≤ ρ.x[i] ∧ ρ.x[i] ≤ (p * q : ℤ) / 2) :
    BuyerAccepted sha256 aes msr ρ st ↔ ∀ i ∈ ρ.subset.toList, ρ.x[i] ≠ (p * q : ℤ) / 2 := by
  obtain ⟨_, st₁, hcommit, hst₁⟩ :=
    (@commitRoots_ok Point sha256 aes msr p q signature ρ).returns hready
  constructor
  · rintro ⟨st', cs, st₂, hcommit', haccept, -⟩ i hi
    rw [hcommit] at hcommit'
    cases hcommit'
    have hlt := lt_of_acceptSubset haccept hi
    rw [hst₁.sells.n_eq] at hlt
    exact hlt.ne
  · intro hne
    have hsub : ∀ i ∈ ρ.subset.toList, ρ.x[i] < (p * q : ℤ) / 2 :=
      fun i hi => lt_of_le_of_ne (hx i).2 (hne i hi)
    obtain ⟨_, st₂, hopen, -⟩ :=
      (@openRoots_ok Point sha256 aes msr p q signature ρ haes hmsr hsubset hx hsub).returns hst₁
    refine ⟨st₁, _, st₂, hcommit, acceptSubset_ok hmsr hx hst₁ hsub, ?_, ?_, hopen⟩
    · intro c hc
      obtain ⟨i, -, rfl⟩ := List.mem_map.1 hc
      exact (chosen_root hmsr hx hst₁ i).imp And.left And.left
    · intro e he
      rw [zip_map_self] at he
      obtain ⟨i, -, rfl⟩ := List.mem_map.1 he
      have hval : st₁.buyer.x[i] = ρ.x[i] := by rw [hst₁.x_eq]
      rcases chosen_root hmsr hx hst₁ i with ⟨hc, hroot⟩ | ⟨hc, hroot⟩
      · rw [hc, if_pos rfl]
        exact verifyRoot_eq_ok haes (hx i).1 (hroot ▸ hst₁.committed.enc1 i) hval
      · rw [hc, if_neg (by simp)]
        exact verifyRoot_eq_ok haes (hx i).1 (hroot ▸ hst₁.committed.enc2 i) hval

/-- In the sale of fifteen the buyer whose numbers are all one is accepted. -/
theorem buyerAccepted_fifteen : BuyerAccepted (fun _ => Vector.replicate 32 0) Cipher.padding
    searchRoot fifteenRandom readySale := by
  refine (buyerAccepted_iff Cipher.lawful_padding lawful_searchRoot ready_readySale (by decide)
    ?_).2 ?_
  · intro i
    simp [fifteenRandom]
  · intro i _
    simp [fifteenRandom]

/-- The buyer that draws seven, which is half of fifteen, is not. -/
theorem not_buyerAccepted_seven : ¬ BuyerAccepted (fun _ => Vector.replicate 32 0) Cipher.padding
    searchRoot { fifteenRandom with x := Vector.replicate L 7 } readySale := by
  rintro ⟨st₁, cs, st₂, hcommit, haccept, -⟩
  obtain ⟨_, st', hcommit', hst'⟩ := (@commitRoots_ok (ZMod 7) (fun _ => Vector.replicate 32 0)
    Cipher.padding searchRoot 3 5 [] { fifteenRandom with x := Vector.replicate L 7 }).returns
      ready_readySale
  rw [hcommit] at hcommit'
  cases hcommit'
  have hlt := lt_of_acceptSubset haccept
    (show (⟨0, by decide⟩ : Fin L) ∈ fifteenRandom.subset.toList by decide)
  rw [hst'.sells.n_eq] at hlt
  revert hlt
  simp

end SellingInformation.Main
