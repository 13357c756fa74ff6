import SellingInformation.Lib.Projection
import SellingInformation.Main.Delivery
import SellingInformation.Main.Frames

/-!
# The delivery with any seller

What `exec` does between cut and choose and the payment, where the seller is a parameter as the
buyer is one: a state of its own, and what it sends when it is its turn.  The buyer stores what it
is sent and checks it, as the source does.

* `SellerSide` — a seller; `honestSeller` is the one of the source;
* `deliverWith` — the part of `exec`, between any seller and any buyer;
* `deliver_projects` — with the seller of the source it is `deliver`, up to the log.
-/

namespace SellingInformation.Main

open CryptoPP Common Fallible

variable {Point σ : Type}

/-- What the seller does when it is its turn: it answers the squares, sends the hashes of its
commitments, says which ciphertexts it will open for the subset, and opens. -/
structure SellerSide (σ : Type) where
  squares : Vector ℤ L → Proc σ Unit
  commit1 : Fin L → Proc σ Bytes32
  commit2 : Fin L → Proc σ Bytes32
  subset : List (Fin L × ℤ) → Proc σ (Vector ℕ (L / 2))
  openKey : Fin L → Proc σ ShaCommitment.Sender
  openD1 : Fin L → Proc σ ShaCommitment.Sender
  openD2 : Fin L → Proc σ ShaCommitment.Sender

/-! ## The receivers -/

section
variable {α : Type}

/-- Run a program on the receiver of the key of an index. -/
def Buyer.onKey (i : Fin L) (m : Proc ShaCommitment.Receiver α) : Proc (Buyer Point) α :=
  zoom (fun b => b.singleBuyer.keysCommits[i])
    (fun r b => { b with singleBuyer := { b.singleBuyer with
      keysCommits := b.singleBuyer.keysCommits.set i r i.isLt } }) m

/-- Run a program on the receiver of the first ciphertext of an index. -/
def Buyer.onD1 (i : Fin L) (m : Proc ShaCommitment.Receiver α) : Proc (Buyer Point) α :=
  zoom (fun b => b.d1[i]) (fun r b => { b with d1 := b.d1.set i r i.isLt }) m

/-- Run a program on the receiver of the second ciphertext of an index. -/
def Buyer.onD2 (i : Fin L) (m : Proc ShaCommitment.Receiver α) : Proc (Buyer Point) α :=
  zoom (fun b => b.d2[i]) (fun r b => { b with d2 := b.d2.set i r i.isLt }) m

/-- One of these three. -/
def Buyer.onItem (item : Item) (i : Fin L) (m : Proc ShaCommitment.Receiver α) :
    Proc (Buyer Point) α :=
  match item with
  | .key => Buyer.onKey i m
  | .first => Buyer.onD1 i m
  | .second => Buyer.onD2 i m

theorem Buyer.onItem_eq_zoom (item : Item) (i : Fin L) (m : Proc ShaCommitment.Receiver α) :
    (Buyer.onItem item i m : Proc (Buyer Point) α) =
      zoom (fun b => item.receiver b i) (fun r b => item.setReceiver i r b) m := by
  cases item <;> rfl

end

/-- `ShaCommitment::open` for the receiver, with what the sender opens. -/
def receive (sha256 : Sha256) (s : ShaCommitment.Sender) : Proc ShaCommitment.Receiver Unit :=
  zoom (fun r => (s, r)) (fun t _ => t.2) (ShaCommitment.open sha256)

/-- What `ShaCommitment::exec` does to the receiver. -/
def accept (com : Bytes32) : Proc ShaCommitment.Receiver Unit := modify fun r => { r with com }

namespace SellInformationProtocol

variable (sha256 : Sha256)

/-! ## The run -/

/-- The part of `exec` up to the commitments to the ciphertexts. -/
def commitRootsWith (seller : SellerSide σ) (side : BuyerSide Point) : Proc (σ × Buyer Point) Unit := do
  let y ← onSnd side.squares
  onFst (seller.squares y)
  (List.finRange L).forM fun i => do
    let com ← onFst (seller.commit1 i)
    onSnd (Buyer.onD1 i (accept com))
    let com ← onFst (seller.commit2 i)
    onSnd (Buyer.onD2 i (accept com))

/-- One round of the loop over the subset: the key and one of the two ciphertexts. -/
def openRootWith (seller : SellerSide σ) (side : BuyerSide Point) (ind : Fin L) (commitInd : ℕ) :
    Proc (σ × Buyer Point) Unit := do
  let s ← onFst (seller.openKey ind)
  onSnd (Buyer.onKey ind (receive sha256 s))
  let st ← get
  let key := st.2.singleBuyer.keysCommits[ind].m
  if commitInd = 1 then do
    let s ← onFst (seller.openD1 ind)
    onSnd (Buyer.onD1 ind (receive sha256 s))
    let st ← get
    onSnd (side.verifyRoot ind key st.2.d1[ind].m)
  else if commitInd = 2 then do
    let s ← onFst (seller.openD2 ind)
    onSnd (Buyer.onD2 ind (receive sha256 s))
    let st ← get
    onSnd (side.verifyRoot ind key st.2.d2[ind].m)
  else throw (.protocolException "matching roots to values didn't work")

/-- One round of the loop over the other indices: both ciphertexts. -/
def openBothWith (seller : SellerSide σ) (ind : Fin L) : Proc (σ × Buyer Point) Unit := do
  let s ← onFst (seller.openD1 ind)
  onSnd (Buyer.onD1 ind (receive sha256 s))
  let s ← onFst (seller.openD2 ind)
  onSnd (Buyer.onD2 ind (receive sha256 s))

/-- The part of `exec` that opens, from the choice of the subset on. -/
def openRootsWith (seller : SellerSide σ) (side : BuyerSide Point) : Proc (σ × Buyer Point) Unit := do
  let (indices, values) ← onSnd side.subset
  let inds ← lift (checkIndices indices)
  let commitmentIndices ← onFst (seller.subset (inds.zip values.toList))
  (inds.zip commitmentIndices.toList).forM fun e => openRootWith sha256 seller side e.1 e.2
  (List.finRange L).forM fun ind =>
    if ind ∈ inds then pure () else openBothWith sha256 seller ind

/-- The part of `exec` after cut and choose and before the payment. -/
def deliverWith (seller : SellerSide σ) (side : BuyerSide Point) : Proc (σ × Buyer Point) Unit := do
  commitRootsWith seller side
  openRootsWith sha256 seller side

end SellInformationProtocol

/-! ## The seller of the source -/

/-- The seller of the source. -/
def honestSeller (sha256 : Sha256) (aes : Cipher) (msr : ModularSquareRoot) (ρ : SaleRandom) :
    SellerSide (Seller Point) where
  squares y := Seller.answerSquares msr aes ρ.swap y
  commit1 i := do
    modify fun s => { s with d1 := s.d1.set i { s.d1[i] with
      seed := ρ.seed1 i, com := ShaCommitment.computeSha sha256 s.d1[i].m (ρ.seed1 i) } i.isLt }
    let s ← get
    pure s.d1[i].com
  commit2 i := do
    modify fun s => { s with d2 := s.d2.set i { s.d2[i] with
      seed := ρ.seed2 i, com := ShaCommitment.computeSha sha256 s.d2[i].m (ρ.seed2 i) } i.isLt }
    let s ← get
    pure s.d2[i].com
  subset subset := do
    let s ← get
    let commitmentIndices ← lift (s.acceptSubset subset)
    pure (Vector.ofFn fun k => commitmentIndices.getD k 0)
  openKey i := do
    let s ← get
    pure s.singleSeller.keysCommits[i]
  openD1 i := do
    let s ← get
    pure s.d1[i]
  openD2 i := do
    let s ← get
    pure s.d2[i]

/-- The two parties of a sale. -/
def parties (st : Sale Point) : Seller Point × Buyer Point := (st.seller, st.buyer)

section
variable {sha256 : Sha256} {aes : Cipher} {msr : ModularSquareRoot} {ρ : SaleRandom} {α : Type}

theorem projects_onBuyer {m : Proc (Buyer Point) α} : Projects parties (onBuyer m) (onSnd m) :=
  Projects.zoom Projects.same (fun _ => rfl) fun _ _ => rfl

theorem projects_onSeller {m : Proc (Seller Point) α} : Projects parties (onSeller m) (onFst m) :=
  Projects.zoom Projects.same (fun _ => rfl) fun _ _ => rfl

/-- A commitment in which the seller sends the hash that its own copy says. -/
theorem projects_commit (item : Item) {i : Fin L} {seed : Bytes32} {m : Proc (Seller Point) Bytes32}
    (hm : ∀ s, m s = .ok (ShaCommitment.computeSha sha256 (item.sender s i).m seed)
      (item.setSender i { item.sender s i with
        seed, com := ShaCommitment.computeSha sha256 (item.sender s i).m seed } s)) :
    Projects parties (onItem item i (ShaCommitment.exec sha256 seed))
      (onFst m >>= fun com => onSnd (Buyer.onItem item i (accept com))) := by
  intro st
  have hsend : onFst m (parties st) = _ := onFst_of_ok (hm st.seller)
  rw [bind_of_ok hsend, onItem_eq_zoom]
  simp only [Buyer.onItem_eq_zoom]
  rfl

/-- An opening in which the seller sends its own copy of the commitment. -/
theorem projects_open (item : Item) {i : Fin L} {m : Proc (Seller Point) ShaCommitment.Sender}
    (hm : ∀ s, m s = .ok (item.sender s i) s) :
    Projects parties (onItem item i (ShaCommitment.open sha256))
      (onFst m >>= fun s => onSnd (Buyer.onItem item i (receive sha256 s))) := by
  intro st
  have hsend : onFst m (parties st) = .ok (item.sender st.seller i) (parties st) :=
    onFst_of_ok (hm st.seller)
  rw [bind_of_ok hsend, onItem_eq_zoom]
  simp only [Buyer.onItem_eq_zoom, onSnd, receive, parties, zoom]
  by_cases hcom : (item.receiver st.buyer i).com = ShaCommitment.computeSha sha256
      (item.sender st.seller i).m (item.sender st.seller i).seed
  · simp only [ShaCommitment.open_of_com_eq hcom, Item.setSender_sender]
  · simp only [ShaCommitment.open_of_com_ne hcom, Item.setSender_sender]

/-- What the honest seller sends as its hashes. -/
theorem projects_commit1 {i : Fin L} :
    Projects (@parties Point) (onD1 i (ShaCommitment.exec sha256 (ρ.seed1 i)))
      (onFst ((honestSeller sha256 aes msr ρ).commit1 i) >>= fun com =>
        onSnd (Buyer.onD1 i (accept com))) := by
  refine projects_commit .first fun s => bind_eq_ok.2 ⟨(), _, modify_apply _ _, ?_⟩
  rw [bind_of_ok (get_apply _)]
  simp [Item.sender, Item.setSender]

theorem projects_commit2 {i : Fin L} :
    Projects (@parties Point) (onD2 i (ShaCommitment.exec sha256 (ρ.seed2 i)))
      (onFst ((honestSeller sha256 aes msr ρ).commit2 i) >>= fun com =>
        onSnd (Buyer.onD2 i (accept com))) := by
  refine projects_commit .second fun s => bind_eq_ok.2 ⟨(), _, modify_apply _ _, ?_⟩
  rw [bind_of_ok (get_apply _)]
  simp [Item.sender, Item.setSender]

/-! ## The run of the source -/

open SellInformationProtocol

/-- The log is not seen. -/
theorem projects_record {e : Event} {m : Proc (Sale Point) α} {m' : Proc (Seller Point × Buyer Point) α}
    (h : Projects parties m m') : Projects parties (record e >>= fun _ => m) m' :=
  Projects.skip (fun _ => rfl) h

variable {side : BuyerSide Point}

theorem commitRoots_projects : Projects parties (commitRoots sha256 aes msr side ρ)
    (commitRootsWith (honestSeller sha256 aes msr ρ) side) := by
  refine Projects.bind projects_onBuyer fun y => projects_record ?_
  refine Projects.bind projects_onSeller fun _ => Projects.forM (fun i => ?_) _
  exact projects_commit1.bind_two fun _ => projects_commit2

theorem openRoot_projects {ind : Fin L} {commitInd : ℕ} :
    Projects parties (openRoot sha256 side ind commitInd)
      (openRootWith sha256 (honestSeller sha256 aes msr ρ) side ind commitInd) := by
  refine Projects.get_left fun st => projects_record ?_
  refine (projects_open .key fun _ => rfl).bind_two fun _ => Projects.get_bind fun st => ?_
  by_cases h1 : commitInd = 1
  · subst h1
    refine projects_record ((projects_open .first fun _ => rfl).bind_two fun _ => ?_)
    exact Projects.get_bind fun st => projects_onBuyer
  by_cases h2 : commitInd = 2
  · subst h2
    refine projects_record ((projects_open .second fun _ => rfl).bind_two fun _ => ?_)
    exact Projects.get_bind fun st => projects_onBuyer
  · simp only [if_neg h1, if_neg h2]
    exact Projects.throw

theorem openBoth_projects {ind : Fin L} : Projects (@parties Point) (openBoth sha256 ind)
    (openBothWith sha256 (honestSeller sha256 aes msr ρ) ind) := by
  refine Projects.get_left fun st => projects_record ?_
  refine (projects_open .first fun _ => rfl).bind_two fun _ => ?_
  exact Projects.get_left fun st => projects_record (projects_open .second fun _ => rfl)

/-- The list of the commitments to open, as an array. -/
theorem toList_ofFn_getD {l : List ℕ} {n : ℕ} (h : l.length = n) :
    (Vector.ofFn fun k : Fin n => l.getD k 0).toList = l := by
  rw [Vector.toList_ofFn]
  refine List.ext_getElem (by simp [h]) fun k hk hk' => ?_
  simp [hk']

theorem honestSeller_subset {subset : List (Fin L × ℤ)} (s : Seller Point) :
    (honestSeller sha256 aes msr ρ).subset subset s = (lift (s.acceptSubset subset) >>= fun l =>
      pure (Vector.ofFn fun k => l.getD k 0)) s := rfl

/-- What the honest seller answers to the subset is what `acceptSubset` returns. -/
theorem projects_subset {subset : List (Fin L × ℤ)} (hlen : subset.length = L / 2)
    {k : List ℕ → Proc (Sale Point) Unit} {k' : Vector ℕ (L / 2) → Proc (Seller Point × Buyer Point) Unit}
    (hk : ∀ l v, v.toList = l → Projects parties (k l) (k' v)) :
    Projects parties (get >>= fun st => lift (st.seller.acceptSubset subset) >>= k)
      (onFst ((honestSeller sha256 aes msr ρ).subset subset) >>= k') := by
  intro st
  have hsubset := @honestSeller_subset Point sha256 aes msr ρ subset st.seller
  rw [bind_of_ok (get_apply _)]
  cases haccept : st.seller.acceptSubset subset with
  | error e =>
    rw [haccept, bind_of_error (lift_error _ _)] at hsubset
    exact bind_of_error (onFst_of_error hsubset)
  | ok l =>
    have hl : l.length = L / 2 := (mapM_eq_ok_iff.1 haccept).length_eq.symm.trans hlen
    rw [haccept, bind_of_ok (lift_ok _ _)] at hsubset
    exact (bind_of_ok (onFst_of_ok hsubset)).trans (hk l _ (toList_ofFn_getD hl) st)

theorem openRoots_projects : Projects parties (openRoots sha256 side)
    (openRootsWith sha256 (honestSeller sha256 aes msr ρ) side) := by
  refine Projects.bind projects_onBuyer ?_
  rintro ⟨indices, values⟩
  refine projects_record (Projects.lift_bind fun inds hinds => ?_)
  have hlen : (inds.zip values.toList).length = L / 2 := by
    have hmap := congrArg List.length (checkIndices_eq_ok.1 hinds).2
    rw [List.length_map, Vector.length_toList] at hmap
    rw [List.length_zip, hmap, Vector.length_toList, Nat.min_self]
  refine projects_subset hlen fun l v hv => ?_
  rw [hv]
  refine Projects.bind (Projects.forM (fun _ => openRoot_projects) _) fun _ => ?_
  refine Projects.forM (fun ind => ?_) _
  by_cases hind : ind ∈ inds
  · rw [if_pos hind, if_pos hind]
    exact Projects.pure
  · rw [if_neg hind, if_neg hind]
    exact openBoth_projects

/-- **The seller of the source.**  With it, the run between any two sides is the one of the source,
up to the log. -/
theorem deliver_projects : Projects parties (deliver sha256 aes msr side ρ)
    (deliverWith sha256 (honestSeller sha256 aes msr ρ) side) :=
  commitRoots_projects.bind fun _ => openRoots_projects

end

end SellingInformation.Main
