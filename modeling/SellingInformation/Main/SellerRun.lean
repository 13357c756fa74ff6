import SellingInformation.Main.SellerSide

/-!
# A delivery that returns

Against any seller the buyer of the source lets the delivery return only when everything that it
was opened belongs to the hashes that it holds, and one ciphertext of every index of the subset
decrypts to its own number.

* `openRootWith_eq_ok`, `openBothWith_eq_ok` — what a round that returns has checked;
* `rounds_of_forM` — rounds for different indices do not undo each other;
* `deliverWith_eq_ok` — what a delivery that returns has checked;
* `coms_eq` — the hashes that the buyer holds depend on the squares alone.
-/

namespace SellingInformation.Main

open CryptoPP Common Fallible SellInformationProtocol

variable {Point σ : Type}

/-! ## The receivers of an index -/

/-- What the buyer holds for one index. -/
structure Receivers where
  key : ShaCommitment.Receiver
  d1 : ShaCommitment.Receiver
  d2 : ShaCommitment.Receiver

def Buyer.receivers (b : Buyer Point) (i : Fin L) : Receivers where
  key := b.singleBuyer.keysCommits[i]
  d1 := b.d1[i]
  d2 := b.d2[i]

namespace Receivers

/-- What the buyer holds of an item. -/
def get (t : Receivers) : Item → ShaCommitment.Receiver
  | .key => t.key
  | .first => t.d1
  | .second => t.d2

variable (sha256 : Sha256) (aes : Cipher)

/-- The hashes are the same. -/
structure SameComs (t t' : Receivers) : Prop where
  key : t'.key.com = t.key.com
  d1 : t'.d1.com = t.d1.com
  d2 : t'.d2.com = t.d2.com

theorem SameComs.of_items {t t' : Receivers} (h : ∀ item, (t'.get item).com = (t.get item).com) :
    SameComs t t' := ⟨h .key, h .first, h .second⟩

theorem SameComs.refl (t : Receivers) : SameComs t t := ⟨rfl, rfl, rfl⟩

theorem SameComs.trans {t t' t'' : Receivers} (h : SameComs t t') (h' : SameComs t' t'') :
    SameComs t t'' :=
  ⟨h'.key.trans h.key, h'.d1.trans h.d1, h'.d2.trans h.d2⟩

theorem SameComs.symm {t t' : Receivers} (h : SameComs t t') : SameComs t' t :=
  ⟨h.key.symm, h.d1.symm, h.d2.symm⟩

/-- The ciphertext decrypts to the number. -/
def Reads (key c : Bytes) (x : ℤ) : Prop := ∃ bytes, dec aes key c = .ok bytes ∧ ofBytes bytes = x

/-- The receiver has accepted an opening of its commitment. -/
structure Shown (r : ShaCommitment.Receiver) : Prop where
  verified : r.openVerified = true
  com_eq : r.com = ShaCommitment.computeSha sha256 r.m r.seed

/-- The key has been opened and one of the ciphertexts, and that one decrypts to the number of the
buyer; the other one is still `other`. -/
structure Checked (x : ℤ) (t t' : Receivers) : Prop where
  key : Shown sha256 t'.key
  root : (Shown sha256 t'.d1 ∧ t'.d2 = t.d2 ∧ Reads aes t'.key.m t'.d1.m x) ∨
    (Shown sha256 t'.d2 ∧ t'.d1 = t.d1 ∧ Reads aes t'.key.m t'.d2.m x)

/-- Both ciphertexts have been opened, and the key is as it was. -/
structure Both (t t' : Receivers) : Prop where
  key : t'.key = t.key
  d1 : Shown sha256 t'.d1
  d2 : Shown sha256 t'.d2

end Receivers

open Receivers

theorem receivers_get (b : Buyer Point) (i : Fin L) (item : Item) :
    (b.receivers i).get item = item.receiver b i := by
  cases item <;> rfl

/-- The receivers of an index are known by what they are for the items. -/
theorem receivers_ext {b b' : Buyer Point} {i : Fin L}
    (h : ∀ item : Item, item.receiver b' i = item.receiver b i) : b'.receivers i = b.receivers i := by
  have hkey : b'.singleBuyer.keysCommits[i] = b.singleBuyer.keysCommits[i] := h .key
  have h1 : b'.d1[i] = b.d1[i] := h .first
  have h2 : b'.d2[i] = b.d2[i] := h .second
  unfold Buyer.receivers
  rw [hkey, h1, h2]

/-! ## One opening -/

section
variable {sha256 : Sha256} {aes : Cipher} {s : ShaCommitment.Sender} {b b' : Buyer Point} {i j : Fin L}

theorem receive_eq_ok {r r' : ShaCommitment.Receiver} {u : Unit} :
    receive sha256 s r = .ok u r' ↔
      r.com = ShaCommitment.computeSha sha256 s.m s.seed ∧ r' = ShaCommitment.opened s r true := by
  unfold receive
  rw [zoom_eq_ok]
  constructor
  · rintro ⟨⟨s', r''⟩, hopen, rfl⟩
    obtain ⟨hcom, -, rfl⟩ := ShaCommitment.open_eq_ok_iff.1 hopen
    exact ⟨hcom, rfl⟩
  · rintro ⟨hcom, rfl⟩
    exact ⟨(s, ShaCommitment.opened s r true), ShaCommitment.open_eq_ok_iff.2 ⟨hcom, rfl, rfl⟩, rfl⟩

theorem shown_opened {r : ShaCommitment.Receiver}
    (h : r.com = ShaCommitment.computeSha sha256 s.m s.seed) :
    Shown sha256 (ShaCommitment.opened s r true) := ⟨rfl, h⟩

/-- What the rounds for the index `i` may change. -/
structure Frame (i : Fin L) (b b' : Buyer Point) : Prop where
  n_eq : b'.n = b.n
  x_eq : b'.x = b.x
  coms : SameComs (b.receivers i) (b'.receivers i)
  others : ∀ j, j ≠ i → b'.receivers j = b.receivers j

theorem Frame.trans {b'' : Buyer Point} (h : Frame i b b') (h' : Frame i b' b'') : Frame i b b'' :=
  ⟨h'.n_eq.trans h.n_eq, h'.x_eq.trans h.x_eq, h.coms.trans h'.coms,
    fun j hj => (h'.others j hj).trans (h.others j hj)⟩

/-- No hash is changed. -/
theorem Frame.sameComs (h : Frame i b b') (j : Fin L) : SameComs (b.receivers j) (b'.receivers j) := by
  by_cases hj : j = i
  · rw [hj]
    exact h.coms
  · rw [h.others j hj]
    exact SameComs.refl _

/-- **An opening** that returns was accepted, and leaves the other items as they are. -/
theorem onItem_receive (item : Item) {u : Unit}
    (h : Buyer.onItem item i (receive sha256 s) b = .ok u b') :
    Frame i b b' ∧ Shown sha256 ((b'.receivers i).get item) ∧
      ∀ item', item' ≠ item → (b'.receivers i).get item' = (b.receivers i).get item' := by
  rw [Buyer.onItem_eq_zoom] at h
  obtain ⟨r, hr, rfl⟩ := zoom_eq_ok.1 h
  obtain ⟨hcom, rfl⟩ := receive_eq_ok.1 hr
  have hother : ∀ item', item' ≠ item → ∀ c,
      item'.receiver (item.setReceiver i c b) i = item'.receiver b i := fun item' hne c => by
    rw [Item.receiver_setReceiver, if_neg fun h => hne h.2]
  refine ⟨⟨by cases item <;> rfl, by cases item <;> rfl, SameComs.of_items fun item' => ?_,
    fun j hj => receivers_ext fun item' => ?_⟩, ?_, fun item' hne => ?_⟩
  · rw [receivers_get, receivers_get]
    by_cases hitem : item' = item
    · rw [hitem, Item.receiver_setReceiver, if_pos ⟨rfl, rfl⟩, ShaCommitment.opened]
    · rw [hother item' hitem]
  · rw [Item.receiver_setReceiver, if_neg fun h => hj h.1]
  · rw [receivers_get, Item.receiver_setReceiver, if_pos ⟨rfl, rfl⟩]
    exact shown_opened hcom
  · rw [receivers_get, receivers_get, hother item' hne]

/-! ## The rounds -/

variable {ρ : SaleRandom} {seller : SellerSide σ} {p p' : σ × Buyer Point}

/-- The check of the buyer changes nothing. -/
theorem verifyRoot_reads {key c : Bytes} {u : Unit}
    (h : onSnd ((honestSide aes ρ).verifyRoot i key c) p = .ok u p') :
    p' = p ∧ Reads aes key c p.2.x[i] := by
  obtain ⟨hrun, hfst⟩ := onSnd_eq_ok.1 h
  have hrun' : lift (p.2.verifyRoot aes i key c) p.2 = .ok u p'.2 := hrun
  obtain ⟨hverify, hsnd⟩ := lift_eq_ok.1 hrun'
  obtain ⟨bytes, hdec, hrefuse⟩ := except_bind_eq_ok.1 hverify
  exact ⟨Prod.ext hfst hsnd, bytes, hdec, not_not.1 (refuseIf_eq_ok.1 hrefuse)⟩

/-- **A round over the subset** that returns has opened the key and one ciphertext, and checked
it. -/
theorem openRootWith_eq_ok {c : ℕ} {u : Unit}
    (h : openRootWith sha256 seller (honestSide aes ρ) i c p = .ok u p') :
    Frame i p.2 p'.2 ∧ Checked sha256 aes p.2.x[i] (p.2.receivers i) (p'.2.receivers i) := by
  obtain ⟨sk, p1, hsend, h1⟩ := bind_eq_ok.1 h
  obtain ⟨-, hp1⟩ := onFst_eq_ok.1 hsend
  obtain ⟨_, p2, hkey, h2⟩ := bind_eq_ok.1 h1
  obtain ⟨hframe, hshown, hothers⟩ := onItem_receive .key (onSnd_eq_ok.1 hkey).1
  rw [hp1] at hframe hothers
  have hd1 : (p2.2.receivers i).d1 = (p.2.receivers i).d1 := hothers .first (by decide)
  have hd2 : (p2.2.receivers i).d2 = (p.2.receivers i).d2 := hothers .second (by decide)
  rw [bind_of_ok (get_apply _)] at h2
  by_cases hc1 : c = 1
  · rw [if_pos hc1] at h2
    obtain ⟨sc, p3, hsend3, h3⟩ := bind_eq_ok.1 h2
    obtain ⟨-, hp3⟩ := onFst_eq_ok.1 hsend3
    obtain ⟨_, p4, hopen, h4⟩ := bind_eq_ok.1 h3
    obtain ⟨hframe', hshown', hothers'⟩ := onItem_receive .first (onSnd_eq_ok.1 hopen).1
    rw [hp3] at hframe' hothers'
    have hkey' : (p4.2.receivers i).key = (p2.2.receivers i).key := hothers' .key (by decide)
    have hd2' : (p4.2.receivers i).d2 = (p2.2.receivers i).d2 := hothers' .second (by decide)
    rw [bind_of_ok (get_apply _)] at h4
    obtain ⟨rfl, hreads⟩ := verifyRoot_reads h4
    have hx := (hframe.trans hframe').x_eq
    refine ⟨hframe.trans hframe', hkey' ▸ hshown, Or.inl ⟨hshown', hd2'.trans hd2, ?_⟩⟩
    rw [hkey', ← hx]
    exact hreads
  rw [if_neg hc1] at h2
  by_cases hc2 : c = 2
  · rw [if_pos hc2] at h2
    obtain ⟨sc, p3, hsend3, h3⟩ := bind_eq_ok.1 h2
    obtain ⟨-, hp3⟩ := onFst_eq_ok.1 hsend3
    obtain ⟨_, p4, hopen, h4⟩ := bind_eq_ok.1 h3
    obtain ⟨hframe', hshown', hothers'⟩ := onItem_receive .second (onSnd_eq_ok.1 hopen).1
    rw [hp3] at hframe' hothers'
    have hkey' : (p4.2.receivers i).key = (p2.2.receivers i).key := hothers' .key (by decide)
    have hd1' : (p4.2.receivers i).d1 = (p2.2.receivers i).d1 := hothers' .first (by decide)
    rw [bind_of_ok (get_apply _)] at h4
    obtain ⟨rfl, hreads⟩ := verifyRoot_reads h4
    have hx := (hframe.trans hframe').x_eq
    refine ⟨hframe.trans hframe', hkey' ▸ hshown, Or.inr ⟨hshown', hd1'.trans hd1, ?_⟩⟩
    rw [hkey', ← hx]
    exact hreads
  · rw [if_neg hc2] at h2
    cases h2

/-- **A round over the other indices** that returns has opened both ciphertexts. -/
theorem openBothWith_eq_ok {u : Unit} (h : openBothWith sha256 seller i p = .ok u p') :
    Frame i p.2 p'.2 ∧ Both sha256 (p.2.receivers i) (p'.2.receivers i) := by
  obtain ⟨s1, p1, hsend1, h1⟩ := bind_eq_ok.1 h
  obtain ⟨-, hp1⟩ := onFst_eq_ok.1 hsend1
  obtain ⟨_, p2, hopen1, h2⟩ := bind_eq_ok.1 h1
  obtain ⟨hframe, hshown, hothers⟩ := onItem_receive .first (onSnd_eq_ok.1 hopen1).1
  rw [hp1] at hframe hothers
  have hkey : (p2.2.receivers i).key = (p.2.receivers i).key := hothers .key (by decide)
  obtain ⟨s2, p3, hsend2, hopen2⟩ := bind_eq_ok.1 h2
  obtain ⟨-, hp3⟩ := onFst_eq_ok.1 hsend2
  obtain ⟨hframe', hshown', hothers'⟩ := onItem_receive .second (onSnd_eq_ok.1 hopen2).1
  rw [hp3] at hframe' hothers'
  have hkey' : (p'.2.receivers i).key = (p2.2.receivers i).key := hothers' .key (by decide)
  have hd1 : (p'.2.receivers i).d1 = (p2.2.receivers i).d1 := hothers' .first (by decide)
  exact ⟨hframe.trans hframe', hkey'.trans hkey, hd1 ▸ hshown, hshown'⟩

/-! ## The loops -/

/-- What rounds for different indices leave: nothing else is changed, and each index is left as
its own round left it. -/
structure Rounds (R : Fin L → Receivers → Receivers → Prop) (l : List (Fin L)) (b b' : Buyer Point) :
    Prop where
  n_eq : b'.n = b.n
  x_eq : b'.x = b.x
  coms : ∀ i, SameComs (b.receivers i) (b'.receivers i)
  others : ∀ i ∉ l, b'.receivers i = b.receivers i
  rounds : ∀ i ∈ l, R i (b.receivers i) (b'.receivers i)

/-- **The loop rule.**  The rounds are for different indices, so that none undoes another one. -/
theorem rounds_of_forM {β : Type} {f : β → Proc (σ × Buyer Point) Unit} (ind : β → Fin L)
    {R : Vector ℤ L → Fin L → Receivers → Receivers → Prop}
    (hf : ∀ e p p', f e p = .ok () p' → Frame (ind e) p.2 p'.2 ∧
      R p.2.x (ind e) (p.2.receivers (ind e)) (p'.2.receivers (ind e))) :
    ∀ {l : List β} {p p' : σ × Buyer Point}, (l.map ind).Nodup → l.forM f p = .ok () p' →
      Rounds (R p.2.x) (l.map ind) p.2 p'.2 := by
  intro l
  induction l with
  | nil =>
    intro p p' _ h
    cases h
    exact ⟨rfl, rfl, fun _ => SameComs.refl _, fun _ _ => rfl, by simp⟩
  | cons e l ih =>
    intro p p' hl h
    rw [List.map_cons, List.nodup_cons] at hl
    rw [forM_cons] at h
    obtain ⟨_, p1, hround, hrest⟩ := bind_eq_ok.1 h
    obtain ⟨hframe, hR⟩ := hf e p p1 hround
    have hafter := ih hl.2 hrest
    rw [hframe.x_eq] at hafter
    refine ⟨hafter.n_eq.trans hframe.n_eq, hafter.x_eq.trans hframe.x_eq,
      fun i => (hframe.sameComs i).trans (hafter.coms i), ?_, ?_⟩
    · intro i hi
      rw [List.map_cons, List.mem_cons, not_or] at hi
      exact (hafter.others i hi.2).trans (hframe.others i hi.1)
    · intro i hi
      rcases List.mem_cons.1 hi with rfl | hi
      · rw [hafter.others _ hl.1]
        exact hR
      · have hne : i ≠ ind e := by
          rintro rfl
          exact hl.1 hi
        rw [← hframe.others i hne]
        exact hafter.rounds i hi

/-- One round of the loop over all indices. -/
def restRound (sha256 : Sha256) (seller : SellerSide σ) (inds : List (Fin L)) (i : Fin L) :
    Proc (σ × Buyer Point) Unit :=
  if i ∈ inds then pure () else openBothWith sha256 seller i

theorem restRound_eq_ok {inds : List (Fin L)} (h : restRound sha256 seller inds i p = .ok () p') :
    Frame i p.2 p'.2 ∧ (i ∉ inds → Both sha256 (p.2.receivers i) (p'.2.receivers i)) ∧
      (i ∈ inds → p'.2.receivers i = p.2.receivers i) := by
  unfold restRound at h
  by_cases hi : i ∈ inds
  · rw [if_pos hi] at h
    cases h
    exact ⟨⟨rfl, rfl, SameComs.refl _, fun _ _ => rfl⟩, fun hno => absurd hi hno, fun _ => rfl⟩
  · rw [if_neg hi] at h
    obtain ⟨hframe, hboth⟩ := openBothWith_eq_ok h
    exact ⟨hframe, fun _ => hboth, fun hmem => absurd hmem hi⟩

/-- **The openings.**  When they return, every index of the subset has been checked, and both
ciphertexts of every other one are open. -/
theorem openRootsWith_eq_ok {u : Unit}
    (h : openRootsWith sha256 seller (honestSide aes ρ) p = .ok u p') :
    p'.2.n = p.2.n ∧ (∀ i, SameComs (p.2.receivers i) (p'.2.receivers i)) ∧
      (∀ i ∈ ρ.subset.toList, Checked sha256 aes p.2.x[i] (p.2.receivers i) (p'.2.receivers i)) ∧
      ∀ i ∉ ρ.subset.toList, Both sha256 (p.2.receivers i) (p'.2.receivers i) := by
  obtain ⟨⟨indices, values⟩, p1, hsubset, h1⟩ := bind_eq_ok.1 h
  have hpick : onSnd (honestSide aes ρ).subset p = .ok (ρ.subset.map fun i => i.val,
      ρ.subset.map fun i => p.2.x[i]) (p.1, { p.2 with indices := ρ.subset }) := rfl
  cases hsubset.symm.trans hpick
  obtain ⟨inds, p2, hcheck, h2⟩ := bind_eq_ok.1 h1
  obtain ⟨hinds, rfl⟩ := lift_eq_ok.1 hcheck
  obtain ⟨hnodup, hval⟩ := checkIndices_eq_ok.1 hinds
  rw [Vector.toList_map] at hval
  obtain rfl : inds = ρ.subset.toList := List.map_injective_iff.2 Fin.val_injective hval
  obtain ⟨commitInds, p3, hanswer, h3⟩ := bind_eq_ok.1 h2
  obtain ⟨-, hp3⟩ := onFst_eq_ok.1 hanswer
  obtain ⟨_, p4, hloop1, hloop2⟩ := bind_eq_ok.1 h3
  have hfst : (ρ.subset.toList.zip commitInds.toList).map Prod.fst = ρ.subset.toList :=
    List.map_fst_zip (by simp)
  have hfirst := rounds_of_forM Prod.fst (R := fun x i => Checked sha256 aes x[i])
    (fun e q q' hq => openRootWith_eq_ok hq) (by rwa [hfst]) hloop1
  rw [hfst, hp3] at hfirst
  have hsecond := rounds_of_forM id (R := fun _ i t t' =>
    (i ∉ ρ.subset.toList → Both sha256 t t') ∧ (i ∈ ρ.subset.toList → t' = t))
    (fun i q q' hq => restRound_eq_ok hq) (by simpa using List.nodup_finRange L) hloop2
  refine ⟨hsecond.n_eq.trans hfirst.n_eq, fun i => (hfirst.coms i).trans (hsecond.coms i), ?_, ?_⟩
  · intro i hi
    rw [(hsecond.rounds i (by simp)).2 hi]
    exact hfirst.rounds i hi
  · intro i hi
    have hboth := (hsecond.rounds i (by simp)).1 hi
    rwa [hfirst.others i hi] at hboth

/-! ## The commitments -/

/-- One round of the loop that commits. -/
def commitRound (seller : SellerSide σ) (i : Fin L) : Proc (σ × Buyer Point) Unit := do
  let com ← onFst (seller.commit1 i)
  onSnd (Buyer.onD1 i (accept com))
  let com ← onFst (seller.commit2 i)
  onSnd (Buyer.onD2 i (accept com))

def commitLoop (seller : SellerSide σ) : Proc (σ × Buyer Point) Unit :=
  (List.finRange L).forM (commitRound seller)

/-- The squares are all that the seller gets to see of the numbers of the buyer. -/
theorem commitRootsWith_apply (p : σ × Buyer Point) :
    commitRootsWith seller (honestSide aes ρ) p =
      (onFst (seller.squares (ρ.x.map fun xi => xi * xi % p.2.n)) >>= fun _ => commitLoop seller)
        (p.1, p.2.genSquares ρ.x) := rfl

/-- The same parties, where the buyer has other numbers. -/
def withX (x : Vector ℤ L) (p : σ × Buyer Point) : σ × Buyer Point := (p.1, { p.2 with x })

theorem projects_withX {α : Type} {x : Vector ℤ L} {m : Proc σ α} :
    Projects (@withX Point σ x) (onFst m) (onFst m) :=
  Projects.zoom Projects.same (fun _ => rfl) fun _ _ => rfl

theorem projects_withX_onItem {α : Type} {x : Vector ℤ L} (item : Item)
    {m : Proc ShaCommitment.Receiver α} :
    Projects (@withX Point σ x) (onSnd (Buyer.onItem item i m)) (onSnd (Buyer.onItem item i m)) := by
  have hbuyer : Projects (fun b : Buyer Point => { b with x }) (Buyer.onItem item i m)
      (Buyer.onItem item i m) := by
    rw [Buyer.onItem_eq_zoom]
    exact Projects.zoom Projects.same (fun _ => by cases item <;> rfl) fun _ _ => by
      cases item <;> rfl
  exact Projects.zoom hbuyer (fun _ => rfl) fun _ _ => rfl

/-- The seller commits to the same, whichever roots the buyer has. -/
theorem commitRootsWith_withX {ρ' : SaleRandom} {u : Unit}
    (h : commitRootsWith seller (honestSide aes ρ) p = .ok u p')
    (hsq : ∀ i : Fin L, ρ'.x[i] * ρ'.x[i] % p.2.n = ρ.x[i] * ρ.x[i] % p.2.n) :
    commitRootsWith seller (honestSide aes ρ') p = .ok u (withX ρ'.x p') := by
  have hy : (ρ'.x.map fun xi => xi * xi % p.2.n) = ρ.x.map fun xi => xi * xi % p.2.n := by
    refine Vector.ext fun i hi => ?_
    simpa using hsq ⟨i, hi⟩
  have hloop : Projects (@withX Point σ ρ'.x) (commitLoop seller) (commitLoop seller) := by
    refine Projects.forM (fun i => ?_) _
    refine projects_withX.bind fun com => (projects_withX_onItem .first).bind fun _ => ?_
    exact projects_withX.bind fun com => projects_withX_onItem .second
  rw [commitRootsWith_apply] at h
  have hrun := (projects_withX.bind fun _ => hloop).of_ok h
  have hstart : withX ρ'.x (p.1, p.2.genSquares ρ.x) = (p.1, p.2.genSquares ρ'.x) := by
    unfold withX Buyer.genSquares
    rw [hy]
  rw [commitRootsWith_apply, hy, ← hstart]
  exact hrun

/-- A receiver that keeps its message leaves the messages of all of them as they are. -/
theorem set_m {v : Vector ShaCommitment.Receiver L} {r : ShaCommitment.Receiver} {i : Fin L}
    (hr : r.m = v[i].m) (j : Fin L) : (v.set i r i.isLt)[j].m = v[j].m := by
  by_cases hij : i = j
  · subst hij
    simpa using hr
  · simp [Fin.ext_iff.not.1 hij]

/-- Committing leaves the rest of the buyer as it was. -/
theorem commitRootsWith_eq_ok {u : Unit}
    (h : commitRootsWith seller (honestSide aes ρ) p = .ok u p') :
    p'.2.n = p.2.n ∧ p'.2.x = ρ.x ∧ p'.2.singleBuyer = p.2.singleBuyer ∧
      ∀ i : Fin L, p'.2.d1[i].m = p.2.d1[i].m ∧ p'.2.d2[i].m = p.2.d2[i].m := by
  let kept (b : Buyer Point) := (b.n, b.x, b.singleBuyer, fun i : Fin L => (b.d1[i].m, b.d2[i].m))
  have hd1 : ∀ (i : Fin L) com, Keeps kept (Buyer.onD1 i (accept com)) := by
    intro i com
    refine Keeps.zoom_of (g := ShaCommitment.Receiver.m) (Keeps.modify fun _ => rfl) fun r b hr => ?_
    simp only [kept, set_m hr]
  have hd2 : ∀ (i : Fin L) com, Keeps kept (Buyer.onD2 i (accept com)) := by
    intro i com
    refine Keeps.zoom_of (g := ShaCommitment.Receiver.m) (Keeps.modify fun _ => rfl) fun r b hr => ?_
    simp only [kept, set_m hr]
  have hsnd : ∀ {m : Proc (Buyer Point) Unit}, Keeps kept m →
      Keeps (fun q : σ × Buyer Point => kept q.2) (onSnd m) :=
    fun hm => Keeps.zoom_of hm fun _ _ h => h
  have hfst : ∀ {α : Type} {m : Proc σ α},
      Keeps (fun q : σ × Buyer Point => kept q.2) (onFst m) := Keeps.zoom fun _ _ => rfl
  have hloop : Keeps (fun q : σ × Buyer Point => kept q.2) (commitLoop seller) := by
    refine Keeps.forM fun i _ => hfst.bind fun com => (hsnd (hd1 i com)).bind fun _ => ?_
    exact hfst.bind fun com => hsnd (hd2 i com)
  rw [commitRootsWith_apply] at h
  have hkept := (hfst.bind fun _ => hloop).of_ok h
  obtain ⟨hn, hrest⟩ := Prod.mk.inj hkept
  obtain ⟨hx, hrest⟩ := Prod.mk.inj hrest
  obtain ⟨hsingle, hm⟩ := Prod.mk.inj hrest
  exact ⟨hn, hx, hsingle, fun i => Prod.mk.inj (congrFun hm i)⟩

/-! ## The delivery -/

/-- **The delivery.**  When it returns, one ciphertext of every index of the subset has been checked
and the other one is not open; and both ciphertexts of every other index are open. -/
theorem deliverWith_eq_ok {u : Unit} (h : deliverWith sha256 seller (honestSide aes ρ) p = .ok u p')
    (hfresh : ∀ i : Fin L, p.2.d1[i].m = [] ∧ p.2.d2[i].m = []) :
    p'.2.n = p.2.n ∧
      (∀ i : Fin L, (p'.2.receivers i).key.com = p.2.singleBuyer.keysCommits[i].com) ∧
      (∀ i ∈ ρ.subset.toList, ∃ t : Receivers, (t.d1.m = [] ∧ t.d2.m = []) ∧
        Checked sha256 aes ρ.x[i] t (p'.2.receivers i)) ∧
      ∀ i ∉ ρ.subset.toList, Shown sha256 (p'.2.receivers i).d1 ∧ Shown sha256 (p'.2.receivers i).d2 := by
  obtain ⟨_, p1, hcommit, hopen⟩ := bind_eq_ok.1 h
  obtain ⟨hn, hx, hsingle, hm⟩ := commitRootsWith_eq_ok hcommit
  obtain ⟨hn', hcoms, hchecked, hboth⟩ := openRootsWith_eq_ok hopen
  refine ⟨hn'.trans hn, fun i => ?_, fun i hi => ⟨p1.2.receivers i, ?_, hx ▸ hchecked i hi⟩,
    fun i hi => ⟨(hboth i hi).d1, (hboth i hi).d2⟩⟩
  · rw [(hcoms i).key, ← hsingle]
    rfl
  · exact ⟨(hm i).1.trans (hfresh i).1, (hm i).2.trans (hfresh i).2⟩

/-- **What is committed to.**  The hashes that the buyer holds depend on the squares alone. -/
theorem coms_eq {ρ' : SaleRandom} {p'' : σ × Buyer Point} {u u' : Unit}
    (h : deliverWith sha256 seller (honestSide aes ρ) p = .ok u p')
    (h' : deliverWith sha256 seller (honestSide aes ρ') p = .ok u' p'')
    (hsq : ∀ i : Fin L, ρ'.x[i] * ρ'.x[i] % p.2.n = ρ.x[i] * ρ.x[i] % p.2.n) (i : Fin L) :
    SameComs (p'.2.receivers i) (p''.2.receivers i) := by
  obtain ⟨_, p1, hcommit, hopen⟩ := bind_eq_ok.1 h
  obtain ⟨_, p2, hcommit', hopen'⟩ := bind_eq_ok.1 h'
  cases hcommit'.symm.trans (commitRootsWith_withX hcommit hsq)
  exact ((openRootsWith_eq_ok hopen).2.1 i).symm.trans ((openRootsWith_eq_ok hopen').2.1 i)

end

end SellingInformation.Main
