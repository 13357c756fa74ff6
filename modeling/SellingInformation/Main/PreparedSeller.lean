import SellingInformation.Main.SellerRun

/-!
# A seller that has prepared what it sends

It has no state: the openings are prepared, its hashes are theirs, and what it answers to the
subset depends on the index and the number alone.

* `exists_deliverWith` — the delivery returns as soon as the answers name ciphertexts that decrypt
  to the numbers of the buyer, and leaves both ciphertexts of the other indices open.
-/

namespace SellingInformation.Main

open CryptoPP Common Fallible SellInformationProtocol Receivers

variable {Point : Type}

/-- What is opened for the keys and the ciphertexts, and which ciphertext is opened for a number. -/
structure Prepared where
  key : Fin L → ShaCommitment.Sender
  d1 : Fin L → ShaCommitment.Sender
  d2 : Fin L → ShaCommitment.Sender
  answer : Fin L → ℤ → ℕ

/-- The hash of an opening. -/
def hashOf (sha256 : Sha256) (s : ShaCommitment.Sender) : Bytes32 :=
  ShaCommitment.computeSha sha256 s.m s.seed

/-- The seller that sends what is prepared. -/
def Prepared.side (s : Prepared) (sha256 : Sha256) : SellerSide Unit where
  squares _ := pure ()
  commit1 i := pure (hashOf sha256 (s.d1 i))
  commit2 i := pure (hashOf sha256 (s.d2 i))
  subset subset := pure (Vector.ofFn fun k => (subset.map fun e => s.answer e.1 e.2).getD k 0)
  openKey i := pure (s.key i)
  openD1 i := pure (s.d1 i)
  openD2 i := pure (s.d2 i)

/-- The hashes that the buyer holds are those of what is prepared. -/
structure Prepared.Held (s : Prepared) (sha256 : Sha256) (b : Buyer Point) : Prop where
  key : ∀ i, (b.receivers i).key.com = hashOf sha256 (s.key i)
  d1 : ∀ i, (b.receivers i).d1.com = hashOf sha256 (s.d1 i)
  d2 : ∀ i, (b.receivers i).d2.com = hashOf sha256 (s.d2 i)

section
variable {sha256 : Sha256} {aes : Cipher} {s : Prepared} {snd : ShaCommitment.Sender}
  {b b' : Buyer Point} {i : Fin L} {ρ : SaleRandom} {p p' : Unit × Buyer Point}

theorem Prepared.Held.of_sameComs (h : s.Held sha256 b)
    (hcoms : ∀ i, SameComs (b.receivers i) (b'.receivers i)) : s.Held sha256 b' :=
  ⟨fun i => (hcoms i).key.trans (h.key i), fun i => (hcoms i).d1.trans (h.d1 i),
    fun i => (hcoms i).d2.trans (h.d2 i)⟩

/-! ## The commitments -/

theorem commitRound_prepared (p : Unit × Buyer Point) : commitRound (s.side sha256) i p =
    .ok () (p.1, { p.2 with
      d1 := p.2.d1.set i { p.2.d1[i] with com := hashOf sha256 (s.d1 i) } i.isLt
      d2 := p.2.d2.set i { p.2.d2[i] with com := hashOf sha256 (s.d2 i) } i.isLt }) := rfl

/-- The buyer holds the hashes of the ciphertexts of the index. -/
def Prepared.HeldAt (s : Prepared) (sha256 : Sha256) (b : Buyer Point) (i : Fin L) : Prop :=
  (b.receivers i).d1.com = hashOf sha256 (s.d1 i) ∧ (b.receivers i).d2.com = hashOf sha256 (s.d2 i)

/-- The loop that commits returns, and what it has been through is held. -/
theorem exists_commitLoop (l : List (Fin L)) : ∀ p : Unit × Buyer Point, ∃ p',
    l.forM (commitRound (s.side sha256)) p = .ok () p' ∧
      ∀ i, i ∈ l ∨ s.HeldAt sha256 p.2 i → s.HeldAt sha256 p'.2 i := by
  induction l with
  | nil => exact fun p => ⟨p, rfl, fun i h => h.resolve_left (by simp)⟩
  | cons k l ih =>
    intro p
    obtain ⟨p', hrun, hheld⟩ := ih (p.1, { p.2 with
      d1 := p.2.d1.set k { p.2.d1[k] with com := hashOf sha256 (s.d1 k) } k.isLt
      d2 := p.2.d2.set k { p.2.d2[k] with com := hashOf sha256 (s.d2 k) } k.isLt })
    refine ⟨p', ?_, fun i hi => hheld i ?_⟩
    · rw [forM_cons, bind_of_ok (commitRound_prepared p)]
      exact hrun
    by_cases hik : i = k
    · subst hik
      exact Or.inr ⟨by simp [Buyer.receivers], by simp [Buyer.receivers]⟩
    · refine hi.imp (fun hmem => (List.mem_cons.1 hmem).resolve_left hik) fun h => ?_
      simpa [Prepared.HeldAt, Buyer.receivers, Fin.ext_iff.not.1 (Ne.symm hik)] using h

/-- The buyer holds the hashes of what is prepared. -/
theorem exists_commitRootsWith
    (hkey : ∀ i, (b.receivers i).key.com = hashOf sha256 (s.key i)) : ∃ p',
      commitRootsWith (s.side sha256) (honestSide aes ρ) ((), b) = .ok () p' ∧
        s.Held sha256 p'.2 := by
  obtain ⟨p', hrun, hheld⟩ := @exists_commitLoop Point sha256 s (List.finRange L)
    ((), b.genSquares ρ.x)
  have hcommit : commitRootsWith (s.side sha256) (honestSide aes ρ) ((), b) = .ok () p' := by
    have hsquares : ∀ y q, onFst ((s.side sha256).squares y) q = .ok () (q : Unit × Buyer Point) :=
      fun _ _ => rfl
    exact (commitRootsWith_apply _).trans ((bind_of_ok (hsquares _ _)).trans hrun)
  refine ⟨p', hcommit, fun i => ?_, fun i => (hheld i (Or.inl (List.mem_finRange i))).1,
    fun i => (hheld i (Or.inl (List.mem_finRange i))).2⟩
  have hsingle := (commitRootsWith_eq_ok hcommit).2.2.1
  rw [← hkey]
  simp only [Buyer.receivers, hsingle]

/-! ## The openings -/

theorem exists_onItem (item : Item) (h : ((b.receivers i).get item).com = hashOf sha256 snd) :
    ∃ b', Buyer.onItem item i (receive sha256 snd) b = .ok () b' ∧
      ((b'.receivers i).get item).m = snd.m := by
  rw [Buyer.onItem_eq_zoom]
  rw [receivers_get] at h
  refine ⟨_, zoom_eq_ok.2 ⟨_, receive_eq_ok.2 ⟨h, rfl⟩, rfl⟩, ?_⟩
  rw [receivers_get, Item.receiver_setReceiver, if_pos ⟨rfl, rfl⟩, ShaCommitment.opened]

theorem verifyRoot_of_reads {key c : Bytes} (h : Reads aes key c p.2.x[i]) :
    onSnd ((honestSide aes ρ).verifyRoot i key c) p = .ok () p := by
  obtain ⟨bytes, hdec, hval⟩ := h
  have hverify : p.2.verifyRoot aes i key c = .ok () :=
    except_bind_eq_ok.2 ⟨bytes, hdec, refuseIf_of_not (not_not.2 hval)⟩
  have hrun : (honestSide aes ρ).verifyRoot i key c p.2 = .ok () p.2 :=
    lift_eq_ok.2 ⟨hverify, rfl⟩
  exact onSnd_of_ok hrun

/-- The prepared answer names a ciphertext that decrypts to the number. -/
def Prepared.Answers (s : Prepared) (aes : Cipher) (i : Fin L) (x : ℤ) : Prop :=
  (s.answer i x = 1 ∧ Reads aes (s.key i).m (s.d1 i).m x) ∨
    (s.answer i x = 2 ∧ Reads aes (s.key i).m (s.d2 i).m x)

/-- A round over the subset returns. -/
theorem exists_openRootWith (h : s.Held sha256 p.2) (hans : s.Answers aes i p.2.x[i]) :
    ∃ p', openRootWith sha256 (s.side sha256) (honestSide aes ρ) i (s.answer i p.2.x[i]) p =
      .ok () p' := by
  obtain ⟨b1, hkey, hm⟩ : ∃ b', Buyer.onKey i (receive sha256 (s.key i)) p.2 = .ok () b' ∧
      (b'.receivers i).key.m = (s.key i).m := exists_onItem .key (h.key i)
  obtain ⟨hframe, -, -⟩ := onItem_receive .key hkey
  have hkey' : onSnd (Buyer.onKey i (receive sha256 (s.key i))) p = .ok () (p.1, b1) :=
    onSnd_of_ok hkey
  have hsend : onFst ((s.side sha256).openKey i) p = .ok (s.key i) p := rfl
  unfold openRootWith
  rw [bind_of_ok hsend, bind_of_ok hkey', bind_of_ok (get_apply _)]
  have hx := hframe.x_eq
  rcases hans with ⟨hone, hreads⟩ | ⟨htwo, hreads⟩
  · obtain ⟨b2, hd1, hm1⟩ : ∃ b', Buyer.onD1 i (receive sha256 (s.d1 i)) b1 = .ok () b' ∧
        (b'.receivers i).d1.m = (s.d1 i).m := exists_onItem .first (hframe.coms.d1.trans (h.d1 i))
    have hd1' : onSnd (Buyer.onD1 i (receive sha256 (s.d1 i))) (p.1, b1) = .ok () (p.1, b2) :=
      onSnd_of_ok hd1
    have hsend1 : onFst ((s.side sha256).openD1 i) (p.1, b1) = .ok (s.d1 i) (p.1, b1) := rfl
    rw [hone, if_pos rfl, bind_of_ok hsend1, bind_of_ok hd1', bind_of_ok (get_apply _)]
    refine ⟨(p.1, b2), verifyRoot_of_reads ?_⟩
    show Reads aes (b1.receivers i).key.m (b2.receivers i).d1.m b2.x[i]
    rw [hm, hm1, (onItem_receive .first hd1).1.x_eq, hx]
    exact hreads
  · obtain ⟨b2, hd2, hm2⟩ : ∃ b', Buyer.onD2 i (receive sha256 (s.d2 i)) b1 = .ok () b' ∧
        (b'.receivers i).d2.m = (s.d2 i).m := exists_onItem .second (hframe.coms.d2.trans (h.d2 i))
    have hd2' : onSnd (Buyer.onD2 i (receive sha256 (s.d2 i))) (p.1, b1) = .ok () (p.1, b2) :=
      onSnd_of_ok hd2
    have hsend2 : onFst ((s.side sha256).openD2 i) (p.1, b1) = .ok (s.d2 i) (p.1, b1) := rfl
    rw [htwo, if_neg (by decide), if_pos rfl, bind_of_ok hsend2, bind_of_ok hd2',
      bind_of_ok (get_apply _)]
    refine ⟨(p.1, b2), verifyRoot_of_reads ?_⟩
    show Reads aes (b1.receivers i).key.m (b2.receivers i).d2.m b2.x[i]
    rw [hm, hm2, (onItem_receive .second hd2).1.x_eq, hx]
    exact hreads

/-- A round over the other indices returns, with both ciphertexts open. -/
theorem exists_openBothWith (h : s.Held sha256 p.2) :
    ∃ p', openBothWith sha256 (s.side sha256) i p = .ok () p' ∧
      (p'.2.receivers i).d1.m = (s.d1 i).m ∧ (p'.2.receivers i).d2.m = (s.d2 i).m := by
  obtain ⟨b1, hd1, hm1⟩ : ∃ b', Buyer.onD1 i (receive sha256 (s.d1 i)) p.2 = .ok () b' ∧
      (b'.receivers i).d1.m = (s.d1 i).m := exists_onItem .first (h.d1 i)
  obtain ⟨hframe, -, -⟩ := onItem_receive .first hd1
  obtain ⟨b2, hd2, hm2⟩ : ∃ b', Buyer.onD2 i (receive sha256 (s.d2 i)) b1 = .ok () b' ∧
      (b'.receivers i).d2.m = (s.d2 i).m := exists_onItem .second (hframe.coms.d2.trans (h.d2 i))
  have hd1' : onSnd (Buyer.onD1 i (receive sha256 (s.d1 i))) p = .ok () (p.1, b1) := onSnd_of_ok hd1
  have hd2' : onSnd (Buyer.onD2 i (receive sha256 (s.d2 i))) (p.1, b1) = .ok () (p.1, b2) :=
    onSnd_of_ok hd2
  have hsend1 : onFst ((s.side sha256).openD1 i) p = .ok (s.d1 i) p := rfl
  have hsend2 : onFst ((s.side sha256).openD2 i) (p.1, b1) = .ok (s.d2 i) (p.1, b1) := rfl
  refine ⟨(p.1, b2), ?_, ?_, hm2⟩
  · unfold openBothWith
    rw [bind_of_ok hsend1, bind_of_ok hd1', bind_of_ok hsend2]
    exact hd2'
  · have hsame : (b2.receivers i).d1 = (b1.receivers i).d1 :=
      (onItem_receive .second hd2).2.2 .first (by decide)
    rw [hsame]
    exact hm1

/-! ## The loops -/

/-- The loop over the subset returns. -/
theorem exists_openRoots_loop {x : Vector ℤ L} : ∀ {l : List (Fin L)} {p : Unit × Buyer Point},
    p.2.x = x → s.Held sha256 p.2 → (∀ i ∈ l, s.Answers aes i x[i]) →
      ∃ p', (l.map fun i => (i, s.answer i x[i])).forM (fun e =>
        openRootWith sha256 (s.side sha256) (honestSide aes ρ) e.1 e.2) p = .ok () p' ∧
          s.Held sha256 p'.2 := by
  intro l
  induction l with
  | nil => exact fun _ h _ => ⟨_, rfl, h⟩
  | cons i l ih =>
    intro p hx h hans
    have hi := hans i List.mem_cons_self
    rw [← hx] at hi
    obtain ⟨p1, hround⟩ := @exists_openRootWith Point sha256 aes s i ρ p h hi
    rw [hx] at hround
    obtain ⟨hframe, -⟩ := openRootWith_eq_ok hround
    obtain ⟨p', hrest, h'⟩ := ih (hframe.x_eq.trans hx) (h.of_sameComs hframe.sameComs)
      fun j hj => hans j (List.mem_cons_of_mem _ hj)
    refine ⟨p', ?_, h'⟩
    rw [List.map_cons, forM_cons, bind_of_ok hround]
    exact hrest

/-- The loop over the other indices returns, with their ciphertexts open. -/
theorem exists_rest_loop {inds : List (Fin L)} : ∀ {l : List (Fin L)} {p : Unit × Buyer Point},
    l.Nodup → s.Held sha256 p.2 →
      ∃ p', l.forM (restRound sha256 (s.side sha256) inds) p = .ok () p' ∧ ∀ i ∈ l, i ∉ inds →
        (p'.2.receivers i).d1.m = (s.d1 i).m ∧ (p'.2.receivers i).d2.m = (s.d2 i).m := by
  intro l
  induction l with
  | nil => exact fun _ _ => ⟨_, rfl, by simp⟩
  | cons i l ih =>
    intro p hl h
    obtain ⟨hil, hl'⟩ := List.nodup_cons.1 hl
    have hround : ∃ p1, restRound sha256 (s.side sha256) inds i p = .ok () p1 ∧ (i ∉ inds →
        (p1.2.receivers i).d1.m = (s.d1 i).m ∧ (p1.2.receivers i).d2.m = (s.d2 i).m) := by
      by_cases hi : i ∈ inds
      · exact ⟨p, congrFun (if_pos hi) p, fun hno => absurd hi hno⟩
      · obtain ⟨p1, hrun, hm⟩ := exists_openBothWith (i := i) h
        exact ⟨p1, (congrFun (if_neg hi) p).trans hrun, fun _ => hm⟩
    obtain ⟨p1, hrun, hm⟩ := hround
    obtain ⟨hframe, -⟩ := restRound_eq_ok hrun
    obtain ⟨p', hrest, hm'⟩ := ih hl' (h.of_sameComs hframe.sameComs)
    refine ⟨p', ?_, fun j hj hjs => ?_⟩
    · rw [forM_cons, bind_of_ok hrun]
      exact hrest
    rcases List.mem_cons.1 hj with rfl | hj
    · -- the rounds after this one are for other indices
      have hafter := rounds_of_forM id (R := fun _ _ _ _ => True)
        (fun k q q' hq => ⟨(restRound_eq_ok hq).1, trivial⟩) (by simpa using hl') hrest
      rw [hafter.others j (by simpa using hil)]
      exact hm hjs
    · exact hm' j hj hjs

/-- What the prepared seller answers to the subset. -/
theorem zip_prepared {inds : List (Fin L)} (hlen : inds.length = L / 2) (x : Vector ℤ L) :
    inds.zip (Vector.ofFn fun k : Fin (L / 2) =>
      ((inds.zip (inds.map fun i => x[i])).map fun e => s.answer e.1 e.2).getD k 0).toList =
        inds.map fun i => (i, s.answer i x[i]) := by
  have hanswers : (inds.zip (inds.map fun i => x[i])).map (fun e => s.answer e.1 e.2) =
      inds.map fun i => s.answer i x[i] := by
    rw [← List.map_prod_left_eq_zip, List.map_map]
    rfl
  rw [hanswers, toList_ofFn_getD (by simpa using hlen), ← List.map_prod_left_eq_zip]

/-- **Prepared deliveries return**, with both ciphertexts of the other indices open. -/
theorem exists_deliverWith (hnodup : ρ.subset.toList.Nodup)
    (hkey : ∀ i, (b.receivers i).key.com = hashOf sha256 (s.key i))
    (hans : ∀ i ∈ ρ.subset.toList, s.Answers aes i ρ.x[i]) : ∃ p',
      deliverWith sha256 (s.side sha256) (honestSide aes ρ) ((), b) = .ok () p' ∧
        ∀ i ∉ ρ.subset.toList, (p'.2.receivers i).d1.m = (s.d1 i).m ∧
          (p'.2.receivers i).d2.m = (s.d2 i).m := by
  obtain ⟨p1, hcommit, hheld⟩ := @exists_commitRootsWith Point sha256 aes s b ρ hkey
  obtain ⟨-, hx, -, -⟩ := commitRootsWith_eq_ok hcommit
  have hsubset : ∃ p2, onSnd (honestSide aes ρ).subset p1 = .ok (ρ.subset.map fun i => i.val,
      ρ.subset.map fun i => ρ.x[i]) p2 ∧ p2.2.x = ρ.x ∧ s.Held sha256 p2.2 := by
    rw [← hx]
    exact ⟨_, rfl, rfl, hheld.key, hheld.d1, hheld.d2⟩
  obtain ⟨p2, hsubset, hx2, hheld2⟩ := hsubset
  have hcheck : checkIndices (ρ.subset.map fun i => i.val) = .ok ρ.subset.toList :=
    checkIndices_eq_ok.2 ⟨hnodup, by rw [Vector.toList_map]⟩
  obtain ⟨p3, hloop1, hheld3⟩ :=
    @exists_openRoots_loop Point sha256 aes s ρ ρ.x ρ.subset.toList p2 hx2 hheld2 hans
  obtain ⟨p', hloop2, hm⟩ := @exists_rest_loop Point sha256 s ρ.subset.toList _ _
    (List.nodup_finRange L) hheld3
  refine ⟨p', ?_, fun i => hm i (List.mem_finRange i)⟩
  have hanswer : ∀ (e : List (Fin L × ℤ)) (q : Unit × Buyer Point),
      onFst ((s.side sha256).subset e) q =
        .ok (Vector.ofFn fun k => (e.map fun e => s.answer e.1 e.2).getD k 0) q := fun _ _ => rfl
  have hopen : openRootsWith sha256 (s.side sha256) (honestSide aes ρ) p1 = .ok () p' := by
    unfold openRootsWith
    rw [bind_of_ok hsubset]
    dsimp only
    rw [hcheck, bind_of_ok (lift_ok _ _), bind_of_ok (hanswer _ _), Vector.toList_map,
      zip_prepared Vector.length_toList, bind_of_ok hloop1]
    exact hloop2
  exact (bind_of_ok hcommit).trans hopen

/-- Whenever a prepared delivery returns, the buyer holds the hashes of what is prepared. -/
theorem held_of_deliverWith {u : Unit}
    (hkey : ∀ i, (b.receivers i).key.com = hashOf sha256 (s.key i))
    (h : deliverWith sha256 (s.side sha256) (honestSide aes ρ) ((), b) = .ok u p') :
    s.Held sha256 p'.2 := by
  obtain ⟨_, p1, hcommit, hopen⟩ := bind_eq_ok.1 h
  obtain ⟨p2, hcommit', hheld⟩ := @exists_commitRootsWith Point sha256 aes s b ρ hkey
  cases hcommit.symm.trans hcommit'
  exact hheld.of_sameComs (openRootsWith_eq_ok hopen).2.1

end

end SellingInformation.Main
