import SellingInformation.Main.Course
import SellingInformation.Main.KeptInstance
import SellingInformation.Main.Openings

/-!
# Runs are on course

The program of a sale moves along the automaton of `Course`.  Each part of a run is one triple:
started with the automaton in a given state, it returns with the automaton in the next one, and
when it throws the log is accepted all the same.  The loops of openings are carried by
`Progress`, which says which indices are done.

* `at_openItem`, `openRoot_onCourse`, `openBoth_onCourse` — one opening, and one round of each loop;
* `deliver_onCourse`, `pay_onCourse` — the parts of a run;
* `execAgainst_matches` — what the log has as opened is what the buyer holds;
* `log_onCourse` — every run is on course, whatever the buyer sends and however the run ends;
* `paid_complete` — no run pays before everything that is due is open.
-/

namespace SellingInformation.Main

open CryptoPP Common Fallible SellInformationProtocol

/-! ## The parts of a run -/

variable {Point : Type}

/-- The log of the sale is accepted, for the seller that it has. -/
def At (cheat : Bool) (k : Course) (st : Sale Point) : Prop :=
  OnCourse cheat st.log k ∧ st.seller.cheat = cheat

/-- The log is accepted. -/
def Going (cheat : Bool) (st : Sale Point) : Prop := ∃ k, At cheat k st

section
variable {α : Type} {cheat : Bool} {k k' : Course}

/-- A program that leaves the log alone. -/
theorem at_of_keeps {m : Proc (Sale Point) α}
    (h : Keeps (fun st => (st.log, st.seller.cheat)) m) :
    Triple (At cheat k) m (fun _ => At cheat k) (fun _ => Going cheat) :=
  (Triple.of_keeps (I := fun v : List Event × Bool => OnCourse cheat v.1 k ∧ v.2 = cheat) h).conseq
    (fun _ h => h) (fun _ _ h => h) fun _ _ h => ⟨k, h⟩

/-- An event that the automaton accepts. -/
theorem at_record {e : Event} (h : advance cheat e k = some k') :
    Triple (At cheat k) (record e : Proc (Sale Point) Unit) (fun _ => At cheat k')
      (fun _ => Going cheat) :=
  Triple.modify fun _ hst => ⟨hst.1.concat h, hst.2⟩

theorem keeps_course_onBuyer (m : Proc (Buyer Point) α) :
    Keeps (fun st : Sale Point => (st.log, st.seller.cheat)) (onBuyer m) := Keeps.zoom fun _ _ => rfl

theorem keeps_course_onItem (item : Item) (i : Fin L)
    (m : Proc (ShaCommitment.Sender × ShaCommitment.Receiver) α) :
    Keeps (fun st : Sale Point => (st.log, st.seller.cheat)) (onItem item i m) :=
  keeps_onItem (fun _ _ _ => by cases item <;> rfl) m

theorem keeps_course_onSeller {m : Proc (Seller Point) α} (h : Keeps Seller.cheat m) :
    Keeps (fun st : Sale Point => (st.log, st.seller.cheat)) (onSeller m) := by
  refine Keeps.zoom_of h ?_
  intro t st ht
  simp only [ht]

end

variable {sha256 : Sha256} {aes : Cipher} {msr : ModularSquareRoot} {side : BuyerSide Point}
  {ρ : SaleRandom} {cheat : Bool}

/-- Up to the commitments only the squares are in the log. -/
theorem commitRoots_onCourse : Triple (At cheat Course.start)
    (commitRoots sha256 aes msr side ρ)
    (fun _ => @At Point cheat { Course.start with phase := .asked }) (fun _ => Going cheat) := by
  refine Triple.bind (at_of_keeps (keeps_course_onBuyer _)) fun y => ?_
  refine Triple.bind (at_record rfl) fun _ => ?_
  refine Triple.bind (at_of_keeps (keeps_course_onSeller
    (keeps_answerSquares (fun _ _ _ _ _ _ _ _ => rfl) ρ.swap y))) fun _ => at_of_keeps ?_
  exact Keeps.forM fun i _ => (keeps_course_onItem .first i _).bind fun _ =>
    keeps_course_onItem .second i _

/-- An opening that the automaton accepts. -/
theorem at_openItem {k k' : Course} {item : Item} {ind : Fin L}
    (h : ∀ m, advance cheat (item.event ind m) k = some k') :
    Triple (At cheat k) (openItem sha256 item ind) (fun _ => @At Point cheat k')
      (fun _ => Going cheat) := by
  refine Triple.get_bind fun st₀ hst₀ => Triple.of_read ?_ hst₀
  exact Triple.bind (at_record (h _)) fun _ => at_of_keeps (keeps_course_onItem item ind _)

/-- A round over the subset. -/
theorem openRoot_onCourse {k : Course} {ind : Fin L} {c : ℕ} (hk : k.phase = .opening)
    (hind : (ind : ℕ) ∈ k.subset) (hnothing : k.opened ind = .nothing) :
    Triple (At cheat k) (openRoot sha256 side ind c)
      (fun _ st => ∃ o, (o = .keyAndFirst ∨ o = .keyAndSecond) ∧
        At cheat (k.set ind o) (st : Sale Point)) (fun _ => Going cheat) := by
  have hkey : ∀ m, advance cheat (Item.key.event ind m) k = some (k.set ind .key) := fun m => by
    simp [Item.event, advance, hk, hind, hnothing]
  refine triple_openRoot (at_openItem hkey) ?_ ?_ fun _ _ h => ⟨_, h⟩
  · intro item hitem
    rcases Item.ofCommitInd_eq_some hitem with ⟨-, rfl⟩ | ⟨-, rfl⟩
    · have hfirst : ∀ m, advance cheat (Item.first.event ind m) (k.set ind .key) =
          some (k.set ind .keyAndFirst) := fun m => by simp [Item.event, advance, hk]
      exact (at_openItem hfirst).conseq (fun _ h => h) (fun _ _ h => ⟨.keyAndFirst, Or.inl rfl, h⟩)
        fun _ _ h => h
    · have hsecond : ∀ m, advance cheat (Item.second.event ind m) (k.set ind .key) =
          some (k.set ind .keyAndSecond) := fun m => by simp [Item.event, advance, hk]
      exact (at_openItem hsecond).conseq (fun _ h => h) (fun _ _ h => ⟨.keyAndSecond, Or.inr rfl, h⟩)
        fun _ _ h => h
  · rintro key m st ⟨o, ho, hat⟩
    exact (at_of_keeps (keeps_course_onBuyer _)).conseq (fun _ h => h) (fun _ _ h => ⟨o, ho, h⟩)
      (fun _ _ h => h) st hat

/-- A round over the other indices. -/
theorem openBoth_onCourse {k : Course} {ind : Fin L} (hk : k.phase = .opening)
    (hind : (ind : ℕ) ∉ k.subset) (hnothing : k.opened ind = .nothing) :
    Triple (At cheat k) (openBoth sha256 ind) (fun _ => @At Point cheat (k.set ind .both))
      (fun _ => Going cheat) := by
  have hfirst : ∀ m, advance cheat (Item.first.event ind m) k = some (k.set ind .first) := fun m => by
    simp [Item.event, advance, hk, hind, hnothing]
  have hsecond : ∀ m, advance cheat (Item.second.event ind m) (k.set ind .first) =
      some (k.set ind .both) := fun m => by simp [Item.event, advance, hk]
  exact triple_openBoth (at_openItem hfirst) (at_openItem hsecond)

/-! ## The two loops -/

/-- The indices in `done` have been opened as they should, and the others not at all. -/
structure Progress (k : Course) (subset : List ℕ) (done : Fin L → Prop) : Prop where
  phase_eq : k.phase = .opening
  subset_eq : k.subset = subset
  due : ∀ i, done i → k.Due i
  fresh : ∀ i, ¬ done i → k.opened i = .nothing

theorem Progress.set {k : Course} {subset : List ℕ} {done : Fin L → Prop} {i : Fin L} {o : Opened}
    (h : Progress k subset done) (ho : (k.set i o).Due i) :
    Progress (k.set i o) subset fun j => done j ∨ j = i := by
  refine ⟨h.phase_eq, h.subset_eq, ?_, ?_⟩
  · intro j hj
    by_cases hji : j = i
    · rwa [hji]
    · have hdue := h.due j (hj.resolve_right hji)
      unfold Course.Due at hdue ⊢
      rwa [Course.set_opened_of_ne k o hji]
  · intro j hj
    rw [not_or] at hj
    rw [Course.set_opened_of_ne k o hj.2]
    exact h.fresh j hj.1

theorem Progress.congr {k : Course} {subset : List ℕ} {done done' : Fin L → Prop}
    (h : Progress k subset done) (hdone : ∀ i, done i ↔ done' i) : Progress k subset done' :=
  ⟨h.phase_eq, h.subset_eq, fun i hi => h.due i ((hdone i).2 hi),
    fun i hi => h.fresh i fun hd => hi ((hdone i).1 hd)⟩

/-- The automaton has made this progress on the log of the sale. -/
def Progressing (cheat : Bool) (subset : List ℕ) (done : Fin L → Prop) (st : Sale Point) : Prop :=
  ∃ k, At cheat k st ∧ Progress k subset done

theorem Progressing.going {subset : List ℕ} {done : Fin L → Prop} {st : Sale Point}
    (h : Progressing cheat subset done st) : Going cheat st := by
  obtain ⟨k, hk, -⟩ := h
  exact ⟨k, hk⟩

/-- A program that moves the automaton on from a known state. -/
theorem triple_progressing {subset : List ℕ} {done : Fin L → Prop} {m : Proc (Sale Point) Unit}
    {Q : Unit → Sale Point → Prop}
    (h : ∀ k, Progress k subset done → Triple (At cheat k) m Q (fun _ => Going cheat)) :
    Triple (Progressing cheat subset done) m Q (fun _ => Going cheat) := by
  rintro st ⟨k, hk, hprogress⟩
  exact h k hprogress st hk

/-- The loop over the subset. -/
theorem openSubset_onCourse {subset : List ℕ} {rounds : List (Fin L × ℕ)}
    (hnodup : (rounds.map Prod.fst).Nodup) (hsubset : ∀ e ∈ rounds, (e.1 : ℕ) ∈ subset) :
    Triple (Progressing cheat subset fun _ => False)
      (rounds.forM fun e => openRoot sha256 side e.1 e.2)
      (fun _ => @Progressing Point cheat subset fun i => i ∈ rounds.map Prod.fst)
      (fun _ => Going cheat) := by
  have hloop := Triple.forM (I := fun pre : List (Fin L × ℕ) =>
    @Progressing Point cheat subset fun i => i ∈ pre.map Prod.fst)
    (f := fun e => openRoot sha256 side e.1 e.2) (E := fun _ => Going cheat) (l := rounds) ?_
  · exact hloop.conseq (fun _ h => by simpa using h) (fun _ _ h => h) fun _ _ h => h
  intro pre e post hl
  have hnot : e.1 ∉ pre.map Prod.fst := by
    rw [hl, List.map_append, List.nodup_append] at hnodup
    intro hmem
    exact hnodup.2.2 e.1 hmem e.1 (by simp) rfl
  have hmem : (e.1 : ℕ) ∈ subset := hsubset e (by simp [hl])
  refine triple_progressing fun k hk => ?_
  refine (openRoot_onCourse hk.phase_eq (hk.subset_eq ▸ hmem) (hk.fresh _ hnot)).conseq
    (fun _ h => h) ?_ fun _ _ h => h
  rintro _ st ⟨o, ho, hat⟩
  refine ⟨_, hat, (hk.set ?_).congr fun i => by simp⟩
  unfold Course.Due
  rw [Course.set_subset, hk.subset_eq, if_pos hmem, Course.set_opened_self]
  exact ho

/-- The loop over the other indices. -/
theorem openOthers_onCourse {subset : List ℕ} {inds : List (Fin L)}
    (hinds : inds.map Fin.val = subset) :
    Triple (Progressing cheat subset fun i => i ∈ inds)
      ((List.finRange L).forM fun ind => if ind ∈ inds then pure () else openBoth sha256 ind)
      (fun _ => @Progressing Point cheat subset fun _ => True) (fun _ => Going cheat) := by
  have hmem : ∀ i : Fin L, (i : ℕ) ∈ subset ↔ i ∈ inds := fun i => by
    rw [← hinds]
    simp [Fin.val_inj]
  have hloop := Triple.forM (I := fun pre : List (Fin L) =>
    @Progressing Point cheat subset fun i => i ∈ inds ∨ i ∈ pre)
    (f := fun ind => if ind ∈ inds then pure () else openBoth sha256 ind)
    (E := fun _ => Going cheat) (l := List.finRange L) ?_
  · refine hloop.conseq (fun _ h => by simpa using h) ?_ fun _ _ h => h
    rintro _ st ⟨k, hat, hk⟩
    exact ⟨k, hat, hk.congr fun i => by simp [List.mem_finRange]⟩
  intro pre ind post hl
  by_cases hin : ind ∈ inds
  · rw [if_pos hin]
    refine Triple.pure ?_
    rintro st ⟨k, hat, hk⟩
    refine ⟨k, hat, hk.congr fun i => ?_⟩
    rw [List.mem_append, List.mem_singleton]
    constructor
    · rintro (h | h)
      · exact Or.inl h
      · exact Or.inr (Or.inl h)
    · rintro (h | h | rfl)
      · exact Or.inl h
      · exact Or.inr h
      · exact Or.inl hin
  · rw [if_neg hin]
    have hnot : ind ∉ pre := fun hpre => Nat.lt_irrefl _ (((finRange_split hl).1 ind).1 hpre)
    refine triple_progressing fun k hk => ?_
    have hout : (ind : ℕ) ∉ k.subset := by rw [hk.subset_eq, hmem]; exact hin
    refine (openBoth_onCourse hk.phase_eq hout (hk.fresh _ ?_)).conseq (fun _ h => h) ?_
      fun _ _ h => h
    · rw [not_or]
      exact ⟨hin, hnot⟩
    intro _ st hat
    refine ⟨_, hat, (hk.set ?_).congr fun i => by simp [or_assoc]⟩
    unfold Course.Due
    rw [Course.set_subset, if_neg hout, Course.set_opened_self]

/-- The openings of a run that returns are all that is due. -/
theorem openRoots_onCourse : Triple (At cheat { Course.start with phase := .asked })
    (openRoots sha256 side)
    (fun _ st => ∃ k, At cheat k (st : Sale Point) ∧ k.phase = .opening ∧ ∀ i, k.Due i)
    (fun _ => Going cheat) := by
  refine Triple.bind (at_of_keeps (keeps_course_onBuyer _)) ?_
  rintro ⟨indices, values⟩
  refine Triple.bind (at_record rfl) fun _ => ?_
  refine Triple.bind (Q := fun inds st => (inds.Nodup ∧ inds.map Fin.val = indices.toList) ∧
    Progressing cheat indices.toList (fun _ => False) st) (Triple.lift ?_ ?_) fun inds => ?_
  · intro inds hinds st hst
    exact ⟨checkIndices_eq_ok.1 hinds, _, hst, rfl, rfl, fun _ h => h.elim, fun _ _ => rfl⟩
  · exact fun _ _ st hst => ⟨_, hst⟩
  refine Triple.get_bind ?_
  rintro st₁ ⟨⟨hnodup, hinds⟩, hst₁⟩
  refine Triple.bind (Q := fun commitInds st => (inds.zip commitInds).map Prod.fst = inds ∧
    Progressing cheat indices.toList (fun _ => False) st) (Triple.lift ?_ ?_) fun commitInds => ?_
  · rintro commitInds haccept st rfl
    have hlen := (mapM_eq_ok_iff.1 haccept).length_eq
    have hlen1 : inds.length = L / 2 := by
      rw [← List.length_map (f := Fin.val), hinds, Vector.length_toList]
    have hlen2 : values.toList.length = L / 2 := Vector.length_toList
    rw [List.length_zip, hlen1, hlen2, min_self] at hlen
    refine ⟨List.map_fst_zip ?_, hst₁⟩
    rw [hlen1, hlen]
  · rintro _ _ st rfl
    exact hst₁.going
  rintro st ⟨hfst, hst⟩
  have hrounds : ∀ e ∈ inds.zip commitInds, (e.1 : ℕ) ∈ indices.toList := by
    intro e he
    rw [← hinds]
    exact List.mem_map_of_mem (List.of_mem_zip he).1
  have hfirst := @openSubset_onCourse Point sha256 side cheat indices.toList (inds.zip commitInds)
    (by rw [hfst]; exact hnodup) hrounds
  rw [hfst] at hfirst
  refine (hfirst.bind fun _ => openOthers_onCourse hinds).conseq (fun _ h => h) ?_
    (fun _ _ h => h) st hst
  rintro _ st' ⟨k, hat, hk⟩
  exact ⟨k, hat, hk.phase_eq, fun i => hk.due i trivial⟩

/-- The part of a run between cut and choose and the payment. -/
theorem deliver_onCourse : Triple (At cheat Course.start) (deliver sha256 aes msr side ρ)
    (fun _ st => ∃ k, At cheat k (st : Sale Point) ∧ k.phase = .opening ∧ ∀ i, k.Due i)
    (fun _ => Going cheat) :=
  Triple.bind commitRoots_onCourse fun _ => openRoots_onCourse

section
variable [AddCommGroup Point] {ec : ECParameters Point} {clients : Clients} {finish : Finish}

/-- The recovery is the last event. -/
theorem recover_onCourse {k : Course} (hk : k.phase = .taken ∨ k.phase = .paid ∧ cheat = true) :
    Triple (At cheat k) (record .startRecovery >>= fun _ =>
      onBuyer (Buyer.waitForSignatureOrTimeLock ec sha256 aes finish))
      (fun _ => @At Point cheat { k with phase := .recovering }) (fun _ => Going cheat) := by
  refine Triple.bind (at_record ?_) fun _ => at_of_keeps (keeps_course_onBuyer _)
  rcases hk with hk | ⟨hk, rfl⟩ <;> simp [advance, hk]

omit [AddCommGroup Point] in
/-- `T2` is broadcast by a seller that does not cheat. -/
theorem acceptPayment_cheat (client : BitcoinUtilsClient) :
    Triple (fun s : Seller Point => s.cheat = cheat) (Seller.acceptPayment client)
      (fun broadcast s => s.cheat = cheat ∧ broadcast = !cheat) (fun _ s => s.cheat = cheat) := by
  refine Triple.get_bind ?_
  rintro s₀ rfl
  by_cases hcheat : s₀.cheat = true
  · rw [if_pos hcheat]
    exact Triple.pure fun s hs => by simp [hs, hcheat]
  · rw [if_neg hcheat]
    refine Triple.bind (Q := fun _ s => s = s₀) (Triple.lift (fun _ _ _ hs => hs)
      fun _ _ s hs => by rw [hs]) fun res => ?_
    refine Triple.bind (Q := fun _ s => s = s₀) (Triple.throwIf (fun _ s hs => by rw [hs])
      fun _ _ hs => hs) fun _ => ?_
    exact Triple.pure fun s hs => by simp [hs, hcheat]

/-- The last part of a run. -/
theorem pay_onCourse {k : Course} (hk : k.phase = .opening) (hdue : ∀ i, k.Due i) :
    Triple (At cheat k) (pay ec sha256 aes clients finish)
      (fun _ => @At Point cheat { k with phase := .recovering }) (fun _ => Going cheat) := by
  have hpaid : ∀ t1, advance cheat (.broadcastT1 t1) k = some { k with phase := .paid } :=
    fun t1 => by simp [advance, hk, hdue]
  refine Triple.get_bind fun st₀ hst₀ => Triple.of_read ?_ hst₀
  refine Triple.bind (at_of_keeps Keeps.lift) fun _ => ?_
  refine Triple.bind (at_record (hpaid _)) fun _ => ?_
  refine Triple.bind (at_of_keeps ?_) fun _ => ?_
  · have hcheat : Keeps (@Seller.cheat Point)
        (Seller.acceptT1 ec clients.seller st₀.buyer.singleBuyer.t1) := by
      refine Keeps.bind (Keeps.modify fun _ => rfl) fun _ => ?_
      refine Keeps.bind Keeps.get fun _ => ?_
      refine Keeps.bind Keeps.lift fun _ => ?_
      refine Keeps.bind Keeps.throwIf fun _ => ?_
      exact Keeps.bind Keeps.lift fun _ => Keeps.throwIf
    exact keeps_course_onSeller hcheat
  refine Triple.get_bind fun st₁ hst₁ => Triple.of_read ?_ hst₁
  refine Triple.bind (Q := fun broadcast st => At cheat { k with phase := .paid } st ∧
    broadcast = !cheat) ?_ fun broadcast => ?_
  · exact Triple.zoom (acceptPayment_cheat clients.seller) (fun _ hst => hst.2)
      (fun _ _ _ hst hs => ⟨⟨hst.1, hs.1⟩, hs.2⟩) fun _ _ _ hst hs => ⟨_, hst.1, hs⟩
  rintro st ⟨hst, rfl⟩
  have hlast : ∀ k' : Course, k'.phase = .taken ∨ k'.phase = .paid ∧ cheat = true →
      { k' with phase := .recovering } = { k with phase := .recovering } →
      Triple (At cheat k') (record .startRecovery >>= fun _ =>
        onBuyer (Buyer.waitForSignatureOrTimeLock ec sha256 aes finish))
        (fun _ => @At Point cheat { k with phase := .recovering }) (fun _ => Going cheat) := by
    intro k' hk' hsame
    rw [← hsame]
    exact recover_onCourse hk'
  cases cheat with
  | true => exact hlast { k with phase := .paid } (Or.inr ⟨rfl, rfl⟩) rfl st hst
  | false =>
    have htaken : ∀ t2, advance false (.broadcastT2 t2) { k with phase := .paid } =
        some { k with phase := .taken } := fun _ => rfl
    exact (Triple.bind (at_record (htaken _)) fun _ =>
      hlast { k with phase := .taken } (Or.inl rfl) rfl) st hst

/-- Cut and choose is before the first event. -/
theorem keeps_course_chooseInstance [DecidableEq Point] (instanceClients : Fin T → Clients) :
    Keeps (fun st : Sale Point => (st.log, st.seller.cheat))
      (chooseInstance ec sha256 clients instanceClients ρ) :=
  keeps_chooseInstance (fun _ _ _ _ => rfl) clients instanceClients ρ

end

/-! ## Whole runs -/

section
variable [AddCommGroup Point] [DecidableEq Point] (ec : ECParameters Point) (sha256 : Sha256)
  (aes : Cipher) (msr : ModularSquareRoot) (clients : Clients) (instanceClients : Fin T → Clients)
  (side : BuyerSide Point) (ρ : SaleRandom) (finish : Finish)

/-- `exec` with a buyer that sends what it likes once the instance is chosen. -/
def execAgainst : Proc (Sale Point) Unit := do
  chooseInstance ec sha256 clients instanceClients ρ
  deliver sha256 aes msr side ρ
  pay ec sha256 aes clients finish

/-- The buyer of the source is one of them. -/
theorem exec_eq_execAgainst : exec ec sha256 aes msr clients instanceClients ρ finish =
    execAgainst ec sha256 aes msr clients instanceClients (honestSide aes ρ) ρ finish := rfl

/-- However a run ends, the automaton accepts its log; when it returns, in the last state. -/
theorem execAgainst_onCourse {cheat : Bool} : Triple (@At Point cheat Course.start)
    (execAgainst ec sha256 aes msr clients instanceClients side ρ finish)
    (fun _ st => ∃ k, At cheat k st ∧ k.phase = .recovering ∧ ∀ i, k.Due i)
    (fun _ => Going cheat) := by
  refine Triple.bind (at_of_keeps (keeps_course_chooseInstance instanceClients)) fun _ => ?_
  refine Triple.bind deliver_onCourse fun _ => ?_
  rintro st₁ ⟨k, hat, hk, hdue⟩
  refine (pay_onCourse hk hdue).conseq (fun _ h => h) ?_ (fun _ _ h => h) st₁ hat
  intro _ st₂ hat₂
  exact ⟨_, hat₂, rfl, hdue⟩

theorem final_onCourse (s : Seller Point) (b : Buyer Point) : ∃ k, OnCourse s.cheat
    (final (execAgainst ec sha256 aes msr clients instanceClients side ρ finish ⟨s, b, []⟩)).log k := by
  have hrun : Triple (@At Point s.cheat Course.start)
      (execAgainst ec sha256 aes msr clients instanceClients side ρ finish)
      (fun _ => Going s.cheat) (fun _ => Going s.cheat) :=
    (execAgainst_onCourse ec sha256 aes msr clients instanceClients side ρ finish).conseq
      (fun _ h => h) (fun _ _ ⟨k, hat, _⟩ => ⟨k, hat⟩) fun _ _ h => h
  obtain ⟨k, hat⟩ := hrun.final_of (s := ⟨s, b, []⟩) ⟨rfl, rfl⟩
  exact ⟨k, hat.1⟩

/-! ## What the buyer holds -/

section
variable {ec sha256 aes msr clients instanceClients side ρ finish} {st : Sale Point}

/-- However cut and choose ends, nothing is open of the instance that the sale goes on with. -/
theorem chooseInstance_unopened : Maintains
    (fun st : Sale Point => st.log = [] ∧ st.buyer.holdings = noHoldings)
    (chooseInstance ec sha256 clients instanceClients ρ) := by
  have hkeep : ∀ {α : Type} {m : Proc (Sale Point) α},
      Keeps (fun st : Sale Point => (st.log, st.buyer.holdings)) m →
        Maintains (fun st : Sale Point => st.log = [] ∧ st.buyer.holdings = noHoldings) m :=
    fun hm => Triple.of_keeps (I := fun v : List Event × Holdings => v.1 = [] ∧ v.2 = noHoldings) hm
  -- the instance is stored last, and that does not throw
  have herror : Triple (fun st : Sale Point => st.log = [] ∧ st.buyer.holdings = noHoldings)
      (chooseInstance ec sha256 clients instanceClients ρ) (fun _ _ => True)
      (fun _ st => st.log = [] ∧ st.buyer.holdings = noHoldings) := by
    refine Triple.bind (hkeep Keeps.lift) ?_
    rintro ⟨s, b⟩
    refine Triple.bind (hkeep Keeps.lift) fun _ => ?_
    refine Triple.bind (hkeep Keeps.lift) fun _ => ?_
    refine Triple.bind (hkeep fun _ => rfl) fun _ => ?_
    refine Triple.bind (hkeep Keeps.get) fun _ => ?_
    refine Triple.bind (hkeep Keeps.within) ?_
    rintro ⟨prover, verifier⟩
    refine Triple.bind (hkeep Keeps.throwIf) fun _ => ?_
    refine Triple.bind (hkeep Keeps.lift) fun _ => ?_
    refine Triple.bind (hkeep fun _ => rfl) fun _ => ?_
    exact Triple.bind (hkeep Keeps.lift) fun _ _ _ => trivial
  intro st hst
  have hfinal := herror st hst
  cases hr : chooseInstance ec sha256 clients instanceClients ρ st with
  | error e st' =>
    rw [hr] at hfinal
    exact hfinal
  | ok u st' =>
    obtain ⟨hlog, hheld⟩ := hst
    obtain ⟨a, b, r, s1, b1, hfresh, -, hrun, -, rfl⟩ := chooseInstance_eq_ok hr
    refine ⟨hlog, ?_⟩
    funext i item
    cases item with
    | key =>
      obtain ⟨hverified, hm⟩ := (sealed_of_exec hfresh hrun).key i
      exact Prod.ext hm hverified
    | first => exact congrFun (congrFun hheld i) .first
    | second => exact congrFun (congrFun hheld i) .second

/-- However a run ends, the buyer holds what was opened; and unless it ends before the payment, it
has accepted that. -/
theorem execAgainst_matches (hside : side.KeepsHoldings) : Triple
    (fun st : Sale Point => st.log = [] ∧ st.buyer.holdings = noHoldings)
    (execAgainst ec sha256 aes msr clients instanceClients side ρ finish)
    (fun _ st => Matches noHoldings st.log st.buyer.holdings ∧ Accepted st.log st.buyer.holdings)
    (fun _ st => Matches noHoldings st.log st.buyer.holdings ∧
      ((∃ t1, Event.broadcastT1 t1 ∈ st.log) → Accepted st.log st.buyer.holdings)) := by
  have hquiet : ∀ st : Sale Point, st.log = [] ∧ st.buyer.holdings = noHoldings →
      Unopened noHoldings st.log st.buyer.holdings := by
    rintro st ⟨hlog, hheld⟩
    rw [hlog]
    exact ⟨fun _ h => absurd h List.not_mem_nil, hheld⟩
  refine Triple.bind (chooseInstance_unopened.conseq (fun _ h => h) (fun _ _ h => h)
    fun _ st h => ?_) fun _ => ?_
  · exact ⟨(Unopened.told (s := st.seller) (hquiet st h)).matches, fun _ => (hquiet st h).accepted⟩
  refine Triple.bind (Q := fun _ st => Matches noHoldings st.log st.buyer.holdings ∧
    Accepted st.log st.buyer.holdings) ?_ fun _ =>
      pay_matches.conseq (fun _ h => h) (fun _ _ h => h) fun _ _ h => ⟨h.1, fun _ => h.2⟩
  intro st hst
  have hmatches := @deliver_matches Point sha256 aes msr side ρ noHoldings hside st (hquiet st hst)
  have hsettled := @keeps_settled_deliver Point sha256 aes msr side ρ st
  cases hr : deliver sha256 aes msr side ρ st with
  | ok u st' =>
    rw [hr] at hmatches
    exact hmatches
  | error e st' =>
    rw [hr] at hmatches hsettled
    refine ⟨hmatches, ?_⟩
    -- nothing is paid before the last part
    rintro ⟨t1, hmem⟩
    have hnone : payments st' = [] := by
      refine (congrArg Prod.fst hsettled).trans ?_
      rw [settled, payments, hst.1]
      rfl
    exact absurd hmem (not_mem_of_payments hnone rfl)

end

/-! ## What the network took -/

/-- The services have taken the transactions that are in the log. -/
def Taken (clients : Clients) (log : List Event) : Prop :=
  (∀ t1, Event.broadcastT1 t1 ∈ log → clients.buyer.broadcastTransaction t1 = .ok true) ∧
    ∀ t2, Event.broadcastT2 t2 ∈ log → clients.seller.broadcastTransaction t2 = .ok true

section
variable {ec sha256 aes msr clients instanceClients side ρ finish} {log : List Event}

theorem Taken.concat {e : Event} (h : Taken clients log)
    (h1 : ∀ t1, e = .broadcastT1 t1 → clients.buyer.broadcastTransaction t1 = .ok true)
    (h2 : ∀ t2, e = .broadcastT2 t2 → clients.seller.broadcastTransaction t2 = .ok true) :
    Taken clients (log ++ [e]) := by
  refine ⟨fun t1 hmem => ?_, fun t2 hmem => ?_⟩
  · rcases List.mem_append.1 hmem with hold | hnew
    · exact h.1 t1 hold
    · exact h1 t1 (List.mem_singleton.1 hnew).symm
  · rcases List.mem_append.1 hmem with hold | hnew
    · exact h.2 t2 hold
    · exact h2 t2 (List.mem_singleton.1 hnew).symm

theorem taken_filter : Taken clients (log.filter Event.isLate) ↔ Taken clients log := by
  simp [Taken, List.mem_filter, Event.isLate]

omit [AddCommGroup Point] [DecidableEq Point] in
/-- The delivery broadcasts nothing. -/
theorem deliver_taken : Maintains (fun st : Sale Point => Taken clients st.log)
    (deliver sha256 aes msr side ρ) := by
  have hkeeps : Keeps (fun st : Sale Point => st.log.filter Event.isLate)
      (deliver sha256 aes msr side ρ) := by
    refine keeps_deliver ⟨?_, fun _ _ => Keeps.zoom fun _ _ => rfl, ?_, Keeps.zoom fun _ _ => rfl,
      Keeps.zoom fun _ _ => rfl, fun _ _ _ => Keeps.zoom fun _ _ => rfl⟩ ρ
    · intro e he st
      simp [record_apply, List.filter_append, he]
    · intro st item i s r
      rfl
  have hrun := Triple.of_keeps (I := Taken clients) hkeeps
  simpa only [taken_filter] using hrun

omit [DecidableEq Point] in
/-- What the payment logs as broadcast, the services have taken. -/
theorem pay_taken : Maintains (fun st : Sale Point => Taken clients st.log)
    (pay ec sha256 aes clients finish) := by
  have hkeep : ∀ {α : Type} {m : Proc (Sale Point) α}, Keeps Sale.log m →
      Maintains (fun st => Taken clients st.log) m := fun hm => Triple.of_keeps (I := Taken clients) hm
  refine Triple.get_bind fun st₀ hst₀ => Triple.of_read (P := fun st => Taken clients st.log) ?_ hst₀
  refine Triple.bind (Q := fun _ st => Taken clients st.log ∧
    clients.buyer.broadcastTransaction st₀.buyer.singleBuyer.t1 = .ok true)
    (Triple.lift (fun _ hpaid _ hst => ⟨hst, makePayment_eq_ok.1 hpaid⟩) fun _ _ _ hst => hst)
    fun _ => ?_
  refine Triple.bind (Q := fun _ st => Taken clients st.log) (Triple.modify fun st hst => ?_)
    fun _ => ?_
  · refine hst.1.concat (fun t1 ht1 => ?_) fun t2 ht2 => by cases ht2
    cases ht1
    exact hst.2
  refine Triple.bind (hkeep (Keeps.zoom fun _ _ => rfl)) fun _ => ?_
  refine Triple.get_bind fun st₁ hst₁ => ?_
  have hlast : Maintains (fun st : Sale Point => Taken clients st.log)
      (record .startRecovery >>= fun _ =>
        onBuyer (Buyer.waitForSignatureOrTimeLock ec sha256 aes finish)) := by
    refine Triple.bind (Triple.modify fun st hst => ?_) fun _ => hkeep (Keeps.zoom fun _ _ => rfl)
    exact hst.concat (fun _ h => by cases h) fun _ h => by cases h
  refine Triple.bind (Q := fun broadcast st => Taken clients st.log ∧ (broadcast = true →
    clients.seller.broadcastTransaction st₁.seller.singleSeller.t2 = .ok true)) ?_ fun broadcast => ?_
  · rintro st rfl
    cases hr : Seller.acceptPayment clients.seller st.seller with
    | error e s =>
      rw [onSeller, zoom, hr]
      exact hst₁
    | ok broadcast s =>
      rw [onSeller, zoom, hr]
      refine ⟨hst₁, ?_⟩
      rintro rfl
      rcases acceptPayment_eq_ok.1 hr with ⟨-, ⟨-, hfalse⟩ | ⟨-, hsent, -⟩⟩
      · cases hfalse
      · exact hsent
  cases broadcast with
  | false => exact hlast.conseq (fun _ h => h.1) (fun _ _ h => h) (fun _ _ h => h)
  | true =>
    refine Triple.bind (Triple.modify fun st hst => ?_) fun _ => hlast
    refine hst.1.concat (fun t1 ht1 => by cases ht1) fun t2 ht2 => ?_
    cases ht2
    exact hst.2 rfl

theorem final_taken (s : Seller Point) (b : Buyer Point) : Taken clients (final
    (execAgainst ec sha256 aes msr clients instanceClients side ρ finish ⟨s, b, []⟩)).log := by
  have hchoose : Maintains (fun st : Sale Point => Taken clients st.log)
      (chooseInstance ec sha256 clients instanceClients ρ) :=
    Triple.of_keeps (I := Taken clients)
      (keeps_chooseInstance (f := Sale.log) (fun _ _ _ _ => rfl) clients instanceClients ρ)
  have hrun : Maintains (fun st : Sale Point => Taken clients st.log)
      (execAgainst ec sha256 aes msr clients instanceClients side ρ finish) :=
    Triple.bind hchoose fun _ => Triple.bind deliver_taken fun _ => pay_taken
  exact hrun.final_of (s := ⟨s, b, []⟩) ⟨fun _ h => absurd h List.not_mem_nil,
    fun _ h => absurd h List.not_mem_nil⟩

end

/-- What is opened of a log is opened of a prefix, where the items were opened as often in it. -/
theorem mem_event_of_opens_eq {soFar rest : List Event}
    (h : ∀ i item, opens (soFar ++ rest) i item = opens soFar i item) (i : Fin L) (item : Item)
    (m : Bytes) : item.event i m ∈ soFar ++ rest ↔ item.event i m ∈ soFar := by
  refine ⟨fun hmem => ?_, fun hmem => List.mem_append_left _ hmem⟩
  rcases List.mem_append.1 hmem with hold | hnew
  · exact hold
  · have hcount := h i item
    unfold opens at hcount
    rw [List.countP_append] at hcount
    have hnone : rest.countP (fun e => e.opens = some (i, item)) = 0 := by omega
    exact absurd (by simp [Item.opens_event]) (List.countP_eq_zero.1 hnone _ hnew)

/-- **The course of a sale.**  Whatever the buyer sends, whatever the services answer and however
the run ends, the automaton accepts every prefix of what it has logged; a run that returns has
come to the last state, with everything open that is due; and a buyer that held nothing before
and does not write into its ends of the commitments holds in the end what was opened, accepted
where the run returns. -/
theorem log_onCourse (s : Seller Point) (b : Buyer Point) :
    let out := execAgainst ec sha256 aes msr clients instanceClients side ρ finish ⟨s, b, []⟩
    (∀ soFar, soFar <+: (final out).log → ∃ k, OnCourse s.cheat soFar k) ∧
      (∀ st', out = .ok () st' →
        ∃ k, OnCourse s.cheat st'.log k ∧ k.phase = .recovering ∧ ∀ i, k.Due i) ∧
      (side.KeepsHoldings → b.holdings = noHoldings →
        Matches noHoldings (final out).log (final out).buyer.holdings ∧
          ∀ st', out = .ok () st' → Accepted st'.log st'.buyer.holdings) := by
  intro out
  refine ⟨?_, ?_, ?_⟩
  · intro soFar hpre
    obtain ⟨k, hk⟩ := final_onCourse ec sha256 aes msr clients instanceClients side ρ finish s b
    exact Schedule.exists_run_of_prefix hpre hk
  · intro st' hok
    obtain ⟨k, hat, hk⟩ := (@execAgainst_onCourse Point _ _ ec sha256 aes msr clients
      instanceClients side ρ finish s.cheat).of_ok (s := ⟨s, b, []⟩) ⟨rfl, rfl⟩ hok
    exact ⟨k, hat.1, hk⟩
  · intro hside hb
    have hrun := @execAgainst_matches Point _ _ ec sha256 aes msr clients instanceClients side ρ
      finish hside
    refine ⟨?_, fun st' hok => (hrun.of_ok (s := ⟨s, b, []⟩) ⟨rfl, hb⟩ hok).2⟩
    exact (hrun.conseq (fun _ h => h) (fun _ _ h => h.1) fun _ _ h => h.1).final_of ⟨rfl, hb⟩

/-- A buyer that has just been built holds nothing. -/
theorem holdings_fifteen (price : UInt32) : (fifteenSale price).buyer.holdings = noHoldings := by
  funext i item
  cases item <;> simp [Buyer.holdings, noHoldings, Item.receiver, fifteenSale, Buyer.new,
    smallParties, SingleBuyer.new, ShaCommitment.Receiver.new]

/-- `log_onCourse` for an honest sale of fifteen, which gets to the payment. -/
theorem log_onCourse_fifteen :
    let out := final (execAgainst SharedSignature.order7 (fun _ => Vector.replicate 32 0)
      Cipher.padding searchRoot ⟨zeroClient, zeroClient⟩ (fun _ => ⟨zeroClient, zeroClient⟩)
      (honestSide Cipher.padding fifteenRandom) fifteenRandom .timeLock (fifteenSale 20000))
    (∃ t1, Event.broadcastT1 t1 ∈ out.log) ∧ (∃ k, OnCourse false out.log k) ∧
      Matches noHoldings out.log out.buyer.holdings := by
  obtain ⟨honCourse, -, hheld⟩ := log_onCourse SharedSignature.order7
    (fun _ => Vector.replicate 32 0) Cipher.padding searchRoot ⟨zeroClient, zeroClient⟩
    (fun _ => ⟨zeroClient, zeroClient⟩) (honestSide Cipher.padding fifteenRandom) fifteenRandom
    .timeLock (fifteenSale 20000).seller (fifteenSale 20000).buyer
  exact ⟨paid_fifteen, honCourse _ List.prefix_rfl,
    (hheld keepsHoldings_honestSide (holdings_fifteen 20000)).1⟩

/-- **What is paid for.**  In every run, when the buyer broadcasts `T1` it has been opened, exactly
once, the key and one ciphertext of every index of the subset and both ciphertexts of the others,
and after that nothing more is opened; a buyer that held nothing before and does not write into
its ends of the commitments holds what has been opened by then, and has accepted it.
`T2` is broadcast only after `T1` and never by a seller that cheats; and what is broadcast the
services have taken. -/
theorem paid_complete (s : Seller Point) (b : Buyer Point) :
    let out := final (execAgainst ec sha256 aes msr clients instanceClients side ρ finish ⟨s, b, []⟩)
    (∀ soFar t1 rest, out.log = soFar ++ Event.broadcastT1 t1 :: rest →
      (∃ indices values, Event.subset indices values ∈ soFar ∧ ∀ i : Fin L,
        (if (i : ℕ) ∈ indices.toList
          then opens soFar i .key = 1 ∧ opens soFar i .first + opens soFar i .second = 1
          else opens soFar i .key = 0 ∧ opens soFar i .first = 1 ∧ opens soFar i .second = 1) ∧
        ∀ item, opens out.log i item = opens soFar i item) ∧
      (side.KeepsHoldings → b.holdings = noHoldings →
        Matches noHoldings soFar out.buyer.holdings ∧ Accepted soFar out.buyer.holdings)) ∧
    (∀ soFar t2 rest, out.log = soFar ++ Event.broadcastT2 t2 :: rest →
      s.cheat = false ∧ ∃ t1, Event.broadcastT1 t1 ∈ soFar) ∧ Taken clients out.log := by
  intro out
  obtain ⟨k, hk⟩ := final_onCourse ec sha256 aes msr clients instanceClients side ρ finish s b
  refine ⟨?_, ?_, final_taken s b⟩
  · intro soFar t1 rest hlog
    have hfull : OnCourse s.cheat (soFar ++ Event.broadcastT1 t1 :: rest) k := hlog ▸ hk
    obtain ⟨k0, hk0, hopening, hdue, hsame⟩ := due_of_paid hfull
    obtain ⟨indices, values, hmem, hsubset⟩ := subset_noted hk0 ⟨by simp [hopening], by simp [hopening]⟩
    have hopens : ∀ i item, opens out.log i item = opens soFar i item := fun i item => by
      rw [count_opens hk0, count_opens hk, hsame]
    refine ⟨⟨indices, values, hmem, fun i => ⟨?_, hopens i⟩⟩, fun hside hb => ?_⟩
    · have hitems := opens_of_due hk0 (hdue i)
      rwa [hsubset] at hitems
    · have hend := ((@execAgainst_matches Point _ _ ec sha256 aes msr clients instanceClients side ρ
        finish hside).conseq (fun _ h => h) (fun _ _ h => ⟨h.1, fun _ => h.2⟩)
          fun _ _ h => h).final_of (s := ⟨s, b, []⟩) ⟨rfl, hb⟩
      have hsoFar : ∀ i (item : Item) m, item.event i m ∈ soFar ↔ item.event i m ∈ out.log := by
        intro i item m
        rw [hlog]
        exact (mem_event_of_opens_eq (fun i item => hlog ▸ hopens i item) i item m).symm
      exact ⟨hend.1.congr hsoFar, (hend.2 ⟨t1, by rw [hlog]; simp⟩).congr hsoFar⟩
  · intro soFar t2 rest hlog
    have hfull : OnCourse s.cheat (soFar ++ Event.broadcastT2 t2 :: rest) k := hlog ▸ hk
    exact paid_of_taken hfull

/-- `paid_complete` at the payment of the same sale. -/
theorem paid_complete_fifteen :
    let out := final (execAgainst SharedSignature.order7 (fun _ => Vector.replicate 32 0)
      Cipher.padding searchRoot ⟨zeroClient, zeroClient⟩ (fun _ => ⟨zeroClient, zeroClient⟩)
      (honestSide Cipher.padding fifteenRandom) fifteenRandom .timeLock (fifteenSale 20000))
    ∃ soFar t1 rest, out.log = soFar ++ Event.broadcastT1 t1 :: rest ∧
      Matches noHoldings soFar out.buyer.holdings ∧ Accepted soFar out.buyer.holdings := by
  obtain ⟨t1, hmem⟩ := paid_fifteen
  obtain ⟨soFar, rest, hlog⟩ := List.append_of_mem hmem
  have hpaid := (paid_complete SharedSignature.order7
    (fun _ => Vector.replicate 32 0) Cipher.padding searchRoot ⟨zeroClient, zeroClient⟩
    (fun _ => ⟨zeroClient, zeroClient⟩) (honestSide Cipher.padding fifteenRandom) fifteenRandom
    .timeLock (fifteenSale 20000).seller (fifteenSale 20000).buyer).1 soFar t1 rest hlog
  exact ⟨soFar, t1, rest, hlog, hpaid.2 keepsHoldings_honestSide (holdings_fifteen 20000)⟩

end

end SellingInformation.Main
