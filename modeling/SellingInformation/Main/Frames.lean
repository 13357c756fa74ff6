import SellingInformation.Main.SellInformation

/-!
# What the steps of a sale leave alone

The key and the two ciphertexts of an index are committed to and opened in the same way, so what
is said of one of them is said here of an `Item`.  The parts of a run are put together from few
kinds of steps; each rule says that a part keeps up what its steps keep up.

* `onItem_eq_zoom`, `final_onItem_open` — a step on the commitment to one item;
* `triple_openRoot`, `triple_openBoth` — a round of each loop, from its openings;
* `triple_commitRoots`, `triple_openRoots` — the two halves of the delivery, from `CommitSteps`
  and `OpenSteps`;
* `keeps_answerSquares`, `keeps_deliver`, `keeps_chooseInstance` — the parts of the state that no
  step looks at.
-/

namespace SellingInformation.Main

open CryptoPP Common Fallible SellInformationProtocol

variable {Point : Type}

/-! ## The items of an index -/

/-- The three things that can be opened of an index. -/
inductive Item
  | key
  | first
  | second
  deriving DecidableEq, Repr

namespace Item

/-- The opening of an item, as an event. -/
def event (i : Fin L) : Item → Bytes → Event
  | .key, m => .openKey i m
  | .first, m => .openD1 i m
  | .second, m => .openD2 i m

/-- The seller's end of the commitment to an item. -/
def sender (s : Seller Point) (i : Fin L) : Item → ShaCommitment.Sender
  | .key => s.singleSeller.keysCommits[i]
  | .first => s.d1[i]
  | .second => s.d2[i]

/-- The buyer's end of it. -/
def receiver (b : Buyer Point) (i : Fin L) : Item → ShaCommitment.Receiver
  | .key => b.singleBuyer.keysCommits[i]
  | .first => b.d1[i]
  | .second => b.d2[i]

def setSender (i : Fin L) (c : ShaCommitment.Sender) (s : Seller Point) : Item → Seller Point
  | .key => { s with singleSeller := { s.singleSeller with
      keysCommits := s.singleSeller.keysCommits.set i c i.isLt } }
  | .first => { s with d1 := s.d1.set i c i.isLt }
  | .second => { s with d2 := s.d2.set i c i.isLt }

def setReceiver (i : Fin L) (c : ShaCommitment.Receiver) (b : Buyer Point) : Item → Buyer Point
  | .key => { b with singleBuyer := { b.singleBuyer with
      keysCommits := b.singleBuyer.keysCommits.set i c i.isLt } }
  | .first => { b with d1 := b.d1.set i c i.isLt }
  | .second => { b with d2 := b.d2.set i c i.isLt }

section
variable {i j : Fin L} {item item' : Item} {m m' : Bytes}

theorem event_inj : item.event i m = item'.event j m' ↔ i = j ∧ item = item' ∧ m = m' := by
  cases item <;> cases item' <;> simp [event]

theorem not_quiet_event : ¬ (item.event i m).Quiet := by
  cases item <;> exact id

theorem receiver_setReceiver (c : ShaCommitment.Receiver) (b : Buyer Point) :
    item'.receiver (item.setReceiver i c b) j =
      if j = i ∧ item' = item then c else item'.receiver b j := by
  cases item <;> cases item' <;>
    simp [receiver, setReceiver, Vector.getElem_set, Fin.ext_iff, eq_comm (a := (j : ℕ))]

theorem setSender_sender (s : Seller Point) : item.setSender i (item.sender s i) s = s := by
  cases item <;> simp [sender, setSender]

end

end Item

/-- What an event opens. -/
def Event.opens : Event → Option (Fin L × Item)
  | .openKey i _ => some (i, .key)
  | .openD1 i _ => some (i, .first)
  | .openD2 i _ => some (i, .second)
  | _ => none

theorem Item.opens_event (item : Item) (i : Fin L) (m : Bytes) :
    (item.event i m).opens = some (i, item) := by
  cases item <;> rfl

/-- Run a program on the commitment to an item of an index. -/
def onItem {α : Type} (item : Item) (i : Fin L)
    (m : Proc (ShaCommitment.Sender × ShaCommitment.Receiver) α) : Proc (Sale Point) α :=
  match item with
  | .key => onSingle (onKeysCommit i m)
  | .first => onD1 i m
  | .second => onD2 i m

/-- Open an item: the log has it before the buyer does. -/
def openItem (sha256 : Sha256) (item : Item) (i : Fin L) : Proc (Sale Point) Unit := do
  let st ← get
  record (item.event i (item.sender st.seller i).m)
  onItem item i (ShaCommitment.open sha256)

theorem onItem_eq_zoom {α : Type} (item : Item) (i : Fin L)
    (m : Proc (ShaCommitment.Sender × ShaCommitment.Receiver) α) :
    (onItem item i m : Proc (Sale Point) α) =
      zoom (fun st => (item.sender st.seller i, item.receiver st.buyer i))
        (fun t st => { st with seller := item.setSender i t.1 st.seller
                               buyer := item.setReceiver i t.2 st.buyer }) m := by
  funext st
  cases item with
  | key =>
    unfold onItem onSingle onKeysCommit zoom
    simp only [Item.sender, Item.receiver]
    cases m (st.seller.singleSeller.keysCommits[i], st.buyer.singleBuyer.keysCommits[i]) <;> rfl
  | first => rfl
  | second => rfl

section
variable {sha256 : Sha256} {item : Item} {i : Fin L} {st st' : Sale Point}

/-- However an opening ends, it changes the buyer's end of this commitment alone. -/
theorem final_onItem_open (st : Sale Point) : final (onItem item i (ShaCommitment.open sha256) st) =
    { st with buyer := item.setReceiver i (ShaCommitment.opened (item.sender st.seller i)
        (item.receiver st.buyer i) (decide ((item.receiver st.buyer i).com =
          ShaCommitment.computeSha sha256 (item.sender st.seller i).m
            (item.sender st.seller i).seed))) st.buyer } := by
  have hopen := @ShaCommitment.open_frame sha256 (item.sender st.seller i) (item.receiver st.buyer i)
  rw [onItem_eq_zoom, zoom]
  cases hr : ShaCommitment.open sha256 (item.sender st.seller i, item.receiver st.buyer i) with
  | ok u t =>
    rw [hr, final_ok] at hopen
    simp only [final_ok, hopen, Item.setSender_sender]
  | error e t =>
    rw [hr, final_error] at hopen
    simp only [final_error, hopen, Item.setSender_sender]

/-- An opening that returns was accepted. -/
theorem onItem_open_eq_ok {u : Unit} (h : onItem item i (ShaCommitment.open sha256) st = .ok u st') :
    st' = { st with buyer := item.setReceiver i (ShaCommitment.opened (item.sender st.seller i)
      (item.receiver st.buyer i) true) st.buyer } := by
  rw [onItem_eq_zoom, zoom_eq_ok] at h
  obtain ⟨⟨s, r⟩, hopen, rfl⟩ := h
  obtain ⟨-, rfl, rfl⟩ := ShaCommitment.open_eq_ok_iff.1 hopen
  rw [Item.setSender_sender]

end

/-! ## The rounds of openings -/

/-- The ciphertext that a round over the subset opens. -/
def Item.ofCommitInd (commitInd : ℕ) : Option Item :=
  if commitInd = 1 then some .first else if commitInd = 2 then some .second else none

theorem Item.ofCommitInd_eq_some {c : ℕ} {item : Item} (h : Item.ofCommitInd c = some item) :
    c = 1 ∧ item = .first ∨ c = 2 ∧ item = .second := by
  unfold ofCommitInd at h
  split at h
  · next h1 => exact Or.inl ⟨h1, (Option.some.inj h).symm⟩
  split at h
  · next h2 => exact Or.inr ⟨h2, (Option.some.inj h).symm⟩
  · cases h

section
variable {sha256 : Sha256} {side : BuyerSide Point} {ind : Fin L} {c : ℕ}
  {P Q R : Sale Point → Prop} {E : Exn → Sale Point → Prop}

/-- The two steps of an opening, from a state that was read. -/
theorem openItem_of_read {item : Item} (h : Triple P (openItem sha256 item ind) (fun _ => Q) E)
    {st₀ : Sale Point} (hst₀ : P st₀) :
    Triple (fun st => st = st₀) (record (item.event ind (item.sender st₀.seller ind).m) >>= fun _ =>
      onItem item ind (ShaCommitment.open sha256)) (fun _ => Q) E := by
  rintro st rfl
  exact h st hst₀

/-- A round over the subset: the key, then the ciphertext with this number, which the buyer looks
at; a number that none of the two has is refused. -/
theorem triple_openRoot (hkey : Triple P (openItem sha256 .key ind) (fun _ => Q) E)
    (hopens : ∀ item, Item.ofCommitInd c = some item →
      Triple Q (openItem sha256 item ind) (fun _ => R) E)
    (hverifies : ∀ key m, Triple R (onBuyer (side.verifyRoot ind key m)) (fun _ => R) E)
    (hthrows : ∀ e st, Q st → E e st) :
    Triple P (openRoot sha256 side ind c) (fun _ => R) E := by
  refine Triple.get_bind fun st₀ hst₀ => ?_
  rw [← bind_assoc]
  refine Triple.bind (openItem_of_read hkey hst₀) fun _ => ?_
  refine Triple.get_bind fun st₁ hst₁ => ?_
  dsimp only
  by_cases h1 : c = 1
  · rw [if_pos h1, ← bind_assoc]
    have hitem := hopens .first (by simp [Item.ofCommitInd, h1])
    refine Triple.bind (openItem_of_read hitem hst₁) fun _ => ?_
    exact Triple.get_bind fun st₂ hst₂ => (hverifies _ _).of_read hst₂
  rw [if_neg h1]
  by_cases h2 : c = 2
  · rw [if_pos h2, ← bind_assoc]
    have hitem := hopens .second (by simp [Item.ofCommitInd, h2])
    refine Triple.bind (openItem_of_read hitem hst₁) fun _ => ?_
    exact Triple.get_bind fun st₂ hst₂ => (hverifies _ _).of_read hst₂
  rw [if_neg h2]
  exact Triple.throw fun st hst => hthrows _ st (hst ▸ hst₁)

/-- A round over the other indices: the two ciphertexts. -/
theorem triple_openBoth (hfirst : Triple P (openItem sha256 .first ind) (fun _ => Q) E)
    (hsecond : Triple Q (openItem sha256 .second ind) (fun _ => R) E) :
    Triple P (openBoth sha256 ind) (fun _ => R) E := by
  refine Triple.get_bind fun st₀ hst₀ => ?_
  rw [← bind_assoc]
  refine Triple.bind (openItem_of_read hfirst hst₀) fun _ => ?_
  exact Triple.get_bind fun st₁ hst₁ => openItem_of_read hsecond hst₁

/-- A round over the subset whose openings pass comes to the check of the buyer. -/
theorem openRoot_of_openings {item : Item} {st st1 st2 : Sale Point}
    (hkey : openItem sha256 .key ind st = .ok () st1) (hitem : Item.ofCommitInd c = some item)
    (hopen : openItem sha256 item ind st1 = .ok () st2) :
    openRoot sha256 side ind c st = onBuyer (side.verifyRoot ind
      (Item.key.receiver st1.buyer ind).m (item.receiver st2.buyer ind).m) st2 := by
  unfold openItem at hkey hopen
  rw [bind_of_ok (get_apply _)] at hkey hopen
  unfold openRoot
  simp only [Item.event, Item.sender, onItem] at hkey
  rw [bind_of_ok (get_apply st), ← bind_assoc, bind_of_ok hkey, bind_of_ok (get_apply _)]
  rcases Item.ofCommitInd_eq_some hitem with ⟨rfl, rfl⟩ | ⟨rfl, rfl⟩
  · simp only [Item.event, Item.sender, onItem] at hopen
    rw [if_pos rfl, ← bind_assoc, bind_of_ok hopen, bind_of_ok (get_apply _)]
    rfl
  · simp only [Item.event, Item.sender, onItem] at hopen
    rw [if_neg (by decide), if_pos rfl, ← bind_assoc, bind_of_ok hopen, bind_of_ok (get_apply _)]
    rfl

theorem openBoth_of_opening {st st1 : Sale Point} (h : openItem sha256 .first ind st = .ok () st1) :
    openBoth sha256 ind st = openItem sha256 .second ind st1 := by
  unfold openItem at h ⊢
  rw [bind_of_ok (get_apply _)] at h
  simp only [Item.event, Item.sender, onItem] at h
  unfold openBoth
  rw [bind_of_ok (get_apply _), ← bind_assoc, bind_of_ok h]
  rfl

end

/-! ## The delivery -/

section
variable {sha256 : Sha256} {aes : Cipher} {msr : ModularSquareRoot} {side : BuyerSide Point}
  {ρ : SaleRandom} {I : Sale Point → Prop} {E : Exn → Sale Point → Prop}

/-- What each step up to the commitments maintains, where a step that throws leaves `E`. -/
structure CommitSteps (sha256 : Sha256) (aes : Cipher) (msr : ModularSquareRoot)
    (side : BuyerSide Point) (ρ : SaleRandom) (I : Sale Point → Prop)
    (E : Exn → Sale Point → Prop) : Prop where
  squares : Triple I (onBuyer side.squares) (fun _ => I) E
  asks : ∀ y, Triple I (record (.squares y)) (fun _ => I) E
  answers : ∀ y, Triple I (onSeller (Seller.answerSquares msr aes ρ.swap y)) (fun _ => I) E
  commits : ∀ item i seed, Triple I (onItem item i (ShaCommitment.exec sha256 seed)) (fun _ => I) E

theorem triple_commitRoots (h : CommitSteps sha256 aes msr side ρ I E) :
    Triple I (commitRoots sha256 aes msr side ρ) (fun _ => I) E := by
  refine Triple.bind h.squares fun y => ?_
  refine Triple.bind (h.asks y) fun _ => ?_
  refine Triple.bind (h.answers y) fun _ => ?_
  refine Triple.forM_invariant ?_
  intro i _
  exact Triple.bind (h.commits .first i _) fun _ => h.commits .second i _

/-- What each step from the choice of the subset on maintains. -/
structure OpenSteps (sha256 : Sha256) (side : BuyerSide Point) (I : Sale Point → Prop)
    (E : Exn → Sale Point → Prop) : Prop where
  subset : Triple I (onBuyer side.subset) (fun _ => I) E
  picks : ∀ indices values, Triple I (record (.subset indices values)) (fun _ => I) E
  opens : ∀ item i, Triple I (openItem sha256 item i) (fun _ => I) E
  verifies : ∀ i key c, Triple I (onBuyer (side.verifyRoot i key c)) (fun _ => I) E
  throws : ∀ e st, I st → E e st

namespace OpenSteps

variable (h : OpenSteps sha256 side I E)
include h

theorem lift {α : Type} {x : Except Exn α} : Triple I (Fallible.lift x) (fun _ => I) E :=
  Triple.lift (fun _ _ _ hst => hst) fun e _ st hst => h.throws e st hst

theorem openRoot (ind : Fin L) (c : ℕ) : Triple I (openRoot sha256 side ind c) (fun _ => I) E :=
  triple_openRoot (h.opens .key ind) (fun item _ => h.opens item ind) (h.verifies ind) h.throws

theorem openBoth (ind : Fin L) : Triple I (openBoth sha256 ind) (fun _ => I) E :=
  triple_openBoth (h.opens .first ind) (h.opens .second ind)

end OpenSteps

theorem triple_openRoots (h : OpenSteps sha256 side I E) :
    Triple I (openRoots sha256 side) (fun _ => I) E := by
  refine Triple.bind h.subset ?_
  rintro ⟨indices, values⟩
  refine Triple.bind (h.picks indices values) fun _ => ?_
  refine Triple.bind h.lift fun inds => ?_
  refine Triple.bind (Triple.get fun _ hst => hst) fun st => ?_
  refine Triple.bind h.lift fun commitInds => ?_
  refine Triple.bind (Triple.forM_invariant fun e _ => h.openRoot e.1 e.2) fun _ => ?_
  refine Triple.forM_invariant fun ind _ => ?_
  by_cases hind : ind ∈ inds
  · rw [if_pos hind]
    exact Triple.pure fun _ hst => hst
  · rw [if_neg hind]
    exact h.openBoth ind

end

/-! ## What the steps do not look at -/

/-- An event of the payment, or of what follows it. -/
def Event.isLate : Event → Bool
  | .broadcastT1 _ => true
  | .broadcastT2 _ => true
  | .startRecovery => true
  | _ => false

section
variable {γ : Type} {sha256 : Sha256} {aes : Cipher} {msr : ModularSquareRoot}
  {side : BuyerSide Point} {ρ : SaleRandom}

/-- The answer to the squares writes these members of the seller. -/
theorem keeps_answerSquares {f : Seller Point → γ} (h : ∀ (s : Seller Point) y r1 r2 c1 c2 d1 d2,
    f { s with y, r1, r2, c1, c2, d1, d2 } = f s) (swap : Fin L → Bool) (y : Vector ℤ L) :
    Keeps f (Seller.answerSquares msr aes swap y) := by
  refine Keeps.bind (Keeps.modify fun s => h s ..) fun _ => ?_
  refine Keeps.bind (Keeps.forM fun i _ => ?_) fun _ => ?_
  · refine Keeps.bind Keeps.get fun _ => ?_
    refine Keeps.bind Keeps.lift fun _ => ?_
    refine Keeps.bind Keeps.lift fun _ => ?_
    exact Keeps.bind Keeps.lift fun _ => Keeps.modify fun s => h s ..
  refine Keeps.bind (Keeps.forM fun i _ => ?_) fun _ => Keeps.modify fun s => h s ..
  refine Keeps.bind Keeps.get fun _ => ?_
  refine Keeps.bind Keeps.lift fun _ => ?_
  refine Keeps.bind (Keeps.modify fun s => h s ..) fun _ => ?_
  exact Keeps.bind Keeps.lift fun _ => Keeps.modify fun s => h s ..

theorem keeps_onItem {α : Type} {f : Sale Point → γ} {item : Item} {i : Fin L}
    (h : ∀ (st : Sale Point) s r, f { st with seller := item.setSender i s st.seller
                                              buyer := item.setReceiver i r st.buyer } = f st)
    (m : Proc (ShaCommitment.Sender × ShaCommitment.Receiver) α) : Keeps f (onItem item i m) := by
  rw [onItem_eq_zoom]
  exact Keeps.zoom fun t st => h st t.1 t.2

/-- A part of the state that no step of the delivery looks at. -/
structure Aside (aes : Cipher) (msr : ModularSquareRoot) (side : BuyerSide Point)
    (f : Sale Point → γ) : Prop where
  records : ∀ e, e.isLate = false → Keeps f (record e)
  answers : ∀ swap y, Keeps f (onSeller (Seller.answerSquares msr aes swap y))
  items : ∀ (st : Sale Point) item i s r, f { st with
    seller := Item.setSender i s st.seller item, buyer := Item.setReceiver i r st.buyer item } = f st
  squares : Keeps f (onBuyer side.squares)
  subset : Keeps f (onBuyer side.subset)
  verifies : ∀ i key c, Keeps f (onBuyer (side.verifyRoot i key c))

/-- What no step looks at, the delivery keeps. -/
theorem keeps_deliver {f : Sale Point → γ} (h : Aside aes msr side f) (ρ : SaleRandom) :
    Keeps f (deliver sha256 aes msr side ρ) := by
  have hstep : ∀ {α : Type} {m : Proc (Sale Point) α} (v : γ), Keeps f m →
      Maintains (fun st => f st = v) m := fun v hm => Triple.of_keeps (I := fun w => w = v) hm
  have hcommit : ∀ v, CommitSteps sha256 aes msr side ρ (fun st => f st = v) (fun _ st => f st = v) :=
    fun v =>
      { squares := hstep v h.squares
        asks := fun y => hstep v (h.records _ rfl)
        answers := fun y => hstep v (h.answers _ _)
        commits := fun item i seed => hstep v (keeps_onItem (fun st => h.items st item i) _) }
  have hopen : ∀ v, OpenSteps sha256 side (fun st => f st = v) (fun _ st => f st = v) := fun v =>
    { subset := hstep v h.subset
      picks := fun indices values => hstep v (h.records _ rfl)
      opens := fun item i => hstep v (Keeps.bind Keeps.get fun _ =>
        Keeps.bind (h.records _ (by cases item <;> rfl)) fun _ =>
          keeps_onItem (fun st => h.items st item i) _)
      verifies := fun i key c => hstep v (h.verifies i key c)
      throws := fun _ _ hst => hst }
  intro st
  exact ((triple_commitRoots (hcommit _)).bind fun _ => triple_openRoots (hopen _)).final_of rfl

end

section
variable [AddCommGroup Point] [DecidableEq Point] {γ : Type} {f : Sale Point → γ}
  {ec : ECParameters Point} {sha256 : Sha256}

/-- Cut and choose changes the drawn index and the chosen pair. -/
theorem keeps_chooseInstance (h : ∀ (st : Sale Point) r singleSeller singleBuyer,
    f { st with seller := { st.seller with singleSeller }
                buyer := { st.buyer with r, singleBuyer } } = f st)
    (clients : Clients) (instanceClients : Fin T → Clients) (ρ : SaleRandom) :
    Keeps f (chooseInstance ec sha256 clients instanceClients ρ) := by
  refine Keeps.bind Keeps.lift ?_
  rintro ⟨s, b⟩
  refine Keeps.bind Keeps.lift fun _ => ?_
  refine Keeps.bind Keeps.lift fun _ => ?_
  refine Keeps.bind (fun st => h st ..) fun _ => ?_
  refine Keeps.bind Keeps.get fun _ => ?_
  refine Keeps.bind Keeps.within ?_
  rintro ⟨prover, verifier⟩
  refine Keeps.bind Keeps.throwIf fun _ => ?_
  refine Keeps.bind Keeps.lift fun _ => ?_
  refine Keeps.bind (fun st => h st ..) fun _ => ?_
  exact Keeps.bind Keeps.lift fun _ => fun st => h st ..

end

end SellingInformation.Main
