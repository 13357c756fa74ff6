import SellingInformation.Main.Factorise
import SellingInformation.Main.Frames

/-!
# What the buyer holds

The log of a run is no member of the parties.  What ties it to them is that the buyer's ends of
the commitments hold what the log has been told of: an item that is in the log as opened is held
as it was opened, and one that is not is as it was (`Matches`).  This is so however a run ends,
for every buyer that does not write into its own ends of the commitments (`KeepsHoldings`).

* `deliver_matches` — the part of a run that opens; where it returns, every opening was accepted;
* `pay_matches`, `run_matches` — the payment, and the two together.
-/

namespace SellingInformation.Main

open CryptoPP Common Fallible SellInformationProtocol

variable {Point : Type}

/-! ## What is held -/

/-- What a buyer holds of the items, and whether the openings were accepted. -/
abbrev Holdings := Fin L → Item → Bytes × Bool

def Buyer.holdings (b : Buyer Point) : Holdings :=
  fun i item => ((item.receiver b i).m, (item.receiver b i).openVerified)

/-- What a buyer holds to which nothing was opened. -/
def noHoldings : Holdings := fun _ _ => ([], false)

/-- A buyer that sends what it likes, and does not write into its ends of the commitments. -/
structure BuyerSide.KeepsHoldings (side : BuyerSide Point) : Prop where
  squares : Keeps Buyer.holdings side.squares
  subset : Keeps Buyer.holdings side.subset
  verifyRoot : ∀ i key c, Keeps Buyer.holdings (side.verifyRoot i key c)

/-- The buyer of the source is one. -/
theorem keepsHoldings_honestSide {aes : Cipher} {ρ : SaleRandom} :
    (@honestSide Point aes ρ).KeepsHoldings where
  squares := Keeps.bind (Keeps.modify fun _ => rfl) fun _ => Keeps.bind Keeps.get fun _ => Keeps.pure
  subset := Keeps.bind (Keeps.modify fun _ => rfl) fun _ => Keeps.bind Keeps.get fun _ => Keeps.pure
  verifyRoot _ _ _ := Keeps.bind Keeps.get fun _ => Keeps.lift

/-- Of every item the log has the opening of what the buyer holds and of nothing else, or it has
no opening and the buyer holds what it held before. -/
def Matches (before : Holdings) (log : List Event) (held : Holdings) : Prop :=
  ∀ i item, (∀ m, item.event i m ∈ log ↔ m = (held i item).1) ∨
    (∀ m, item.event i m ∉ log) ∧ held i item = before i item

/-- Every opening in the log was accepted. -/
def Accepted (log : List Event) (held : Holdings) : Prop :=
  ∀ i item m, item.event i m ∈ log → (held i item).2 = true

section
variable {before held : Holdings} {log log' : List Event}

/-- Only the openings of a log matter. -/
theorem Matches.congr (h : Matches before log held)
    (hlog : ∀ i (item : Item) m, item.event i m ∈ log' ↔ item.event i m ∈ log) :
    Matches before log' held := by
  intro i item
  simp only [hlog]
  exact h i item

theorem Accepted.congr (h : Accepted log held)
    (hlog : ∀ i (item : Item) m, item.event i m ∈ log' ↔ item.event i m ∈ log) :
    Accepted log' held :=
  fun i item m hmem => h i item m ((hlog i item m).1 hmem)

theorem mem_concat_quiet {e : Event} (he : e.Quiet) (i : Fin L) (item : Item) (m : Bytes) :
    item.event i m ∈ log ++ [e] ↔ item.event i m ∈ log := by
  have hne : item.event i m ≠ e := by
    rintro rfl
    exact Item.not_quiet_event he
  simp [hne]

/-- What the buyer has come to hold is in the log. -/
theorem Matches.mem_of_ne (h : Matches before log held) {i : Fin L} {item : Item}
    (hne : (held i item).1 ≠ (before i item).1) : item.event i (held i item).1 ∈ log := by
  rcases h i item with hopen | ⟨-, hsame⟩
  · exact (hopen _).2 rfl
  · exact absurd (congrArg Prod.fst hsame) hne

end

/-! ## An opening -/

/-- The state after an item was opened, and accepted or not. -/
def opening (item : Item) (i : Fin L) (verified : Bool) (st : Sale Point) : Sale Point :=
  { st with
    buyer := item.setReceiver i
      (ShaCommitment.opened (item.sender st.seller i) (item.receiver st.buyer i) verified) st.buyer
    log := st.log ++ [item.event i (item.sender st.seller i).m] }

section
variable {sha256 : Sha256} {item : Item} {i : Fin L} {v : Bool} {st st' : Sale Point}

theorem final_openItem (st : Sale Point) :
    ∃ v, final (openItem sha256 item i st) = opening item i v st :=
  ⟨_, final_onItem_open { st with log := st.log ++ [item.event i (item.sender st.seller i).m] }⟩

theorem openItem_eq_ok {u : Unit} (h : openItem sha256 item i st = .ok u st') :
    st' = opening item i true st := onItem_open_eq_ok h

theorem holdings_opening (j : Fin L) (item' : Item) : (opening item i v st).buyer.holdings j item' =
    if j = i ∧ item' = item then ((item.sender st.seller i).m, v) else st.buyer.holdings j item' := by
  unfold opening Buyer.holdings
  simp only [Item.receiver_setReceiver]
  by_cases h : j = i ∧ item' = item
  · simp only [if_pos h, ShaCommitment.opened]
  · simp only [if_neg h]

/-- Opening an item leaves the hashes as they are. -/
theorem com_opening (j : Fin L) (item' : Item) :
    (item'.receiver (opening item i v st).buyer j).com = (item'.receiver st.buyer j).com := by
  unfold opening
  simp only [Item.receiver_setReceiver]
  by_cases h : j = i ∧ item' = item
  · obtain ⟨rfl, rfl⟩ := h
    simp [ShaCommitment.opened]
  · simp only [if_neg h]

theorem m_opening (j : Fin L) (item' : Item) : (item'.receiver (opening item i v st).buyer j).m =
    if j = i ∧ item' = item then (item.sender st.seller i).m else (item'.receiver st.buyer j).m := by
  have h := congrArg Prod.fst (@holdings_opening Point item i v st j item')
  rw [apply_ite Prod.fst] at h
  exact h

theorem mem_log_opening (j : Fin L) (item' : Item) (m : Bytes) :
    item'.event j m ∈ (opening item i v st).log ↔
      item'.event j m ∈ st.log ∨ (j = i ∧ item' = item ∧ m = (item.sender st.seller i).m) := by
  unfold opening
  rw [List.mem_append, List.mem_singleton, Item.event_inj]

/-- While the seller opens, what is in the log is what it has committed to and what the buyer
holds. -/
def Told (before : Holdings) (s : Seller Point) (log : List Event) (held : Holdings) : Prop :=
  ∀ i item, ((∀ m, item.event i m ∈ log ↔ m = (held i item).1) ∧
    (held i item).1 = (item.sender s i).m) ∨
      (∀ m, item.event i m ∉ log) ∧ held i item = before i item

variable {before held : Holdings} {s : Seller Point} {log log' : List Event}

theorem Told.matches (h : Told before s log held) : Matches before log held :=
  fun i item => (h i item).imp_left And.left

theorem Told.congr (h : Told before s log held)
    (hlog : ∀ i (item : Item) m, item.event i m ∈ log' ↔ item.event i m ∈ log) :
    Told before s log' held := by
  intro i item
  simp only [hlog]
  exact h i item

/-- An opening tells the log what it tells the buyer. -/
theorem Told.opening (h : Told before st.seller st.log st.buyer.holdings) : Told before st.seller
    (opening item i v st).log (opening item i v st).buyer.holdings := by
  intro j item'
  simp only [mem_log_opening, holdings_opening]
  by_cases hnew : j = i ∧ item' = item
  · obtain ⟨rfl, rfl⟩ := hnew
    refine Or.inl ⟨fun m => ?_, by simp⟩
    -- what was opened of this item before is what is opened now
    rcases h j item' with ⟨hopen, hsame⟩ | ⟨hclosed, -⟩
    · simp [hopen, hsame]
    · simp [hclosed]
  · have hold : ∀ m, (item'.event j m ∈ st.log ∨
        j = i ∧ item' = item ∧ m = (item.sender st.seller i).m) ↔ item'.event j m ∈ st.log := by
      intro m
      constructor
      · rintro (hmem | ⟨hj, hitem, -⟩)
        · exact hmem
        · exact absurd ⟨hj, hitem⟩ hnew
      · exact Or.inl
    simp only [hold, if_neg hnew]
    exact h j item'

theorem Accepted.opening (h : Accepted st.log st.buyer.holdings) :
    Accepted (opening item i true st).log (opening item i true st).buyer.holdings := by
  intro j item' m hmem
  rw [holdings_opening]
  by_cases hnew : j = i ∧ item' = item
  · rw [if_pos hnew]
  · rw [if_neg hnew]
    rcases (mem_log_opening j item' m).1 hmem with hold | ⟨hj, hitem, -⟩
    · exact h j item' m hold
    · exact absurd ⟨hj, hitem⟩ hnew

end

/-! ## The run -/

section
variable {sha256 : Sha256} {aes : Cipher} {msr : ModularSquareRoot} {side : BuyerSide Point}
  {ρ : SaleRandom} {before : Holdings}

/-- Nothing has been opened. -/
def Unopened (before : Holdings) (log : List Event) (held : Holdings) : Prop :=
  (∀ e ∈ log, e.Quiet) ∧ held = before

theorem Unopened.told {s : Seller Point} {log : List Event} {held : Holdings}
    (h : Unopened before log held) : Told before s log held := by
  refine fun i item => Or.inr ⟨fun m hmem => ?_, congrFun (congrFun h.2 i) item⟩
  exact Item.not_quiet_event (h.1 _ hmem)

theorem Unopened.accepted {log : List Event} {held : Holdings} (h : Unopened before log held) :
    Accepted log held :=
  fun _ _ _ hmem => absurd (h.1 _ hmem) Item.not_quiet_event

theorem keeps_onBuyer_holdings {α : Type} {m : Proc (Buyer Point) α} (h : Keeps Buyer.holdings m) :
    Keeps (fun st : Sale Point => (st.seller, st.log, st.buyer.holdings)) (onBuyer m) := by
  refine Keeps.zoom_of h ?_
  intro t st ht
  simp only [ht]

theorem keeps_onSeller_buyer {α : Type} (m : Proc (Seller Point) α) :
    Keeps (fun st : Sale Point => (st.log, st.buyer)) (onSeller m) := Keeps.zoom fun _ _ => rfl

theorem commitSteps_unopened (hside : side.KeepsHoldings) : CommitSteps sha256 aes msr side ρ
    (fun st => Unopened before st.log st.buyer.holdings)
    (fun _ st => Unopened before st.log st.buyer.holdings) where
  squares := Triple.of_keeps (I := fun v : Seller Point × List Event × Holdings =>
    Unopened before v.2.1 v.2.2) (keeps_onBuyer_holdings hside.squares)
  asks y := by
    refine Triple.modify ?_
    rintro st ⟨hlog, hb⟩
    refine ⟨fun e he => ?_, hb⟩
    rcases List.mem_append.1 he with hold | hnew
    · exact hlog e hold
    · rw [List.mem_singleton.1 hnew]
      trivial
  answers y := Triple.of_keeps (I := fun v : List Event × Buyer Point =>
    Unopened before v.1 v.2.holdings) (keeps_onSeller_buyer _)
  commits item i seed := by
    rintro st ⟨hlog, hb⟩
    rw [onItem_eq_zoom]
    refine ⟨hlog, ?_⟩
    rw [← hb]
    funext j item'
    -- a commitment writes the hash alone
    simp only [Buyer.holdings, Item.receiver_setReceiver]
    by_cases h : j = i ∧ item' = item
    · obtain ⟨rfl, rfl⟩ := h
      simp
    · simp only [if_neg h]

/-- What is so while the seller `s` opens. -/
def Telling (before : Holdings) (s : Seller Point) (st : Sale Point) : Prop :=
  st.seller = s ∧ Told before s st.log st.buyer.holdings ∧ Accepted st.log st.buyer.holdings

theorem openSteps_telling (hside : side.KeepsHoldings) (s : Seller Point) :
    OpenSteps sha256 side (Telling before s) (fun _ st => Matches before st.log st.buyer.holdings) := by
  have hbuyer : ∀ {α : Type} {m : Proc (Buyer Point) α}, Keeps Buyer.holdings m →
      Triple (Telling before s) (onBuyer m) (fun _ => Telling before s)
        (fun _ st => Matches before st.log st.buyer.holdings) := fun hm =>
    (Triple.of_keeps (I := fun v : Seller Point × List Event × Holdings =>
      v.1 = s ∧ Told before s v.2.1 v.2.2 ∧ Accepted v.2.1 v.2.2) (keeps_onBuyer_holdings hm)).conseq
        (fun _ h => h) (fun _ _ h => h) fun _ _ h => h.2.1.matches
  refine ⟨hbuyer hside.subset, ?_, ?_, fun i key c => hbuyer (hside.verifyRoot i key c),
    fun _ _ h => h.2.1.matches⟩
  · intro indices values
    exact Triple.modify fun st hst => ⟨hst.1, hst.2.1.congr (mem_concat_quiet trivial),
      hst.2.2.congr (mem_concat_quiet trivial)⟩
  · rintro item i st ⟨rfl, htold, haccepted⟩
    cases hr : openItem sha256 item i st with
    | ok u st' =>
      rw [openItem_eq_ok hr]
      exact ⟨rfl, htold.opening, haccepted.opening⟩
    | error e st' =>
      obtain ⟨v, hv⟩ := @final_openItem Point sha256 item i st
      rw [hr, final_error] at hv
      rw [hv]
      exact htold.opening.matches

/-- **What was opened is what the buyer holds**, however the part of a run ends that opens; and
where it returns, the buyer has accepted it. -/
theorem deliver_matches (hside : side.KeepsHoldings) :
    Triple (fun st => Unopened before st.log st.buyer.holdings) (deliver sha256 aes msr side ρ)
      (fun _ st => Matches before st.log st.buyer.holdings ∧ Accepted st.log st.buyer.holdings)
      (fun _ st => Matches before st.log st.buyer.holdings) := by
  refine Triple.bind ((triple_commitRoots (commitSteps_unopened hside)).conseq (fun _ h => h)
    (fun _ _ h => h) fun _ st h => (Unopened.told (s := st.seller) h).matches) fun _ => ?_
  intro st hst
  exact (triple_openRoots (openSteps_telling hside st.seller)).conseq (fun _ h => h)
    (fun _ _ h => ⟨h.2.1.matches, h.2.2⟩) (fun _ _ h => h) st ⟨rfl, hst.told, hst.accepted⟩

section
variable [AddCommGroup Point] {ec : ECParameters Point} {clients : Clients} {finish : Finish}

theorem keeps_waitForSignatureOrTimeLock {γ : Type} {f : Buyer Point → γ}
    (h : ∀ (b : Buyer Point) signature p q, f { b with signature, p, q } = f b) :
    Keeps f (Buyer.waitForSignatureOrTimeLock ec sha256 aes finish) := by
  cases finish with
  | signature r s =>
    exact Keeps.bind (Keeps.modify fun b => h b _ b.p b.q) fun _ =>
      keeps_factorise fun b => h b b.signature
  | timeLock => exact Keeps.bind Keeps.get fun _ => Keeps.bind Keeps.lift fun _ => Keeps.pure

/-- The payment opens nothing. -/
theorem pay_matches : Maintains
    (fun st : Sale Point => Matches before st.log st.buyer.holdings ∧ Accepted st.log st.buyer.holdings)
    (pay ec sha256 aes clients finish) := by
  refine maintains_pay ⟨fun e he => ?_, fun m => ?_, ?_⟩
  · exact Triple.modify fun st hst =>
      ⟨hst.1.congr (mem_concat_quiet he), hst.2.congr (mem_concat_quiet he)⟩
  · exact Triple.of_keeps (I := fun v : List Event × Buyer Point =>
      Matches before v.1 v.2.holdings ∧ Accepted v.1 v.2.holdings) (keeps_onSeller_buyer m)
  · exact Triple.of_keeps (I := fun v : Seller Point × List Event × Holdings =>
      Matches before v.2.1 v.2.2 ∧ Accepted v.2.1 v.2.2)
        (keeps_onBuyer_holdings (keeps_waitForSignatureOrTimeLock fun _ _ _ _ => rfl))

/-- The part of a run after cut and choose, however it ends. -/
theorem run_matches (hside : side.KeepsHoldings) {st : Sale Point} (hlog : ∀ e ∈ st.log, e.Quiet) :
    let out := final ((do
      deliver sha256 aes msr side ρ
      pay ec sha256 aes clients finish) st)
    Matches st.buyer.holdings out.log out.buyer.holdings := by
  have hrun := Triple.bind (@deliver_matches Point sha256 aes msr side ρ st.buyer.holdings hside)
    fun _ => (@pay_matches Point sha256 aes st.buyer.holdings _ ec clients finish).conseq
      (fun _ h => h) (fun _ _ h => h.1) fun _ _ h => h.1
  exact hrun.final_of ⟨hlog, rfl⟩

end

end

end SellingInformation.Main
