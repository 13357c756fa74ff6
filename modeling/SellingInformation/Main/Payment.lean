import SellingInformation.Main.Choice
import SellingInformation.Main.Delivery
import SellingInformation.Main.Frames

/-!
# After the payment

The payment is the first thing in a run that cannot be taken back, and from then on
the buyer is safe only once it waits for the signature and works on the time lock.
Between the two the run goes through the seller's steps, and an exception of the
seller ends it.

* `pay_recovery_iff` — the last part of a run reaches the recovery after a payment
  exactly when the seller's services do what it asks of them;
* `recoveryStarts_iff` — the same for whole runs;
* `not_recoveryStarts_otherPrice` — an honest run that ends in between, since `T1`
  pays a constant and the seller checks the price.
-/

namespace SellingInformation.Main

open CryptoPP Common Fallible SellInformationProtocol

/-! ## The events that matter -/

/-- The events between which the buyer has paid and is not yet safe. -/
def Event.isPayment : Event → Bool
  | .broadcastT1 _ => true
  | .startRecovery => true
  | _ => false

/-- When the buyer has paid, it has started to wait for the signature and the time lock. -/
def RecoveryStarts (log : List Event) : Prop :=
  ∀ t1, Event.broadcastT1 t1 ∈ log → Event.startRecovery ∈ log

variable {Point : Type} [AddCommGroup Point] [DecidableEq Point] {ec : ECParameters Point}
  {sha256 : Sha256} {aes : Cipher} {msr : ModularSquareRoot}

/-- What a sale has recorded of these events. -/
def payments (st : Sale Point) : List Event := st.log.filter Event.isPayment

/-- What the steps before the payment leave alone. -/
def settled (st : Sale Point) : List Event × UInt32 := (payments st, st.seller.price)

omit [AddCommGroup Point] [DecidableEq Point] in
theorem not_mem_of_payments {st : Sale Point} (h : payments st = []) {e : Event}
    (he : e.isPayment = true) : e ∉ st.log := by
  intro hmem
  have : e ∈ payments st := List.mem_filter.2 ⟨hmem, he⟩
  rw [h] at this
  exact absurd this List.not_mem_nil

omit [AddCommGroup Point] [DecidableEq Point] in
/-- Nothing is paid before the last part of a run. -/
theorem keeps_settled_deliver (side : BuyerSide Point) (ρ : SaleRandom) :
    Keeps settled (deliver sha256 aes msr side ρ) := by
  have honSeller : ∀ (swap : Fin L → Bool) (y : Vector ℤ L),
      Keeps (@settled Point) (onSeller (Seller.answerSquares msr aes swap y)) := by
    intro swap y
    refine Keeps.zoom_of (keeps_answerSquares (f := Seller.price) (fun _ _ _ _ _ _ _ _ => rfl) _ _) ?_
    intro t st ht
    simp only [settled, payments, ht]
  refine keeps_deliver ⟨?_, honSeller, ?_, ?_, ?_, ?_⟩ ρ
  · intro e he st
    have hpayment : e.isPayment = false := by
      cases e <;> first | rfl | cases he
    simp [settled, payments, record_apply, List.filter_append, hpayment]
  · intro st item i s r
    cases item <;> rfl
  · exact Keeps.zoom fun _ _ => rfl
  · exact Keeps.zoom fun _ _ => rfl
  · exact fun _ _ _ => Keeps.zoom fun _ _ => rfl

theorem keeps_settled_chooseInstance (clients : Clients) (instanceClients : Fin T → Clients)
    (ρ : SaleRandom) : Keeps settled (chooseInstance ec sha256 clients instanceClients ρ) :=
  keeps_chooseInstance (fun _ _ _ _ => rfl) clients instanceClients ρ

/-! ## The seller's steps -/

/-- The seller's services do what the seller asks of them once `T1` has been broadcast. -/
structure SellerServed (ec : ECParameters Point) (client : BitcoinUtilsClient) (s : Seller Point)
    (t1 : Bytes) : Prop where
  verified : client.verifyTransaction t1 (integer2string (ec.x s.singleSeller.sharedSignatureS.Q))
    (integer2string (ec.y s.singleSeller.sharedSignatureS.Q)) s.price.toInt32 = .ok true
  seen : client.waitForTransaction t1 1 = .ok true
  broadcast : s.cheat = true ∨ client.broadcastTransaction s.singleSeller.t2 = .ok true

section
variable {client : BitcoinUtilsClient} {s s' : Seller Point} {t1 : Bytes} {r : Bool} {u : Unit}

omit [DecidableEq Point] in
theorem acceptT1_eq_ok : Seller.acceptT1 ec client t1 s = .ok u s' ↔
    client.verifyTransaction t1 (integer2string (ec.x s.singleSeller.sharedSignatureS.Q))
      (integer2string (ec.y s.singleSeller.sharedSignatureS.Q)) s.price.toInt32 = .ok true ∧
    client.waitForTransaction t1 1 = .ok true ∧ s' = { s with t1 } := by
  simp only [Seller.acceptT1, bind_eq_ok, modify_apply, get_apply, lift_eq_ok, throwIf_eq_ok,
    Bool.not_eq_false]
  constructor
  · rintro ⟨_, _, hset, _, _, hget, _, _, ⟨hver, rfl⟩, _, _, ⟨rfl, rfl⟩, _, _, ⟨hseen, rfl⟩, rfl, rfl⟩
    cases hset
    cases hget
    exact ⟨hver, hseen, rfl⟩
  · rintro ⟨hver, hseen, rfl⟩
    exact ⟨(), _, rfl, _, _, rfl, true, _, ⟨hver, rfl⟩, (), _, ⟨rfl, rfl⟩, true, _, ⟨hseen, rfl⟩, rfl,
      rfl⟩

omit [AddCommGroup Point] [DecidableEq Point] in
theorem acceptPayment_eq_ok : Seller.acceptPayment client s = .ok r s' ↔ s' = s ∧
    ((s.cheat = true ∧ r = false) ∨
      (s.cheat = false ∧ client.broadcastTransaction s.singleSeller.t2 = .ok true ∧ r = true)) := by
  unfold Seller.acceptPayment
  rw [bind_of_ok (get_apply s)]
  by_cases hcheat : s.cheat = true
  · rw [if_pos hcheat]
    simp [hcheat, eq_comm, and_comm]
  · rw [if_neg hcheat]
    rw [Bool.not_eq_true] at hcheat
    simp only [bind_eq_ok, lift_eq_ok, throwIf_eq_ok, pure_apply, Bool.not_eq_false, hcheat]
    constructor
    · rintro ⟨_, _, ⟨hsent, rfl⟩, _, _, ⟨rfl, rfl⟩, hpure⟩
      cases hpure
      exact ⟨rfl, Or.inr ⟨trivial, hsent, rfl⟩⟩
    · rintro ⟨rfl, hno | ⟨-, hsent, rfl⟩⟩
      · exact absurd hno.1 (by decide)
      · exact ⟨true, _, ⟨hsent, rfl⟩, (), _, ⟨rfl, rfl⟩, rfl⟩

end

/-! ## The last part of a run -/

section
variable {clients : Clients} {finish : Finish} {st : Sale Point} {t1 : Bytes}

section
omit [AddCommGroup Point] [DecidableEq Point]

theorem onSeller_of_ok {α : Type} {m : Proc (Seller Point) α} {a : α} {s : Seller Point}
    (h : m st.seller = .ok a s) : onSeller m st = .ok a { st with seller := s } := by
  unfold onSeller
  rw [zoom, h]

theorem onSeller_of_error {α : Type} {m : Proc (Seller Point) α} {e : Exn} {s : Seller Point}
    (h : m st.seller = .error e s) : onSeller m st = .error e { st with seller := s } := by
  unfold onSeller
  rw [zoom, h]

/-- Once the recovery is recorded, it stays so. -/
theorem recovery_recorded (m : Proc (Buyer Point) Unit) :
    Event.startRecovery ∈ (final ((record .startRecovery >>= fun _ => onBuyer m) st)).log := by
  rw [bind_of_ok (record_apply _)]
  have hkeep : Keeps Sale.log (onBuyer m : Proc (Sale Point) Unit) := Keeps.zoom fun _ _ => rfl
  rw [hkeep]
  simp

end

omit [DecidableEq Point] in
/-- The recovery is recorded exactly when the seller's steps return. -/
theorem startRecovery_mem_iff (hst : Event.startRecovery ∉ st.log) :
    Event.startRecovery ∈ (final (afterPayment ec sha256 aes clients finish t1 st)).log ↔
      SellerServed ec clients.seller st.seller t1 := by
  cases h1 : Seller.acceptT1 ec clients.seller t1 st.seller with
  | error e s1 =>
    unfold afterPayment
    rw [bind_of_error (onSeller_of_error h1)]
    apply iff_of_false hst
    rintro ⟨hver, hseen, -⟩
    have hok := (@acceptT1_eq_ok _ _ ec clients.seller st.seller _ t1 ()).2 ⟨hver, hseen, rfl⟩
    rw [hok] at h1
    cases h1
  | ok u s1 =>
    obtain ⟨hver, hseen, hs1⟩ := acceptT1_eq_ok.1 h1
    have hcheat1 : s1.cheat = st.seller.cheat := by rw [hs1]
    have hsingle1 : s1.singleSeller = st.seller.singleSeller := by rw [hs1]
    unfold afterPayment
    rw [bind_of_ok (onSeller_of_ok h1), bind_of_ok (get_apply _)]
    cases h2 : Seller.acceptPayment clients.seller s1 with
    | error e s2 =>
      rw [bind_of_error (onSeller_of_error h2)]
      apply iff_of_false hst
      rintro ⟨-, -, hsent⟩
      rw [← hcheat1, ← hsingle1] at hsent
      by_cases hcheat : s1.cheat = true
      · rw [acceptPayment_eq_ok.2 ⟨rfl, Or.inl ⟨hcheat, rfl⟩⟩] at h2
        cases h2
      · rw [acceptPayment_eq_ok.2 ⟨rfl, Or.inr ⟨Bool.eq_false_iff.2 hcheat,
          hsent.resolve_left hcheat, rfl⟩⟩] at h2
        cases h2
    | ok r s2 =>
      obtain ⟨-, hpaid⟩ := acceptPayment_eq_ok.1 h2
      rw [hcheat1, hsingle1] at hpaid
      rw [bind_of_ok (onSeller_of_ok h2)]
      refine iff_of_true ?_ ⟨hver, hseen, ?_⟩
      · cases r with
        | true => exact recovery_recorded _
        | false => exact recovery_recorded _
      · rcases hpaid with ⟨hcheat, -⟩ | ⟨-, hsent, -⟩
        · exact Or.inl hcheat
        · exact Or.inr hsent

omit [DecidableEq Point] in
/-- Nothing is taken off the log. -/
theorem mem_log_afterPayment {e : Event} (he : e ∈ st.log) :
    e ∈ (final (afterPayment ec sha256 aes clients finish t1 st)).log := by
  have hrun : Maintains (fun st : Sale Point => e ∈ st.log)
      (afterPayment ec sha256 aes clients finish t1) :=
    maintains_afterPayment (paySteps_of_log (I := fun log => e ∈ log) fun _ _ _ hmem =>
      List.mem_append_left _ hmem)
  exact hrun.final_of (I := fun st : Sale Point => e ∈ st.log) he

omit [AddCommGroup Point] [DecidableEq Point] in
theorem makePayment_eq_ok {b : Buyer Point} {u : Unit} : b.makePayment client = .ok u ↔
    client.broadcastTransaction b.singleBuyer.t1 = .ok true := by
  unfold Buyer.makePayment
  simp [except_bind_eq_ok, refuseIf_eq_ok]

omit [DecidableEq Point] in
/-- A payment that is taken is recorded. -/
theorem broadcastT1_mem_pay
    (h : clients.buyer.broadcastTransaction st.buyer.singleBuyer.t1 = .ok true) :
    Event.broadcastT1 st.buyer.singleBuyer.t1 ∈ (final (pay ec sha256 aes clients finish st)).log := by
  have hmake : st.buyer.makePayment clients.buyer = .ok () := makePayment_eq_ok.2 h
  rw [pay_apply, hmake, bind_of_ok (lift_ok _ _), bind_of_ok (record_apply _)]
  exact mem_log_afterPayment (List.mem_append_right _ List.mem_cons_self)

omit [DecidableEq Point] in
/-- The payment either fails and is not recorded, or is followed by the seller's steps. -/
theorem pay_recovery_iff (hst : payments st = []) :
    RecoveryStarts (final (pay ec sha256 aes clients finish st)).log ↔
      (clients.buyer.broadcastTransaction st.buyer.singleBuyer.t1 = .ok true →
        SellerServed ec clients.seller st.seller st.buyer.singleBuyer.t1) := by
  by_cases hpaid : clients.buyer.broadcastTransaction st.buyer.singleBuyer.t1 = .ok true
  · have hrecorded := @broadcastT1_mem_pay Point _ ec sha256 aes clients finish st hpaid
    have hmake : st.buyer.makePayment clients.buyer = .ok () := makePayment_eq_ok.2 hpaid
    have hfresh : Event.startRecovery ∉
        st.log ++ [Event.broadcastT1 st.buyer.singleBuyer.t1] := by
      simpa using not_mem_of_payments hst (e := .startRecovery) rfl
    rw [pay_apply, hmake, bind_of_ok (lift_ok _ _), bind_of_ok (record_apply _)] at hrecorded ⊢
    rw [forall_prop_of_true hpaid]
    have hiff := @startRecovery_mem_iff Point _ ec sha256 aes clients finish
      { st with log := st.log ++ [Event.broadcastT1 st.buyer.singleBuyer.t1] }
      st.buyer.singleBuyer.t1 hfresh
    rw [← hiff]
    exact ⟨fun h => h _ hrecorded, fun h _ _ => h⟩
  · rw [pay_apply]
    cases hmake : st.buyer.makePayment clients.buyer with
    | ok u => exact absurd (makePayment_eq_ok.1 hmake) hpaid
    | error e =>
      rw [bind_of_error (lift_error _ _)]
      refine iff_of_true ?_ fun h => absurd h hpaid
      intro t1 hmem
      exact absurd hmem (not_mem_of_payments hst rfl)

end

/-! ## Whole runs -/

section
variable {clients : Clients} {instanceClients : Fin T → Clients} {ρ : SaleRandom} {finish : Finish}
  {st : Sale Point}

/-- The part of a run before the payment. -/
def beforePayment (ec : ECParameters Point) (sha256 : Sha256) (aes : Cipher)
    (msr : ModularSquareRoot) (clients : Clients) (instanceClients : Fin T → Clients)
    (ρ : SaleRandom) : Proc (Sale Point) Unit := do
  chooseInstance ec sha256 clients instanceClients ρ
  deliver sha256 aes msr (honestSide aes ρ) ρ

theorem exec_eq_beforePayment : exec ec sha256 aes msr clients instanceClients ρ finish =
    (beforePayment ec sha256 aes msr clients instanceClients ρ >>= fun _ =>
      pay ec sha256 aes clients finish) := by
  simp only [SellInformationProtocol.exec, beforePayment, bind_assoc]

theorem keeps_beforePayment :
    Keeps settled (beforePayment ec sha256 aes msr clients instanceClients ρ) :=
  Keeps.bind (keeps_settled_chooseInstance _ _ _) fun _ => keeps_settled_deliver _ _

/-- What a run keeps can be delivered. -/
theorem beforePayment_of_chosen {p q : ℕ} {s : SingleSeller Point} {b : SingleBuyer Point}
    (haes : aes.Lawful) (hmsr : msr.Lawful) (hs : Sells p q st.seller) (hn : st.buyer.n = p * q)
    (h1 : ∀ i : Fin L, st.buyer.d1[i].m = []) (h2 : ∀ i : Fin L, st.buyer.d2[i].m = [])
    (hsubset : ρ.subset.toList.Nodup) (hx : ∀ i : Fin L, 0 ≤ ρ.x[i] ∧ ρ.x[i] < (p * q : ℤ) / 2)
    (hchoose : chooseInstance ec sha256 clients instanceClients ρ st =
      .ok () { st with seller := { st.seller with singleSeller := s }
                       buyer := { st.buyer with r := ρ.r, singleBuyer := b } })
    (hkeys : KeysCommitted sha256 (s, b)) :
    ∃ st' signature, beforePayment ec sha256 aes msr clients instanceClients ρ st = .ok () st' ∧
      Delivering sha256 aes msr p q ρ.x signature st' := by
  have hready : Ready sha256 p q s.sharedSignatureS.getSignature
      { st with seller := { st.seller with singleSeller := s }
                buyer := { st.buyer with r := ρ.r, singleBuyer := b } } :=
    ⟨hs.congr rfl rfl, hn, hkeys.keys, h1, h2⟩
  obtain ⟨st', hdeliver, hst', -⟩ := deliver_ok haes hmsr hsubset hx hready
  exact ⟨st', _, (bind_of_ok hchoose).trans hdeliver, hst'⟩

/-- **Completeness up to the payment.**  Honest parties, with services that answer their
instances, get to the payment. -/
theorem beforePayment_ok {P Q p q lp lq : ℕ}
    (h : HonestRun ec P Q lp lq clients instanceClients ρ) (haes : aes.Lawful) (hmsr : msr.Lawful)
    (hs : Sells p q st.seller) (hn : st.buyer.n = p * q) (h1 : ∀ i : Fin L, st.buyer.d1[i].m = [])
    (h2 : ∀ i : Fin L, st.buyer.d2[i].m = []) (hsubset : ρ.subset.toList.Nodup)
    (hx : ∀ i : Fin L, 0 ≤ ρ.x[i] ∧ ρ.x[i] < (p * q : ℤ) / 2) :
    ∃ st' signature, beforePayment ec sha256 aes msr clients instanceClients ρ st = .ok () st' ∧
      Delivering sha256 aes msr p q ρ.x signature st' := by
  obtain ⟨s, b, hchoose, hkeys⟩ := @chooseInstance_ok Point _ _ ec sha256 P Q lp lq clients
    instanceClients ρ h st
  exact beforePayment_of_chosen haes hmsr hs hn h1 h2 hsubset hx hchoose hkeys

/-! ### Runs of a sale of fifteen -/

theorem honestRun_fifteen (clients : Clients) (h : clients.seller.freshAddress = .ok [0]) :
    HonestRun SharedSignature.order7 521 523 7 11 clients (fun _ => ⟨zeroClient, zeroClient⟩)
      fifteenRandom :=
  { keyPrimes := SharedSignature.keyPrimes_order7
    paillierP := rfl
    paillierQ := rfl
    safe_p := TimedCommitment.isSafePrime_seven
    safe_q := TimedCommitment.isSafePrime_eleven
    ne := by decide
    lockP := rfl
    lockQ := rfl
    address := ⟨[0], h⟩
    r_range := by decide
    ds := fun _ => by change (1 : ℤ) ≤ 2 ∧ (2 : ℤ) ≤ 7 - 1; decide
    db := fun _ => by change (1 : ℤ) ≤ 3 ∧ (3 : ℤ) ≤ 7 - 1; decide
    answers := fun _ => ⟨Vector.replicate 32 0, answers_zeroClient, answers_zeroClient,
      SharedSignature.regular_unitCall⟩
    h_coprime := fun _ => isCoprime_two_seventySeven
    challenge := fun _ _ i => Int.natCast_nonneg i
    alpha := fun _ _ _ => zero_le_one }

/-- At any price, and whatever the services say about the transactions. -/
theorem beforePayment_fifteen (clients : Clients) (h : clients.seller.freshAddress = .ok [0])
    (price : UInt32) : ∃ st', beforePayment SharedSignature.order7 (fun _ => Vector.replicate 32 0)
      Cipher.padding searchRoot clients (fun _ => ⟨zeroClient, zeroClient⟩) fifteenRandom
        (fifteenSale price) = .ok () st' := by
  obtain ⟨st', signature, hrun, -⟩ := @beforePayment_ok (ZMod 7) _ _ SharedSignature.order7
    (fun _ => Vector.replicate 32 0) Cipher.padding searchRoot clients
    (fun _ => ⟨zeroClient, zeroClient⟩) fifteenRandom (fifteenSale price) 521 523 3 5 7 11
    (honestRun_fifteen clients h) Cipher.lawful_padding lawful_searchRoot (sells_fifteen price) rfl
    (fun i => by simp [fifteenSale, Buyer.new, ShaCommitment.Receiver.new])
    (fun i => by simp [fifteenSale, Buyer.new, ShaCommitment.Receiver.new]) (by decide)
    (fun i => by simp [fifteenRandom])
  exact ⟨st', hrun⟩

/-- The buyer pays, where its service takes `T1`. -/
theorem paid_fifteen : ∃ t1, Event.broadcastT1 t1 ∈ (final (exec SharedSignature.order7
    (fun _ => Vector.replicate 32 0) Cipher.padding searchRoot ⟨zeroClient, zeroClient⟩
    (fun _ => ⟨zeroClient, zeroClient⟩) fifteenRandom .timeLock (fifteenSale 20000))).log := by
  obtain ⟨st', hrun⟩ := beforePayment_fifteen ⟨zeroClient, zeroClient⟩ rfl 20000
  rw [exec_eq_beforePayment, bind_of_ok hrun]
  exact ⟨_, broadcastT1_mem_pay rfl⟩

/-! ### Where a paid run stops -/

/-- **Where a paid run stops.**  A run in which the buyer has paid reaches the recovery
exactly when, in the state before the payment, either the payment is refused by the network
or the seller's services do what it asks of them. -/
theorem recoveryStarts_iff (hst : payments st = []) :
    RecoveryStarts (final (exec ec sha256 aes msr clients instanceClients ρ finish st)).log ↔
      ∀ st', beforePayment ec sha256 aes msr clients instanceClients ρ st = .ok () st' →
        clients.buyer.broadcastTransaction st'.buyer.singleBuyer.t1 = .ok true →
          SellerServed ec clients.seller st'.seller st'.buyer.singleBuyer.t1 := by
  have hlog := congrArg Prod.fst
    ((@keeps_beforePayment Point _ _ ec sha256 aes msr clients instanceClients ρ) st)
  change payments _ = payments st at hlog
  rw [exec_eq_beforePayment]
  cases hr : beforePayment ec sha256 aes msr clients instanceClients ρ st with
  | error e st' =>
    rw [hr, final_error, hst] at hlog
    rw [bind_of_error hr]
    refine iff_of_true ?_ fun st'' h => by cases h
    intro t1 hmem
    exact absurd hmem (not_mem_of_payments hlog rfl)
  | ok u st' =>
    rw [hr, final_ok, hst] at hlog
    rw [bind_of_ok hr, pay_recovery_iff hlog]
    constructor
    · intro h st'' heq
      cases heq
      exact h
    · intro h
      exact h st' rfl

/-- `recoveryStarts_iff` where the services answer every call, for a run that is paid. -/
theorem recoveryStarts_zeroClient :
    let out := final (exec SharedSignature.order7 (fun _ => Vector.replicate 32 0) Cipher.padding
      searchRoot ⟨zeroClient, zeroClient⟩ (fun _ => ⟨zeroClient, zeroClient⟩) fifteenRandom .timeLock
        (fifteenSale 20000))
    RecoveryStarts out.log ∧ ∃ t1, Event.broadcastT1 t1 ∈ out.log :=
  ⟨(recoveryStarts_iff rfl).2 fun _ _ _ => ⟨rfl, rfl, Or.inr rfl⟩, paid_fifteen⟩

/-- A service of the seller that looks at the amount: `T1` pays twenty thousand. -/
def amountClient : BitcoinUtilsClient :=
  { zeroClient with verifyTransaction := fun _ _ _ value => .ok (value == 20000) }

/-- The parties agree on thirty thousand and are honest, and the seller's service says that `T1`
pays something else: the buyer has paid, and never starts to wait. -/
theorem not_recoveryStarts_otherPrice : ¬ RecoveryStarts (final (exec SharedSignature.order7
    (fun _ => Vector.replicate 32 0) Cipher.padding searchRoot ⟨amountClient, zeroClient⟩
    (fun _ => ⟨zeroClient, zeroClient⟩) fifteenRandom .timeLock (fifteenSale 30000))).log := by
  have hfresh : payments (fifteenSale 30000) = [] := rfl
  obtain ⟨st', hrun⟩ := beforePayment_fifteen ⟨amountClient, zeroClient⟩ rfl 30000
  obtain ⟨hlog, hprice⟩ := Prod.mk.inj (keeps_beforePayment.of_ok hrun)
  rw [exec_eq_beforePayment, bind_of_ok hrun, pay_recovery_iff (hlog.trans hfresh)]
  intro h
  have hverified := (h rfl).verified
  rw [hprice] at hverified
  cases hverified

end

end SellingInformation.Main
