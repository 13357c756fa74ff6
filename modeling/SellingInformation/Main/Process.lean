import SellingInformation.Main.KeptInstance
import SellingInformation.Main.Recovery

/-!
# The process

`main.cpp`.  One process plays both parties: it runs `init` and `exec`, catches the exceptions of
`protocol.h` and prints the two members of the buyer that hold the factors.  The last call of
`exec` starts the two threads of the recovery; what leaves one of them is not caught, nor are the
exceptions of the other classes.

* `pay_eq_payThrough` — `exec` is its part before the recovery, and the recovery;
* `Exits` — how the process can end, over all orders of the threads;
* `results_reachable`, `returned_cases` — what the threads do to the results of the buyer;
* `exits_of_getSignature` — the process can end once the watcher can find the factors.
-/

namespace SellingInformation.Main

open CryptoPP Common Fallible BitcoinUtils Schedule SellInformationProtocol

variable {Point : Type} [AddCommGroup Point]

/-! ## The run up to the recovery -/

/-- The last part of `exec`, up to the call of `wait_for_signature_or_time_lock`. -/
def payThrough (ec : ECParameters Point) (clients : Clients) : Proc (Sale Point) Unit := do
  let st ← get
  lift (st.buyer.makePayment clients.buyer)
  record (.broadcastT1 st.buyer.singleBuyer.t1)
  onSeller (Seller.acceptT1 ec clients.seller st.buyer.singleBuyer.t1)
  let st ← get
  let broadcast ← onSeller (Seller.acceptPayment clients.seller)
  if broadcast then record (.broadcastT2 st.seller.singleSeller.t2) else pure ()
  record .startRecovery

/-- The payment is this part and the recovery. -/
theorem pay_eq_payThrough {ec : ECParameters Point} {sha256 : Sha256} {aes : Cipher}
    {clients : Clients} {finish : Finish} :
    pay ec sha256 aes clients finish = (payThrough ec clients >>= fun _ =>
      onBuyer (Buyer.waitForSignatureOrTimeLock ec sha256 aes finish)) := by
  unfold pay payThrough
  simp only [bind_assoc]
  refine bind_congr fun _ => bind_congr fun _ => bind_congr fun _ => bind_congr fun _ => ?_
  refine bind_congr fun _ => bind_congr fun broadcast => ?_
  cases broadcast <;> simp

/-- The call of `init`. -/
def onParties {α : Type} (m : Proc (Seller Point × Buyer Point) α) : Proc (Sale Point) α :=
  zoom (fun st => (st.seller, st.buyer))
    (fun t st => { st with seller := t.1, buyer := t.2 }) m

/-- The parties that `main` makes, with their default-constructed instances. -/
def Sale.new (p q : ℤ) (price : UInt32) (cheat : Bool) (s : SingleSeller Point)
    (b : SingleBuyer Point) : Sale Point :=
  { seller := Seller.new p q price cheat s, buyer := Buyer.new (p * q) price b, log := [] }

section
variable [DecidableEq Point] (ec : ECParameters Point) (sha256 : Sha256) (aes : Cipher)
  (msr : ModularSquareRoot) (clients : Clients) (instanceClients : Fin T → Clients) (ρ : SaleRandom)

/-- What `main` runs before the threads. -/
def untilRecovery : Proc (Sale Point) Unit := do
  onParties init
  beforePayment ec sha256 aes msr clients instanceClients ρ
  payThrough ec clients

/-- How the process ends. -/
inductive Exit
  /-- It prints two numbers, after the text of the exception that it has caught. -/
  | printed (caught : Option String) (p q : ℤ)
  /-- An exception is caught nowhere. -/
  | terminated
  deriving DecidableEq, Repr

/-- The process started in `st` can end like this.  What `factorise` assigns is assigned in one
step here. -/
inductive Exits (client : RecoveryClient) (st : Sale Point) : Exit → Prop
  /-- The exception of `protocol.h`, before the recovery. -/
  | caught {msg : String} {st' : Sale Point}
      (throws : untilRecovery ec sha256 aes msr clients instanceClients ρ st =
        .error (.protocolException msg) st') :
      Exits client st (.printed (some msg) st'.buyer.p st'.buyer.q)
  /-- Another exception before the recovery. -/
  | uncaught {e : Exn} {st' : Sale Point} (other : ∀ msg, e ≠ .protocolException msg)
      (throws : untilRecovery ec sha256 aes msr clients instanceClients ρ st = .error e st') :
      Exits client st .terminated
  /-- The main thread has returned from the recovery. -/
  | returned {st' : Sale Point} {s : State Point}
      (runs : untilRecovery ec sha256 aes msr clients instanceClients ρ st = .ok () st')
      (reachable : Reachable (step ec sha256 aes client) (start st'.buyer) s)
      (main : s.main = .returned) : Exits client st (.printed none s.buyer.p s.buyer.q)
  /-- An exception has left a thread. -/
  | killed {st' : Sale Point} {s : State Point} {t : Thread}
      (runs : untilRecovery ec sha256 aes msr clients instanceClients ρ st = .ok () st')
      (reachable : Reachable (step ec sha256 aes client) (start st'.buyer) s)
      (ended : s.ended = some t) : Exits client st .terminated

end

/-! ## What the run leaves alone -/

/-- The modulus and the two results of the buyer. -/
def results (b : Buyer Point) : ℤ × ℤ × ℤ := (b.n, b.p, b.q)

/-- What an instance is signed and paid with. -/
def signedWith (st : SingleSeller Point × SingleBuyer Point) :
    (SharedSignature.S Point × SharedSignature.B Point) × Bytes × Bytes × Bytes :=
  ((st.1.sharedSignatureS, st.2.sharedSignatureB), st.1.t2, st.2.t1, st.2.sellerAddress)

/-- What the delivery leaves alone: of the kept instance what it is signed, paid and locked with,
and the results of the buyer. -/
def made (st : Sale Point) : (((SharedSignature.S Point × SharedSignature.B Point) ×
    Bytes × Bytes × Bytes) × TimedCommitment.Receiver) × ℤ × ℤ × ℤ :=
  ((signedWith (st.seller.singleSeller, st.buyer.singleBuyer),
    st.buyer.singleBuyer.timedCommitmentReceiver), results st.buyer)

section
variable {sha256 : Sha256} {aes : Cipher} {msr : ModularSquareRoot} {ρ : SaleRandom}

omit [AddCommGroup Point]

theorem keeps_made_onBuyer {α : Type} {m : Proc (Buyer Point) α}
    (h : Keeps (fun b => (b.singleBuyer, results b)) m) : Keeps (@made Point) (onBuyer m) := by
  refine Keeps.zoom_of h ?_
  intro t st ht
  obtain ⟨hsingle, hresults⟩ := Prod.mk.inj ht
  simp only [made, hsingle, hresults]

theorem keeps_made_deliver :
    Keeps (@made Point) (deliver sha256 aes msr (honestSide aes ρ) ρ) := by
  have honSeller : ∀ (swap : Fin L → Bool) (y : Vector ℤ L),
      Keeps (@made Point) (onSeller (Seller.answerSquares msr aes swap y)) := by
    intro swap y
    refine Keeps.zoom_of
      (keeps_answerSquares (f := Seller.singleSeller) (fun _ _ _ _ _ _ _ _ => rfl) _ _) ?_
    intro t st ht
    simp only [made, ht]
  refine keeps_deliver ⟨?_, honSeller, ?_, ?_, ?_, ?_⟩ ρ
  · exact fun _ _ _ => rfl
  · intro st item i s r
    cases item <;> rfl
  · refine keeps_made_onBuyer (Keeps.bind (Keeps.modify fun _ => rfl) fun _ => ?_)
    exact Keeps.bind Keeps.get fun _ => Keeps.pure
  · refine keeps_made_onBuyer (Keeps.bind (Keeps.modify fun _ => rfl) fun _ => ?_)
    exact Keeps.bind Keeps.get fun _ => Keeps.pure
  · exact fun _ _ _ => keeps_made_onBuyer (Keeps.bind Keeps.get fun _ => Keeps.lift)

end

section
variable {ec : ECParameters Point} {sha256 : Sha256} {aes : Cipher} {msr : ModularSquareRoot}
  {clients : Clients} {instanceClients : Fin T → Clients} {ρ : SaleRandom}

/-- The payment leaves the buyer alone. -/
theorem keeps_buyer_payThrough : Keeps Sale.buyer (payThrough ec clients) := by
  refine Keeps.bind Keeps.get fun _ => ?_
  refine Keeps.bind Keeps.lift fun _ => ?_
  refine Keeps.bind (Keeps.modify fun _ => rfl) fun _ => ?_
  refine Keeps.bind (Keeps.zoom fun _ _ => rfl) fun _ => ?_
  refine Keeps.bind Keeps.get fun _ => ?_
  refine Keeps.bind (Keeps.zoom fun _ _ => rfl) fun broadcast => ?_
  cases broadcast with
  | true => exact Keeps.bind (Keeps.modify fun _ => rfl) fun _ => Keeps.modify fun _ => rfl
  | false => exact Keeps.modify fun _ => rfl

variable [DecidableEq Point]

theorem keeps_results_chooseInstance : Keeps (fun st : Sale Point => results st.buyer)
    (chooseInstance ec sha256 clients instanceClients ρ) :=
  keeps_chooseInstance (fun _ _ _ _ => rfl) clients instanceClients ρ

/-- Before the recovery the buyer has no result. -/
theorem keeps_results_untilRecovery : Keeps (fun st : Sale Point => results st.buyer)
    (untilRecovery ec sha256 aes msr clients instanceClients ρ) := by
  refine Keeps.bind ?_ fun _ => Keeps.bind (Keeps.bind keeps_results_chooseInstance fun _ => ?_)
    fun _ => ?_
  · have hinit : Keeps (fun t : Seller Point × Buyer Point => results t.2) init := by
      refine Keeps.bind Keeps.get ?_
      rintro ⟨s, b⟩
      exact Keeps.bind Keeps.throwIf fun _ => Keeps.throwIf
    refine Keeps.zoom_of hinit ?_
    intro t st ht
    exact ht
  · exact fun st => congrArg Prod.snd (keeps_made_deliver st)
  · exact fun st => congrArg results (keeps_buyer_payThrough st)

end

/-! ## A run that gets to the threads -/

section
variable {ec : ECParameters Point} {sha256 : Sha256} {aes : Cipher} {msr : ModularSquareRoot}
  {clients : Clients} {instanceClients : Fin T → Clients} {ρ : SaleRandom} {st st' : Sale Point}

omit [AddCommGroup Point] in
theorem onParties_init_eq_ok {u : Unit} (h : onParties init st = .ok u st') : st' = st := by
  obtain ⟨t, hinit, rfl⟩ := zoom_eq_ok.1 h
  unfold init at hinit
  rw [bind_of_ok (get_apply _)] at hinit
  obtain ⟨_, _, hthrow, hlast⟩ := bind_eq_ok.1 hinit
  obtain ⟨-, rfl⟩ := throwIf_eq_ok.1 hthrow
  obtain ⟨-, rfl⟩ := throwIf_eq_ok.1 hlast
  rfl

/-- The payment leaves the parties as they are; the seller has taken note of `T1`, and its service
has looked at it. -/
theorem payThrough_eq_ok {u : Unit} (h : payThrough ec clients st = .ok u st') :
    clients.seller.verifyTransaction st.buyer.singleBuyer.t1
        (integer2string (ec.x st.seller.singleSeller.sharedSignatureS.Q))
        (integer2string (ec.y st.seller.singleSeller.sharedSignatureS.Q)) st.seller.price.toInt32 =
      .ok true ∧
    ∃ log, st' =
      { st with seller := { st.seller with t1 := st.buyer.singleBuyer.t1 }, log } := by
  unfold payThrough at h
  rw [bind_of_ok (get_apply st)] at h
  obtain ⟨_, _, hmake, h1⟩ := bind_eq_ok.1 h
  obtain ⟨-, rfl⟩ := lift_eq_ok.1 hmake
  rw [bind_of_ok (record_apply _)] at h1
  obtain ⟨_, _, hzoom, h2⟩ := bind_eq_ok.1 h1
  obtain ⟨s1, haccept, rfl⟩ := zoom_eq_ok.1 hzoom
  obtain ⟨hver, -, rfl⟩ := acceptT1_eq_ok.1 haccept
  rw [bind_of_ok (get_apply _)] at h2
  obtain ⟨broadcast, _, hzoom, h3⟩ := bind_eq_ok.1 h2
  obtain ⟨s2, hpayment, rfl⟩ := zoom_eq_ok.1 hzoom
  obtain ⟨rfl, -⟩ := acceptPayment_eq_ok.1 hpayment
  refine ⟨hver, ?_⟩
  cases broadcast with
  | true =>
    cases h3
    exact ⟨_, rfl⟩
  | false =>
    cases h3
    exact ⟨_, rfl⟩

variable [DecidableEq Point]

theorem untilRecovery_eq_ok
    (h : untilRecovery ec sha256 aes msr clients instanceClients ρ st = .ok () st') :
    ∃ st1, beforePayment ec sha256 aes msr clients instanceClients ρ st = .ok () st1 ∧
      payThrough ec clients st1 = .ok () st' := by
  obtain ⟨_, st0, hinit, h1⟩ := bind_eq_ok.1 h
  obtain rfl := onParties_init_eq_ok hinit
  obtain ⟨_, st1, hbefore, hpay⟩ := bind_eq_ok.1 h1
  exact ⟨st1, hbefore, hpay⟩

end

/-! ## What the threads do to the results -/

section
variable {sha256 : Sha256} {aes : Cipher} {e : Exn} {b b' : Buyer Point}

omit [AddCommGroup Point]

theorem factoriseLoop_error {keys : Vector Bytes32 L} {l : List (Fin L)}
    (h : Buyer.factoriseLoop aes keys l b = .error e b') : b' = b := by
  induction l with
  | nil =>
    cases h
    rfl
  | cons i l ih =>
    rcases index_cases aes keys b i with hskip | ⟨r1, r2, hdec, hpass⟩ | hund
    · rw [factoriseLoop_of_skipped hskip] at h
      exact ih h
    · rw [factoriseLoop_of_decrypts hdec, if_pos hpass] at h
      cases h
    · obtain ⟨e', he⟩ := @factoriseLoop_of_undecryptable Point aes keys b i l hund
      rw [he] at h
      cases h
      rfl

/-- A factorisation that fails leaves the buyer as it was. -/
theorem factorise_error (h : Buyer.factorise sha256 aes b = .error e b') : b' = b := by
  unfold Buyer.factorise at h
  rw [bind_of_ok (get_apply b)] at h
  exact factoriseLoop_error h

end

section
variable {ec : ECParameters Point} {sha256 : Sha256} {aes : Cipher} {client : RecoveryClient}
  {b : Buyer Point} {s s' : State Point}

omit [AddCommGroup Point] in
@[simp] theorem n_readSignature (signature : IntegerPair) (b : Buyer Point) :
    (b.readSignature signature).n = b.n := by
  simp only [Buyer.readSignature]

omit [AddCommGroup Point] in
@[simp] theorem results_readSignature (signature : IntegerPair) (b : Buyer Point) :
    results (b.readSignature signature) = results b := by
  simp only [results, Buyer.readSignature]

/-- The modulus is that of the buyer, and so are the results until the factors are found. -/
structure ResultsAt (b : Buyer Point) (s : State Point) : Prop where
  n_eq : s.buyer.n = b.n
  unset : ¬ s.Factorised → results s.buyer = results b

omit [AddCommGroup Point] in
theorem ResultsAt.of_same (h : ResultsAt b s) (hbuyer : s'.buyer = s.buyer)
    (hwatcher : s.Factorised → s'.Factorised) : ResultsAt b s' := by
  refine ⟨by rw [hbuyer, h.n_eq], ?_⟩
  intro hs
  rw [hbuyer]
  exact h.unset fun hf => hs (hwatcher hf)

omit [AddCommGroup Point] in
theorem ResultsAt.mainStep (h : ResultsAt b s) (hmain : MainAt s s.main)
    (hstep : mainStep s = some s') : ResultsAt b s' := by
  cases mainStep_outcome hstep with
  | startsWatcher hpc =>
    rw [hpc] at hmain
    refine h.of_same rfl ?_
    intro hf
    rw [State.Factorised, show s.watcher = .unstarted from hmain] at hf
    exact absurd hf (by simp)
  | startsSolver => exact h.of_same rfl fun hf => hf
  | goesOn => exact h.of_same rfl fun hf => hf

theorem ResultsAt.solverStep (h : ResultsAt b s) (hstep : solverStep ec client s = some s') :
    ResultsAt b s' := by
  cases (solverStep_outcome hstep).2.2 with
  | throws => exact h.of_same rfl fun hf => hf
  | goesOn => exact h.of_same rfl fun hf => hf
  | finishes => exact h.of_same rfl fun hf => hf

omit [AddCommGroup Point] in
/-- Only a factorisation that returns sets the results. -/
theorem ResultsAt.watcherStep (h : ResultsAt b s)
    (hstep : watcherStep sha256 aes client s = some s') : ResultsAt b s' := by
  have hn : Keeps (@Buyer.n Point) (Buyer.factorise sha256 aes) := keeps_factorise fun _ _ _ => rfl
  obtain ⟨buyer, signatureFinished, timeLockFinished, main, solver, watcher, ended⟩ := s
  cases watcher with
  | unstarted => cases hstep
  | waiting =>
    simp only [Main.watcherStep] at hstep
    split at hstep
    all_goals
      cases hstep
      exact h.of_same rfl fun hf => absurd hf (by simp [State.Factorised])
  | reading =>
    cases hres : client.getSignature buyer.singleBuyer.sellerAddress with
    | error e =>
      simp only [Main.watcherStep, hres, Option.some.injEq] at hstep
      subst hstep
      exact h.of_same rfl fun hf => hf
    | ok signature =>
      simp only [Main.watcherStep, hres, Option.some.injEq] at hstep
      subst hstep
      constructor
      · simpa only [n_readSignature] using h.n_eq
      · intro _
        simpa only [results_readSignature] using h.unset (by simp [State.Factorised])
  | factorising =>
    cases hres : Buyer.factorise sha256 aes buyer with
    | error e buyer' =>
      simp only [Main.watcherStep, hres, Option.some.injEq] at hstep
      subst hstep
      exact h.of_same (factorise_error hres) fun hf => hf
    | ok u buyer' =>
      simp only [Main.watcherStep, hres, Option.some.injEq] at hstep
      subst hstep
      exact ⟨(hn.of_ok hres).trans h.n_eq, fun hs => absurd (Or.inl rfl) hs⟩
  | factorised =>
    cases hstep
    exact h.of_same rfl fun _ => Or.inr rfl
  | done => cases hstep

theorem results_reachable (h : Reachable (step ec sha256 aes client) (start b) s) :
    ResultsAt b s := by
  have hboth : Inv ec sha256 aes client b s ∧ ResultsAt b s := by
    refine h.invariant (I := fun s => Inv ec sha256 aes client b s ∧ ResultsAt b s)
      ⟨inv_start, rfl, fun _ => rfl⟩ ?_
    rintro t s s' ⟨hinv, hres⟩ hstep
    unfold step at hstep
    by_cases hs : s.ended = none
    · rw [if_pos hs] at hstep
      cases t with
      | main => exact ⟨hinv.mainStep hs hstep, hres.mainStep hinv.main hstep⟩
      | solver => exact ⟨hinv.solverStep hs hstep, hres.solverStep hstep⟩
      | watcher => exact ⟨hinv.watcherStep hs hstep, hres.watcherStep hstep⟩
    · rw [if_neg hs] at hstep
      cases hstep
  exact hboth.2

/-- The main thread returns when the factors are found, or when the payment has been redeemed and
no results are set. -/
theorem returned_cases (h : Reachable (step ec sha256 aes client) (start b) s)
    (hmain : s.main = .returned) :
    (s.Factorised ∧ Buyer.getSignature sha256 aes client b = .ok () s.buyer) ∨
      (results s.buyer = results b ∧ b.singleBuyer.solveTimeLock ec client = .ok true) := by
  have hinv := inv_reachable h
  by_cases hfound : s.Factorised
  · exact Or.inl ⟨hfound, hinv.getSignature_eq_ok hfound⟩
  · have hback := (hinv.returnsPaid hmain).resolve_left hfound
    exact Or.inr ⟨(results_reachable h).unset hfound, hinv.solveTimeLock_eq_ok hback⟩

/-- When the watcher can find the factors, there is an order in which the main thread returns with
them. -/
theorem reachable_returned {b' : Buyer Point}
    (h : Buyer.getSignature sha256 aes client b = .ok () b') :
    ∃ s, Reachable (step ec sha256 aes client) (start b) s ∧ s.main = .returned ∧ s.buyer = b' := by
  obtain ⟨hseen, signature, hread, hfactorise⟩ := getSignature_eq_ok.1 h
  have hreading : Reachable (step ec sha256 aes client) (start b)
      { started b with watcher := .reading } := by
    refine reachable_watcherStep reachable_started rfl ?_
    simp [watcherStep, started, start, hseen]
  have hfactorising : Reachable (step ec sha256 aes client) (start b)
      { started b with buyer := b.readSignature signature, watcher := .factorising } := by
    refine reachable_watcherStep hreading rfl ?_
    simp [watcherStep, started, start, hread]
  have hfactorised : Reachable (step ec sha256 aes client) (start b)
      { started b with buyer := b', watcher := .factorised } := by
    refine reachable_watcherStep hfactorising rfl ?_
    simp [watcherStep, started, start, hfactorise]
  have hdone : Reachable (step ec sha256 aes client) (start b)
      { started b with buyer := b', signatureFinished := true, watcher := .done } :=
    reachable_watcherStep hfactorised rfl rfl
  refine ⟨_, hdone.trans (reachable_iff_run.2 ⟨[.main, .main, .main], rfl⟩), rfl, rfl⟩

end

/-! ## What the process comes to -/

omit [AddCommGroup Point] in
/-- `main` makes parties that agree. -/
theorem onParties_init_ok (p q : ℤ) (price : UInt32) (cheat : Bool) (a : SingleSeller Point)
    (b : SingleBuyer Point) :
    onParties init (Sale.new p q price cheat a b) = .ok () (Sale.new p q price cheat a b) := by
  have hinit : init ((Sale.new p q price cheat a b).seller, (Sale.new p q price cheat a b).buyer) =
      .ok () ((Sale.new p q price cheat a b).seller, (Sale.new p q price cheat a b).buyer) := by
    unfold init
    rw [bind_of_ok (get_apply _)]
    have hn : ¬ (Sale.new p q price cheat a b).seller.getN ≠ (Sale.new p q price cheat a b).buyer.n :=
      not_not.2 rfl
    have hprice : ¬ (Sale.new p q price cheat a b).seller.price ≠
        (Sale.new p q price cheat a b).buyer.price := not_not.2 rfl
    exact (bind_of_ok (throwIf_of_not hn)).trans (throwIf_of_not hprice)
  exact zoom_eq_ok.2 ⟨_, hinit, rfl⟩

section
variable [DecidableEq Point] {ec : ECParameters Point} {sha256 : Sha256} {aes : Cipher}
  {msr : ModularSquareRoot} {clients : Clients} {instanceClients : Fin T → Clients}
  {ρ : SaleRandom} {client : RecoveryClient}

/-- The process can end with the factors that the watcher finds. -/
theorem exits_of_getSignature {st st' : Sale Point} {b' : Buyer Point}
    (hrun : untilRecovery ec sha256 aes msr clients instanceClients ρ st = .ok () st')
    (h : Buyer.getSignature sha256 aes client st'.buyer = .ok () b') :
    Exits ec sha256 aes msr clients instanceClients ρ client st (.printed none b'.p b'.q) := by
  obtain ⟨s, hs, hmain, rfl⟩ := @reachable_returned _ _ ec _ _ _ _ _ h
  exact .returned hrun hs hmain

end

end SellingInformation.Main
