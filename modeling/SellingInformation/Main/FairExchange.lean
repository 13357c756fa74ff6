import SellingInformation.Main.Process
import SellingInformation.Main.RecoveryProgress

/-!
# How the process ends

What the process prints is what was for sale, or it prints nothing, and says so.  With honest draws
and services that do what they are asked it gets to the recovery, and there the buyer is safe in
every order of the threads: it finds the factors as soon as it is handed the signature of the kept
instance, and what it solves the time lock for is the private key of the payment.

* `timeLockKey_of_locked` — the key behind the time lock of an instance;
* `untilRecovery_ok` — the state in which the recovery of an honest process starts;
* `printed_sound` — what the process prints, whatever was drawn and answered;
* `fair_exchange` — how an honest process ends.
-/

namespace SellingInformation.Main

open CryptoPP Common Fallible BitcoinUtils Schedule SellInformationProtocol

variable {Point : Type} [AddCommGroup Point] [DecidableEq Point] {ec : ECParameters Point}
  {sha256 : Sha256} {aes : Cipher} {msr : ModularSquareRoot}

/-! ## The key behind the time lock -/

/-- The number is the private key of the public key. -/
structure PrivateKey (ec : ECParameters Point) (Q : Point) (d : ℤ) : Prop where
  one_le : 1 ≤ d
  le : d ≤ ec.n - 1
  smul_G : d • ec.G = Q

omit [DecidableEq Point] in
theorem timeLockKey_of_locked {p q : ℕ} {K : UInt32} {ρ : InstanceRandom}
    {st : SingleSeller Point × SingleBuyer Point} (hp : TimedCommitment.IsSafePrime p)
    (hq : TimedCommitment.IsSafePrime q) (hpq : p ≠ q) (hK : 9 ≤ K.toNat)
    (hds : 1 ≤ ρ.ds ∧ ρ.ds ≤ ec.n - 1) (hdb : 1 ≤ ρ.db ∧ ρ.db ≤ ec.n - 1)
    (hh : IsCoprime ρ.h (p * q : ℤ))
    (hst : Locked ec K ρ (TimedCommitment.Commiter.ofPrimes p q) st) :
    ∃ d, st.2.timeLockKey ec = .ok d ∧ PrivateKey ec st.1.sharedSignatureS.Q d := by
  obtain ⟨bits, hforce, hbits⟩ := forceOpenSmart_of_locked hp hq hpq hK hds hh hst
  have hn := SharedSignature.n_pos ec
  have h0 := Int.emod_nonneg (ρ.ds * ρ.db) hn.ne'
  have hlt := Int.emod_lt_of_pos (ρ.ds * ρ.db) hn
  have hkey : (ρ.ds * ρ.db % ec.n) • ec.G = (ρ.ds * ρ.db) • ec.G :=
    ec.smul_G_congr (ZMod.intCast_mod _ _)
  have hne : ρ.ds * ρ.db % ec.n ≠ 0 := by
    intro hzero
    apply SharedSignature.publicKey_ne_zero hds hdb
    rw [← hkey, hzero, zero_smul]
  refine ⟨ρ.ds * ρ.db % ec.n, ?_, by omega, by omega, by rw [hkey, hst.Qs_eq]⟩
  unfold SingleBuyer.timeLockKey
  rw [hforce, except_ok_bind, hbits, except_ok_bind, hst.db_eq]

omit [DecidableEq Point] in
/-- The key depends on the commitment and on the buyer's share alone. -/
theorem timeLockKey_congr {b b' : SingleBuyer Point}
    (hshare : b'.sharedSignatureB = b.sharedSignatureB)
    (hlock : b'.timedCommitmentReceiver = b.timedCommitmentReceiver) :
    b'.timeLockKey ec = b.timeLockKey ec := by
  unfold SingleBuyer.timeLockKey
  rw [hshare, hlock]

/-! ## The start of the recovery -/

/-- What the recovery of an honest process starts from. -/
structure AtRecovery (ec : ECParameters Point) (sha256 : Sha256) (aes : Cipher)
    (msr : ModularSquareRoot) (p q : ℕ) (ρ : SaleRandom) (st : Sale Point) : Prop where
  delivering : Delivering sha256 aes msr p q ρ.x
    st.seller.singleSeller.sharedSignatureS.getSignature st
  bothOpen : ∀ i, i ∉ ρ.subset.toList → BothOpen st i
  signed : 0 ≤ st.seller.singleSeller.sharedSignatureS.r ∧
    0 ≤ st.seller.singleSeller.sharedSignatureS.s
  timeLock : ∃ d, st.buyer.singleBuyer.timeLockKey ec = .ok d ∧
    PrivateKey ec st.seller.singleSeller.sharedSignatureS.Q d

section
variable {clients : Clients} {instanceClients : Fin T → Clients} {ρ : SaleRandom}
  {P Q lp lq p q : ℕ} {st : Sale Point}

/-- What a run up to the payment leaves for the recovery, whatever the services have answered. -/
theorem atRecovery_of_ok {st' : Sale Point} (h : HonestDraws ec lp lq ρ) (haes : aes.Lawful)
    (hmsr : msr.Lawful) (hs : Sells p q st.seller) (hn : st.buyer.n = p * q)
    (h1 : ∀ i : Fin L, st.buyer.d1[i].m = []) (h2 : ∀ i : Fin L, st.buyer.d2[i].m = [])
    (hsubset : ρ.subset.toList.Nodup) (hx : ∀ i : Fin L, 0 ≤ ρ.x[i] ∧ ρ.x[i] < (p * q : ℤ) / 2)
    (hrun : beforePayment ec sha256 aes msr clients instanceClients ρ st = .ok () st') :
    AtRecovery ec sha256 aes msr p q ρ st' := by
  obtain ⟨_, st1, hchoose, hdeliver⟩ := bind_eq_ok.1 hrun
  obtain ⟨a, b0, r, s, b, hfresh, -, hinstance, -, rfl⟩ := chooseInstance_eq_ok hchoose
  have hexecuted := executed_of_exec hinstance
  obtain ⟨s0, commiter, address, rfl, hcommiter, -⟩ := hfresh.seller
  rw [h.lockP, h.lockQ, TimedCommitment.new_ofPrimes h.safe_p h.safe_q] at hcommiter
  cases hcommiter
  obtain ⟨d, hd, hprivate⟩ := timeLockKey_of_locked h.safe_p h.safe_q h.ne (by decide) (h.ds r)
    (h.db r) (h.h_coprime r) hexecuted.locked
  obtain ⟨z, -, -, -, hr, hs', -⟩ := SharedSignature.verify_eq_true_iff.1 hexecuted.verified
  have hready : Ready sha256 p q s.sharedSignatureS.getSignature
      { st with seller := { st.seller with singleSeller := s }
                buyer := { st.buyer with r := ρ.r, singleBuyer := b } } :=
    ⟨hs.congr rfl rfl, hn, hexecuted.committed.keys, h1, h2⟩
  obtain ⟨st1, hdelivered, hst', hopen⟩ := deliver_ok haes hmsr hsubset hx hready
  obtain rfl : st1 = st' := by
    rw [hdelivered] at hdeliver
    cases hdeliver
    rfl
  -- the delivery leaves the signature, the share and the time lock as they are
  have hmade := keeps_made_deliver.of_ok hdelivered
  simp only [made, signedWith, Prod.mk.injEq] at hmade
  obtain ⟨⟨⟨⟨hS, hB⟩, -⟩, hR⟩, -⟩ := hmade
  refine ⟨?_, hopen, ?_, d, ?_, ?_⟩
  · rw [hS]
    exact hst'
  · rw [hS]
    exact ⟨hr.1.le, hs'.1.le⟩
  · rw [timeLockKey_congr hB hR]
    exact hd
  · rw [hS]
    exact hprivate

omit [DecidableEq Point] in
/-- With services that do what they are asked, the payment returns. -/
theorem payThrough_ok
    (hpaid : clients.buyer.broadcastTransaction st.buyer.singleBuyer.t1 = .ok true)
    (hserved : SellerServed ec clients.seller st.seller st.buyer.singleBuyer.t1) :
    ∃ log, payThrough ec clients st =
      .ok () { st with seller := { st.seller with t1 := st.buyer.singleBuyer.t1 }, log } := by
  have hmake : st.buyer.makePayment clients.buyer = .ok () := makePayment_eq_ok.2 hpaid
  set s1 : Seller Point := { st.seller with t1 := st.buyer.singleBuyer.t1 } with hs1
  obtain ⟨broadcast, hpayment⟩ : ∃ broadcast,
      Seller.acceptPayment clients.seller s1 = .ok broadcast s1 := by
    by_cases hcheat : s1.cheat = true
    · exact ⟨false, acceptPayment_eq_ok.2 ⟨rfl, Or.inl ⟨hcheat, rfl⟩⟩⟩
    · exact ⟨true, acceptPayment_eq_ok.2 ⟨rfl, Or.inr ⟨Bool.eq_false_iff.2 hcheat,
        hserved.broadcast.resolve_left hcheat, rfl⟩⟩⟩
  have haccept : onSeller (Seller.acceptT1 ec clients.seller st.buyer.singleBuyer.t1)
      { st with log := st.log ++ [.broadcastT1 st.buyer.singleBuyer.t1] } =
        .ok () { st with seller := s1, log := st.log ++ [.broadcastT1 st.buyer.singleBuyer.t1] } :=
    onSeller_of_ok (acceptT1_eq_ok.2 ⟨hserved.verified, hserved.seen, hs1⟩)
  have hpaid : onSeller (Seller.acceptPayment clients.seller)
      { st with seller := s1, log := st.log ++ [.broadcastT1 st.buyer.singleBuyer.t1] } =
        .ok broadcast { st with seller := s1, log := st.log ++ [.broadcastT1 st.buyer.singleBuyer.t1] } :=
    onSeller_of_ok hpayment
  unfold payThrough
  rw [bind_of_ok (get_apply st), hmake, bind_of_ok (lift_ok _ _), bind_of_ok (record_apply _),
    bind_of_ok haccept, bind_of_ok (get_apply _), bind_of_ok hpaid]
  cases broadcast with
  | true => exact ⟨_, rfl⟩
  | false => exact ⟨_, rfl⟩

omit [DecidableEq Point] in
/-- Paying leaves everything as it was that the recovery starts from. -/
theorem AtRecovery.paid {t1 : Bytes} {log : List Event} (h : AtRecovery ec sha256 aes msr p q ρ st) :
    AtRecovery ec sha256 aes msr p q ρ { st with seller := { st.seller with t1 }, log } := by
  obtain ⟨hsells, hcommitted, hy, hn, hx, hkeys, hcom1, hcom2, hopened1, hopened2⟩ := h.delivering
  exact ⟨⟨hsells.congr rfl rfl, hcommitted.congr rfl rfl rfl rfl rfl (fun _ => rfl) fun _ => rfl,
    hy, hn, hx, hkeys, hcom1, hcom2, hopened1, hopened2⟩, h.bothOpen, h.signed, h.timeLock⟩

/-- A new buyer has been opened nothing. -/
theorem new_not_opened (i : Fin L) :
    (Vector.replicate L ShaCommitment.Receiver.new)[i].m = [] := by
  simp [ShaCommitment.Receiver.new]

/-- With honest draws, and services that answer and pass the payment on, the process gets to the
recovery. -/
theorem untilRecovery_ok {price : UInt32} {cheat : Bool} {a : SingleSeller Point}
    {b : SingleBuyer Point} (h : HonestRun ec P Q lp lq clients instanceClients ρ)
    (haes : aes.Lawful) (hmsr : msr.Lawful) (hp : p.Prime) (hq : q.Prime) (hpq : p ≠ q)
    (hsubset : ρ.subset.toList.Nodup) (hx : ∀ i : Fin L, 0 ≤ ρ.x[i] ∧ ρ.x[i] < (p * q : ℤ) / 2)
    (hserved : ∀ st, beforePayment ec sha256 aes msr clients instanceClients ρ
        (Sale.new p q price cheat a b) = .ok () st →
      clients.buyer.broadcastTransaction st.buyer.singleBuyer.t1 = .ok true ∧
        SellerServed ec clients.seller st.seller st.buyer.singleBuyer.t1) :
    ∃ st, untilRecovery ec sha256 aes msr clients instanceClients ρ
        (Sale.new p q price cheat a b) = .ok () st ∧ AtRecovery ec sha256 aes msr p q ρ st := by
  have hsells : Sells p q (Sale.new (p : ℤ) q price cheat a b).seller := ⟨hp, hq, hpq, rfl, rfl⟩
  obtain ⟨st1, -, hbefore, -⟩ := @beforePayment_ok Point _ _ ec sha256 aes msr clients
    instanceClients ρ (Sale.new p q price cheat a b) P Q p q lp lq h haes hmsr hsells rfl
    new_not_opened new_not_opened hsubset hx
  have hst1 := atRecovery_of_ok h.draws haes hmsr hsells rfl new_not_opened new_not_opened hsubset hx
    hbefore
  obtain ⟨hpaid, hseller⟩ := hserved st1 hbefore
  obtain ⟨log, hpay⟩ := payThrough_ok hpaid hseller
  have huntil : untilRecovery ec sha256 aes msr clients instanceClients ρ
      (Sale.new p q price cheat a b) =
        .ok () { st1 with seller := { st1.seller with t1 := st1.buyer.singleBuyer.t1 }, log } := by
    unfold untilRecovery
    rw [bind_of_ok (onParties_init_ok (p : ℤ) q price cheat a b), bind_of_ok hbefore, hpay]
  exact ⟨_, huntil, hst1.paid⟩

/-- The services pass on the payment of a sale of fifteen, at the price that `T1` pays. -/
theorem served_fifteen {st : Sale (ZMod 7)} (h : beforePayment SharedSignature.order7
      (fun _ => Vector.replicate 32 0) Cipher.padding searchRoot ⟨amountClient, zeroClient⟩
      (fun _ => ⟨zeroClient, zeroClient⟩) fifteenRandom
      (Sale.new 3 5 20000 false smallParties.1 smallParties.2) = .ok () st) :
    zeroClient.broadcastTransaction st.buyer.singleBuyer.t1 = .ok true ∧
      SellerServed SharedSignature.order7 amountClient st.seller st.buyer.singleBuyer.t1 := by
  have hprice : st.seller.price = 20000 := congrArg Prod.snd (keeps_beforePayment.of_ok h)
  refine ⟨rfl, ?_, rfl, Or.inr rfl⟩
  rw [hprice]
  rfl

/-! ## Finding the factors -/

omit [AddCommGroup Point] [DecidableEq Point] in
/-- With the signature of the kept instance the factors are found. -/
theorem factorise_readSignature {signature : Bytes} {x : Vector ℤ L} {r s : ℤ} (haes : aes.Lawful)
    (hmsr : msr.Lawful) (hp2 : p ≠ 2) (hq2 : q ≠ 2)
    (hx : ∀ i : Fin L, 0 ≤ x[i] ∧ x[i] < (p * q : ℤ) / 2)
    (h : Delivering sha256 aes msr p q x signature st)
    (hsig : signature = SharedSignature.encodeSignature r s) (hr : 0 ≤ r) (hs : 0 ≤ s)
    {good : Fin L} (hopen : BothOpen st good) (hcop : IsCoprime x[good] (p * q : ℤ)) :
    ∃ b', Buyer.factorise sha256 aes (st.buyer.readSignature (BitcoinUtils.getSignature r s)) =
      .ok () b' ∧ ((b'.p = p ∧ b'.q = q) ∨ (b'.p = q ∧ b'.q = p)) := by
  have hread : st.buyer.readSignature (BitcoinUtils.getSignature r s) =
      { st.buyer with signature } := by
    simp only [Buyer.readSignature, BitcoinUtils.getSignature, ofBytes_toByteArray hr,
      ofBytes_toByteArray hs, hsig]
  rw [hread]
  have hsigned : Delivering sha256 aes msr p q x signature
      { st with buyer := { st.buyer with signature } } :=
    ⟨h.sells, h.committed, h.y_eq, h.n_eq, h.x_eq, h.keys, h.com1, h.com2, h.opened1, h.opened2⟩
  obtain ⟨b', hfactorise, hpair⟩ := hsigned.factorise_ok haes hmsr hp2 hq2 hx rfl hopen hcop
  exact ⟨b', hfactorise, hpair⟩

omit [DecidableEq Point] in
/-- Where the recovery can read the signature of the kept instance, it finds the factors. -/
theorem AtRecovery.getSignature_ok {client : RecoveryClient} (h : AtRecovery ec sha256 aes msr p q ρ st)
    (haes : aes.Lawful) (hmsr : msr.Lawful) (hp2 : p ≠ 2) (hq2 : q ≠ 2)
    (hx : ∀ i : Fin L, 0 ≤ ρ.x[i] ∧ ρ.x[i] < (p * q : ℤ) / 2)
    (hgood : ∃ i : Fin L, i ∉ ρ.subset.toList ∧ IsCoprime ρ.x[i] (p * q : ℤ))
    (hseen : client.waitForTransactionByOutput st.buyer.singleBuyer.sellerAddress 1 = .ok true)
    (hread : client.getSignature st.buyer.singleBuyer.sellerAddress =
      .ok (BitcoinUtils.getSignature st.seller.singleSeller.sharedSignatureS.r
        st.seller.singleSeller.sharedSignatureS.s)) :
    ∃ b', Buyer.getSignature sha256 aes client st.buyer = .ok () b' ∧
      ((b'.p = p ∧ b'.q = q) ∨ (b'.p = q ∧ b'.q = p)) := by
  obtain ⟨good, hnot, hcop⟩ := hgood
  obtain ⟨b', hfactorise, hpair⟩ := factorise_readSignature haes hmsr hp2 hq2 hx h.delivering rfl
    h.signed.1 h.signed.2 (h.bothOpen good hnot) hcop
  exact ⟨b', (getSignature_of_served hseen hread).trans hfactorise, hpair⟩

/-! ## How it ends -/

/-- The buyer has the factors, or its money back; or the service that was to pay it back fails. -/
def Exit.Fair (p q : ℤ) (redeemed : Except Exn Bool) : Exit → Prop
  | .printed caught p' q' => caught = none ∧ ((p' = p ∧ q' = q) ∨ (p' = q ∧ q' = p) ∨
      (p' = 0 ∧ q' = 0 ∧ redeemed = .ok true))
  | .terminated => ∃ e, redeemed = .error e

/-- How the process ends when it gets to the recovery and the factors can be found. -/
theorem fair_of_getSignature {price : UInt32} {cheat : Bool} {a : SingleSeller Point}
    {b : SingleBuyer Point} {client : RecoveryClient} {d : ℤ} {b' : Buyer Point} {exit : Exit}
    (huntil : untilRecovery ec sha256 aes msr clients instanceClients ρ
      (Sale.new p q price cheat a b) = .ok () st)
    (hd : st.buyer.singleBuyer.timeLockKey ec = .ok d)
    (hsignature : Buyer.getSignature sha256 aes client st.buyer = .ok () b')
    (hpair : (b'.p = p ∧ b'.q = q) ∨ (b'.p = q ∧ b'.q = p))
    (hexit : Exits ec sha256 aes msr clients instanceClients ρ client
      (Sale.new p q price cheat a b) exit) :
    exit.Fair p q (st.buyer.singleBuyer.redeem ec client d) := by
  have hresults : results st.buyer = ((p : ℤ) * q, 0, 0) := by
    have hkeep := (@keeps_results_untilRecovery Point _ ec sha256 aes msr clients instanceClients ρ _)
      (Sale.new p q price cheat a b)
    rw [huntil] at hkeep
    exact hkeep
  cases hexit with
  | caught throws =>
    rw [huntil] at throws
    cases throws
  | uncaught _ throws =>
    rw [huntil] at throws
    cases throws
  | @returned st' s runs reachable main =>
    rw [huntil] at runs
    cases runs
    refine ⟨rfl, ?_⟩
    rcases returned_cases reachable main with ⟨-, hs⟩ | ⟨hsame, hsolve⟩
    · rw [hsignature] at hs
      cases hs
      rcases hpair with hpair | hpair
      · exact Or.inl hpair
      · exact Or.inr (Or.inl hpair)
    · have hzero := hsame.trans hresults
      simp only [results, Prod.mk.injEq] at hzero
      unfold SingleBuyer.solveTimeLock at hsolve
      rw [hd, except_ok_bind] at hsolve
      exact Or.inr (Or.inr ⟨hzero.2.1, hzero.2.2, hsolve⟩)
  | @killed st' s t runs reachable ended =>
    rw [huntil] at runs
    cases runs
    have hinv := inv_reachable reachable
    cases t with
    | main => exact absurd ended (ended_ne_main reachable)
    | watcher =>
      obtain ⟨-, e, he⟩ := hinv.watcherEnded ended
      rw [hsignature] at he
      cases he
    | solver =>
      obtain ⟨-, e, he⟩ := hinv.solverEnded ended
      unfold SingleBuyer.solveTimeLock at he
      rw [hd, except_ok_bind] at he
      exact ⟨e, he⟩

/-- **Fair exchange.**  With honest draws, and services that answer and pass the payment on, the
process gets to the recovery, where the buyer's time lock hides the private key of the payment.
When the transaction that takes the payment carries the signature of the kept instance, the
process can end with the factors printed, and it ends, in every order of the threads, with the
factors printed or the payment redeemed with that key, unless the call that redeems it fails. -/
theorem fair_exchange {price : UInt32} {cheat : Bool} {a : SingleSeller Point} {b : SingleBuyer Point}
    (h : HonestRun ec P Q lp lq clients instanceClients ρ) (haes : aes.Lawful) (hmsr : msr.Lawful)
    (hp : p.Prime) (hq : q.Prime) (hpq : p ≠ q) (hp2 : p ≠ 2) (hq2 : q ≠ 2)
    (hsubset : ρ.subset.toList.Nodup) (hx : ∀ i : Fin L, 0 ≤ ρ.x[i] ∧ ρ.x[i] < (p * q : ℤ) / 2)
    (hgood : ∃ i : Fin L, i ∉ ρ.subset.toList ∧ IsCoprime ρ.x[i] (p * q : ℤ))
    (hserved : ∀ st, beforePayment ec sha256 aes msr clients instanceClients ρ
        (Sale.new p q price cheat a b) = .ok () st →
      clients.buyer.broadcastTransaction st.buyer.singleBuyer.t1 = .ok true ∧
        SellerServed ec clients.seller st.seller st.buyer.singleBuyer.t1) :
    ∃ st d, untilRecovery ec sha256 aes msr clients instanceClients ρ
        (Sale.new p q price cheat a b) = .ok () st ∧
      st.buyer.singleBuyer.timeLockKey ec = .ok d ∧
      PrivateKey ec st.seller.singleSeller.sharedSignatureS.Q d ∧
      ∀ client : RecoveryClient,
        client.waitForTransactionByOutput st.buyer.singleBuyer.sellerAddress 1 = .ok true →
        client.getSignature st.buyer.singleBuyer.sellerAddress =
          .ok (BitcoinUtils.getSignature st.seller.singleSeller.sharedSignatureS.r
            st.seller.singleSeller.sharedSignatureS.s) →
        (∃ p' q' : ℤ, ((p' = p ∧ q' = q) ∨ (p' = q ∧ q' = p)) ∧
          Exits ec sha256 aes msr clients instanceClients ρ client
            (Sale.new p q price cheat a b) (.printed none p' q')) ∧
        ∀ exit, Exits ec sha256 aes msr clients instanceClients ρ client
            (Sale.new p q price cheat a b) exit →
          exit.Fair p q (st.buyer.singleBuyer.redeem ec client d) := by
  obtain ⟨st, huntil, hst⟩ := untilRecovery_ok h haes hmsr hp hq hpq hsubset hx hserved
  obtain ⟨d, hd, hprivate⟩ := hst.timeLock
  refine ⟨st, d, huntil, hd, hprivate, ?_⟩
  intro client hseen hread
  obtain ⟨b', hsignature, hpair⟩ := hst.getSignature_ok haes hmsr hp2 hq2 hx hgood hseen hread
  refine ⟨⟨b'.p, b'.q, hpair, exits_of_getSignature huntil hsignature⟩, ?_⟩
  intro exit hexit
  exact fair_of_getSignature huntil hd hsignature hpair hexit

/-- `fair_exchange` for fifteen, at the price that `T1` pays. -/
theorem fair_exchange_fifteen : ∃ st, untilRecovery SharedSignature.order7
      (fun _ => Vector.replicate 32 0) Cipher.padding searchRoot ⟨amountClient, zeroClient⟩
      (fun _ => ⟨zeroClient, zeroClient⟩) fifteenRandom
      (Sale.new 3 5 20000 false smallParties.1 smallParties.2) = .ok () st ∧
    (∃ p' q' : ℤ, ((p' = 3 ∧ q' = 5) ∨ (p' = 5 ∧ q' = 3)) ∧
      Exits SharedSignature.order7 (fun _ => Vector.replicate 32 0) Cipher.padding searchRoot
        ⟨amountClient, zeroClient⟩ (fun _ => ⟨zeroClient, zeroClient⟩) fifteenRandom
        (chainClient st.seller.singleSeller.sharedSignatureS.r
          st.seller.singleSeller.sharedSignatureS.s)
        (Sale.new 3 5 20000 false smallParties.1 smallParties.2) (.printed none p' q')) ∧
    ∀ exit, Exits SharedSignature.order7 (fun _ => Vector.replicate 32 0) Cipher.padding searchRoot
        ⟨amountClient, zeroClient⟩ (fun _ => ⟨zeroClient, zeroClient⟩) fifteenRandom
        (chainClient st.seller.singleSeller.sharedSignatureS.r
          st.seller.singleSeller.sharedSignatureS.s)
        (Sale.new 3 5 20000 false smallParties.1 smallParties.2) exit →
      exit.Fair 3 5 (.ok true) := by
  obtain ⟨st, d, hrun, -, -, hfair⟩ := @fair_exchange (ZMod 7) _ _ SharedSignature.order7
    (fun _ => Vector.replicate 32 0) Cipher.padding searchRoot ⟨amountClient, zeroClient⟩
    (fun _ => ⟨zeroClient, zeroClient⟩) fifteenRandom 521 523 7 11 3 5 20000 false smallParties.1
    smallParties.2 (honestRun_fifteen _ rfl) Cipher.lawful_padding lawful_searchRoot Nat.prime_three
    Nat.prime_five (by decide) (by decide) (by decide) (by decide)
    (fun i => by simp [fifteenRandom])
    ⟨⟨5, by decide⟩, by decide, by simp [fifteenRandom, isCoprime_one_left]⟩
    fun _ => served_fifteen
  exact ⟨st, hrun, hfair _ rfl rfl⟩

end

end SellingInformation.Main
