import SellingInformation.BitcoinUtils.Service
import SellingInformation.Main.FairExchange

/-!
# The two transactions of a sale

`T1` pays the shared key, and two transactions can take what it pays: `T2`, which the parties sign
together, and the one that the buyer makes when it has solved the time lock.  Here the services of
the parties are those of `BitcoinUtilsHandler`.

* `takes_of_signsT2` — what `T2` is, in every instance that returns;
* `payment_taken` — and in every run that gets to the recovery;
* `printed_not_taken` — a buyer that has its money back has not been charged;
* `exchange_on_chain` — and one that has been charged has the factors.
-/

namespace SellingInformation.Main

open CryptoPP Common Fallible BitcoinUtils Schedule SingleSellInformationProtocol

variable {Tx Script : Type}

/-! ## The services -/

/-- A service of a party.  `raise` is what an exception of a method becomes in the client, and the
calls that go to the network are those of `network`. -/
def serviceClient (lib : BitcoinJ Tx Script) (raise : JavaExn → Exn) (network : BitcoinUtilsClient) :
    BitcoinUtilsClient :=
  { network with
    createSendTransactionToAddress := fun tx x y dst =>
      (lib.createSendTransactionToAddress tx x y dst).mapError raise
    getOutputScript := fun tx x y => (lib.getOutputScript tx x y).mapError raise
    hashForSignature := fun tx x y script => (lib.hashForSignatureOf tx x y script).mapError raise
    getSignedTransaction := fun tx x y r s script =>
      (lib.getSignedTransaction tx x y r s script).mapError raise
    verifyTransaction := fun tx x y value => (lib.verifyTransaction tx x y value).mapError raise }

variable {Point : Type} [AddCommGroup Point] [DecidableEq Point] {ec : ECParameters Point}
  {sha256 : Sha256}

/-! ## How `T2` is made -/

section
variable {client : BitcoinUtilsClient} {u : Unit}

omit [DecidableEq Point] in
theorem createT1AndT2_eq_ok {b b' : SingleBuyer Point}
    (h : SingleBuyer.createT1AndT2 ec client b = .ok u b') :
    client.createSend (integer2string (ec.x b.sharedSignatureB.Q))
        (integer2string (ec.y b.sharedSignatureB.Q)) 20000 = .ok b'.t1 ∧
      client.createSendTransactionToAddress b'.t1 (integer2string (ec.x b.sharedSignatureB.Q))
        (integer2string (ec.y b.sharedSignatureB.Q)) b.sellerAddress = .ok b'.t2 ∧
      client.getOutputScript b'.t1 (integer2string (ec.x b.sharedSignatureB.Q))
        (integer2string (ec.y b.sharedSignatureB.Q)) = .ok b'.t1OutputScript ∧
      client.hashForSignature b'.t2 (integer2string (ec.x b.sharedSignatureB.Q))
        (integer2string (ec.y b.sharedSignatureB.Q)) b'.t1OutputScript = .ok b'.t2Hash ∧
      b'.sellerAddress = b.sellerAddress := by
  unfold SingleBuyer.createT1AndT2 at h
  rw [bind_of_ok (get_apply b)] at h
  obtain ⟨t1, _, hlift, h1⟩ := bind_eq_ok.1 h
  obtain ⟨ht1, rfl⟩ := lift_eq_ok.1 hlift
  rw [bind_of_ok (modify_apply _ _)] at h1
  obtain ⟨_, _, hthrow, h2⟩ := bind_eq_ok.1 h1
  obtain ⟨-, rfl⟩ := throwIf_eq_ok.1 hthrow
  obtain ⟨t2, _, hlift, h3⟩ := bind_eq_ok.1 h2
  obtain ⟨ht2, rfl⟩ := lift_eq_ok.1 hlift
  rw [bind_of_ok (modify_apply _ _)] at h3
  obtain ⟨script, _, hlift, h4⟩ := bind_eq_ok.1 h3
  obtain ⟨hscript, rfl⟩ := lift_eq_ok.1 hlift
  rw [bind_of_ok (modify_apply _ _)] at h4
  obtain ⟨hash, _, hlift, h5⟩ := bind_eq_ok.1 h4
  obtain ⟨hhash, rfl⟩ := lift_eq_ok.1 hlift
  cases h5
  exact ⟨ht1, ht2, hscript, hhash, rfl⟩

omit [DecidableEq Point] in
theorem verifyT2Signature_eq_ok {s s' : SingleSeller Point}
    (h : SingleSeller.verifyT2Signature ec client s = .ok u s') :
    client.getSignedTransaction s.t2 (integer2string (ec.x s.sharedSignatureS.Q))
        (integer2string (ec.y s.sharedSignatureS.Q)) (integer2string s.sharedSignatureS.r)
        (integer2string s.sharedSignatureS.s) s.t1OutputScript = .ok s'.t2 ∧ s'.t2 ≠ [] ∧
      s'.sharedSignatureS = s.sharedSignatureS := by
  unfold SingleSeller.verifyT2Signature at h
  rw [bind_of_ok (get_apply s)] at h
  obtain ⟨res, _, hlift, h1⟩ := bind_eq_ok.1 h
  obtain ⟨hres, rfl⟩ := lift_eq_ok.1 hlift
  obtain ⟨_, _, hthrow, h2⟩ := bind_eq_ok.1 h1
  obtain ⟨hlen, rfl⟩ := throwIf_eq_ok.1 hthrow
  cases h2
  exact ⟨hres, fun hnil => hlen (congrArg List.length hnil), rfl⟩

end

/-- What an instance has been answered, and the signature it has made of it. -/
structure SignsT2 (ec : ECParameters Point) (clients : Clients) (Q : Point)
    (st : SingleSeller Point × SingleBuyer Point) : Prop where
  key : st.1.sharedSignatureS.Q = Q ∧ st.2.sharedSignatureB.Q = Q
  sent : clients.buyer.createSend (integer2string (ec.x Q)) (integer2string (ec.y Q)) 20000 =
    .ok st.2.t1
  created : ∃ t2, clients.buyer.createSendTransactionToAddress st.2.t1 (integer2string (ec.x Q))
      (integer2string (ec.y Q)) st.2.sellerAddress = .ok t2 ∧
    ∃ script, clients.buyer.getOutputScript st.2.t1 (integer2string (ec.x Q))
        (integer2string (ec.y Q)) = .ok script ∧
      clients.buyer.hashForSignature t2 (integer2string (ec.x Q)) (integer2string (ec.y Q)) script =
        .ok st.2.sharedSignatureB.data ∧
      clients.seller.getSignedTransaction t2 (integer2string (ec.x Q)) (integer2string (ec.y Q))
        (integer2string st.1.sharedSignatureS.r) (integer2string st.1.sharedSignatureS.s) script =
          .ok st.1.t2
  signed : st.1.t2 ≠ []
  verified : Verified ec st

theorem signT2_eq_ok {clients : Clients} {ρ : InstanceRandom} {s : SingleSeller Point}
    {b : SingleBuyer Point} {Q : Point} {st : SingleSeller Point × SingleBuyer Point}
    (hs : s.sharedSignatureS.Q = Q) (hb : b.sharedSignatureB.Q = Q)
    (h : signT2 ec clients ρ (s, b) = .ok () st) : SignsT2 ec clients Q st := by
  have hverified : Verified ec st := (signT2_verified clients ρ).of_ok (hs.trans hb.symm) h
  unfold signT2 at h
  rw [bind_of_ok (modify_apply _ _)] at h
  obtain ⟨_, ⟨s1, b1⟩, hsnd, h1⟩ := bind_eq_ok.1 h
  obtain ⟨hcreate, hs1⟩ := onSnd_eq_ok.1 hsnd
  dsimp only at hcreate hs1
  subst hs1
  rw [bind_of_ok (modify_apply _ _), bind_of_ok (modify_apply _ _)] at h1
  dsimp only at h1
  obtain ⟨_, st2, hzoom, hfst⟩ := bind_eq_ok.1 h1
  obtain ⟨t, hsign, rfl⟩ := zoom_eq_ok.1 hzoom
  obtain ⟨hverify, hst⟩ := onFst_eq_ok.1 hfst
  obtain ⟨s', b'⟩ := st
  dsimp only at hverify hst
  subst hst
  obtain ⟨ht1, ht2, hscript, hhash, haddress⟩ := createT1AndT2_eq_ok hcreate
  obtain ⟨hsigned, hne, hS⟩ := verifyT2Signature_eq_ok hverify
  have hB := (keeps_createT1AndT2 _).of_ok hcreate
  have hkept := (keeps_sign ρ.sign).of_ok hsign
  simp only [sharesOf, Prod.mk.injEq] at hkept
  obtain ⟨⟨-, hQs, hQb⟩, -, hdata⟩ := hkept
  have htQ : t.1.Q = Q := hQs.trans hs
  have htQ' : t.2.Q = Q := by
    rw [hQb]
    exact (congrArg SharedSignature.B.Q hB).trans hb
  refine ⟨⟨?_, htQ'⟩, ?_, ⟨b1.t2, ?_, b1.t1OutputScript, ?_, ?_, ?_⟩, hne, hverified⟩
  · rw [hS]
    exact htQ
  · rw [← hb]
    exact ht1
  · rw [← hb, haddress]
    exact ht2
  · rw [← hb]
    exact hscript
  · rw [← hb]
    exact hhash.trans (congrArg Except.ok hdata.symm)
  · rw [hS]
    dsimp only at hsigned ⊢
    rw [htQ] at hsigned
    exact hsigned

section
variable {clients : Clients} {ρ : InstanceRandom} {st st' : SingleSeller Point × SingleBuyer Point}

omit [AddCommGroup Point] [DecidableEq Point] in
theorem keeps_signedWith_commitKeys (ρ : InstanceRandom) :
    Keeps (@signedWith Point) (commitKeys sha256 ρ) := by
  refine Keeps.bind (Keeps.modify fun _ => rfl) fun _ => ?_
  refine Keeps.bind (Keeps.forM fun i _ => Keeps.zoom fun _ _ => rfl) fun _ => ?_
  exact Keeps.zoom fun _ _ => rfl

/-- It depends on what the instance is signed and paid with. -/
theorem SignsT2.congr {Q : Point} (h : SignsT2 ec clients Q st)
    (hst : signedWith st' = signedWith st) : SignsT2 ec clients Q st' := by
  simp only [signedWith, Prod.mk.injEq] at hst
  obtain ⟨⟨hS, hB⟩, ht2, ht1, haddress⟩ := hst
  constructor
  · rw [hS, hB]
    exact h.key
  · rw [ht1]
    exact h.sent
  · rw [hS, hB, ht1, ht2, haddress]
    exact h.created
  · rw [ht2]
    exact h.signed
  · unfold Verified
    rw [hS, hB]
    exact h.verified

/-- Every instance that returns has signed the `T2` that it was answered. -/
theorem signsT2_of_exec {a : SingleSeller Point} {b : SingleBuyer Point}
    (hrun : exec ec sha256 Common.K clients ρ (a, b) = .ok () st) :
    SignsT2 ec clients ((ρ.ds * ρ.db) • ec.G) st := by
  rw [exec_eq] at hrun
  simp only [bind_eq_ok, onSharedSignature, zoom_eq_ok] at hrun
  obtain ⟨_, st1, ⟨t, hinit, rfl⟩, _, ⟨s2, b2⟩, hsign, _, st3, hlock, hkeys⟩ := hrun
  rw [SharedSignature.init_apply] at hinit
  cases hinit
  obtain ⟨bits, com, t, -, -, rfl⟩ := lockShare_eq_ok.1 hlock
  have hkept := (keeps_signedWith_commitKeys ρ).of_ok hkeys
  have hlocked : signedWith ({ s2 with timedCommitmentCommiter := t.1 },
      { b2 with timedCommitmentReceiver := t.2 }) = signedWith (s2, b2) := rfl
  have hsigns : SignsT2 ec clients ((ρ.ds * ρ.db) • ec.G) (s2, b2) := signT2_eq_ok rfl rfl hsign
  exact hsigns.congr (hkept.trans hlocked)

end

/-- And so has the instance that a sale keeps. -/
theorem signsT2_of_beforePayment {aes : Cipher} {msr : ModularSquareRoot} {clients : Clients}
    {instanceClients : Fin T → Clients} {ρ : SaleRandom} {st₀ st : Sale Point}
    (hrun : beforePayment ec sha256 aes msr clients instanceClients ρ st₀ = .ok () st) :
    ∃ r Q, SignsT2 ec (instanceClients r) Q (st.seller.singleSeller, st.buyer.singleBuyer) := by
  obtain ⟨_, st1, hchoose, hdeliver⟩ := bind_eq_ok.1 hrun
  obtain ⟨a, b, r, s, b1, -, -, hinstance, -, rfl⟩ := chooseInstance_eq_ok hchoose
  have hkept := congrArg (fun x => x.1.1) (keeps_made_deliver.of_ok hdeliver)
  exact ⟨r, _, (signsT2_of_exec hinstance).congr hkept⟩

/-! ## What `T2` is -/

/-- `T2` passes the output of `T1` that pays the shared key on to the seller, less the fee.  It
carries a signature of its hash for the shared key, and spends that output with it. -/
structure Takes (lib : BitcoinJ Tx Script) (ec : ECParameters Point)
    (st : SingleSeller Point × SingleBuyer Point) (src : Tx) (o : TransactionOutput Script) (i : ℕ)
    (dst : Address) (tx : Tx) : Prop where
  key : st.2.sharedSignatureB.Q = st.1.sharedSignatureS.Q
  found : lib.Found st.2.t1 (integer2string (ec.x st.1.sharedSignatureS.Q))
    (integer2string (ec.y st.1.sharedSignatureS.Q)) src o i
  address : newAddress st.2.sellerAddress = .ok dst
  read : lib.newTransaction st.1.t2 = .ok tx
  spends : lib.outpoints tx = [⟨lib.getHash src, i⟩]
  pays : lib.PaysOnly tx (o.value - BitcoinJ.defaultFeePerKb) dst
  signed : ∃ input, (lib.getInputs tx)[0]? = some input ∧
    Handler.signatureOf lib.toScriptReader input =
      .ok (st.1.sharedSignatureS.r, st.1.sharedSignatureS.s) ∧
    ∃ unsigned, lib.outpoints unsigned = lib.outpoints tx ∧
      lib.getOutputs unsigned = lib.getOutputs tx ∧
      lib.correctlySpends input.scriptSig unsigned 0 o.script = .ok () ∧
      ∃ hash, lib.hashForSignature unsigned 0 o.script = .ok hash ∧
        SharedSignature.verify ec st.1.sharedSignatureS.Q hash.toList st.1.sharedSignatureS.r
          st.1.sharedSignatureS.s = .ok true

section
variable {lib : BitcoinJ Tx Script} {raise : JavaExn → Exn} {sellers buyers : BitcoinUtilsClient}
  {clients : Clients} {st : SingleSeller Point × SingleBuyer Point}

/-- **What an instance signs.**  When the services of both parties are those of a lawful library,
what an instance has signed is such a `T2`. -/
theorem takes_of_signsT2 (hlib : lib.Lawful) (hseller : clients.seller = serviceClient lib raise sellers)
    (hbuyer : clients.buyer = serviceClient lib raise buyers) {Q : Point}
    (h : SignsT2 ec clients Q st) : ∃ src o i dst tx, Takes lib ec st src o i dst tx := by
  obtain ⟨⟨hQs, hQb⟩, -, ⟨t2, hcreate, script, hread1, hhash1, hsign⟩, hne, hverified⟩ := h
  obtain ⟨z, -, -, -, ⟨hr, -⟩, ⟨hs, -⟩, -⟩ := SharedSignature.verify_eq_true_iff.1 hverified
  rw [hbuyer] at hcreate hread1 hhash1
  rw [hseller] at hsign
  have ht2 := mapError_eq_ok.1 hcreate
  have hscript := mapError_eq_ok.1 hread1
  have hhash := mapError_eq_ok.1 hhash1
  have hsigned := mapError_eq_ok.1 hsign
  obtain ⟨src, o, i, hfound, rfl⟩ := BitcoinJ.getOutputScript_spec hscript
  obtain ⟨dst, unsigned, hdst, hread, hspends, hpays⟩ :=
    BitcoinJ.createSendTransactionToAddress_spec hlib hfound ht2
  obtain ⟨hash, hhashed, hdata⟩ := BitcoinJ.hashForSignatureOf_spec hlib hread hhash
  obtain ⟨tx', tx, redeem, inputScript, input, hread', hredeem, hinputScript, hcorrect, hreadTx, hout,
    houtputs, hinput, hsig⟩ := BitcoinJ.getSignedTransaction_spec hlib hsigned hne
  rw [hread] at hread'
  cases hread'
  rw [hlib.newScript_bytes] at hredeem
  cases hredeem
  have hofr : ofBytes (integer2string st.1.sharedSignatureS.r) = st.1.sharedSignatureS.r :=
    ofBytes_toBytes_of_nonneg hr.le
  have hofs : ofBytes (integer2string st.1.sharedSignatureS.s) = st.1.sharedSignatureS.s :=
    ofBytes_toBytes_of_nonneg hs.le
  rw [hofr, hofs] at hinputScript
  obtain ⟨outpoint, scriptSig⟩ := input
  dsimp only at hsig
  subst hsig
  refine ⟨src, o, i, dst, tx, ?_, ?_, hdst, hreadTx, hout.trans hspends, ?_, ?_⟩
  · rw [hQs, hQb]
  · rw [hQs]
    exact hfound
  · obtain ⟨o', houtput, hvalue, haddr⟩ := hpays
    exact ⟨o', houtputs.trans houtput, hvalue, haddr⟩
  · refine ⟨⟨outpoint, scriptSig⟩, hinput,
      hlib.newInputScript_eq hr.le hs.le hinputScript outpoint, unsigned, hout.symm, houtputs.symm,
      hcorrect, hash, hhashed, ?_⟩
    rw [hQs, ← hQb, ← hdata]
    exact hverified

end

/-! ## What a run pays with -/

/-- The services of a run are those of one library. -/
structure ServedBy (lib : BitcoinJ Tx Script) (raise : JavaExn → Exn) (clients : Clients)
    (instanceClients : Fin T → Clients) : Prop where
  seller : ∃ network, clients.seller = serviceClient lib raise network
  instances : ∀ r, (∃ network, (instanceClients r).seller = serviceClient lib raise network) ∧
    ∃ network, (instanceClients r).buyer = serviceClient lib raise network

section
variable {lib : BitcoinJ Tx Script} {raise : JavaExn → Exn} {aes : Cipher} {msr : ModularSquareRoot}
  {clients : Clients} {instanceClients : Fin T → Clients} {ρ : SaleRandom} {st₀ st : Sale Point}

/-- In a run that gets to the recovery, the transaction that takes the payment is such a `T2`, and
what it takes is the price. -/
theorem takes_of_untilRecovery (hlib : lib.Lawful) (hserved : ServedBy lib raise clients instanceClients)
    (hrun : untilRecovery ec sha256 aes msr clients instanceClients ρ st₀ = .ok () st) :
    ∃ src o i dst tx, Takes lib ec (st.seller.singleSeller, st.buyer.singleBuyer) src o i dst tx ∧
      o.value = st₀.seller.price.toInt32.toInt := by
  obtain ⟨st2, hbefore, hpay⟩ := untilRecovery_eq_ok hrun
  obtain ⟨hver, log, rfl⟩ := payThrough_eq_ok hpay
  have hprice : st2.seller.price = st₀.seller.price :=
    congrArg Prod.snd (keeps_beforePayment.of_ok hbefore)
  obtain ⟨r, Q, hsigns⟩ := signsT2_of_beforePayment hbefore
  obtain ⟨⟨sellers, hsellers⟩, buyers, hbuyers⟩ := hserved.instances r
  obtain ⟨src, o, i, dst, tx, htakes⟩ := takes_of_signsT2 hlib hsellers hbuyers hsigns
  obtain ⟨network, hnetwork⟩ := hserved.seller
  rw [hnetwork, hprice] at hver
  obtain ⟨src', o', i', hfound, hvalue⟩ :=
    BitcoinJ.verifyTransaction_eq_true.1 (mapError_eq_ok.1 hver)
  obtain ⟨rfl, rfl, rfl⟩ := htakes.found.unique hfound
  exact ⟨src', o', i', dst, tx, htakes, hvalue⟩

/-- What the buyer makes with the key behind the time lock spends the same output as `T2`. -/
theorem Takes.eq_of_redemption {pair : SingleSeller Point × SingleBuyer Point} {src tx tx' : Tx}
    {o : TransactionOutput Script} {i : ℕ} {dst fresh : Address} {sk : Bytes} {chain : List Tx}
    (h : Takes lib ec pair src o i dst tx) (hlib : lib.Lawful) (hchain : lib.Chain chain)
    (hredeem : lib.redemption fresh pair.2.t1 sk (integer2string (ec.x pair.2.sharedSignatureB.Q))
      (integer2string (ec.y pair.2.sharedSignatureB.Q)) = .ok tx')
    (htx : tx ∈ chain) (htx' : tx' ∈ chain) : tx' = tx ∧ fresh = dst := by
  obtain ⟨src', o', i', hfound, hspends, hpays⟩ := BitcoinJ.redemption_spec hlib hredeem
  rw [h.key] at hfound
  obtain ⟨rfl, rfl, rfl⟩ := h.found.unique hfound
  have hout : (⟨lib.getHash src', i'⟩ : OutPoint) ∈ lib.outpoints tx := by
    rw [h.spends]
    exact List.mem_singleton_self _
  have hout' : (⟨lib.getHash src', i'⟩ : OutPoint) ∈ lib.outpoints tx' := by
    rw [hspends]
    exact List.mem_singleton_self _
  have hsame : tx' = tx := hchain.eq_of_spends htx' htx hout' hout
  subst hsame
  exact ⟨rfl, hpays.address_unique h.pays⟩

/-! ### Fifteen, with the small library -/

/-- The network gives out the second address, and the wallet pays twenty thousand. -/
def smallNetwork : BitcoinUtilsClient :=
  { zeroClient with
    freshAddress := .ok payee.toList
    createSend := fun _ _ _ => .ok (code (none : SmallTx)) }

/-- The services of both parties. -/
def smallClients : Clients where
  seller := serviceClient smallLibrary (fun _ => .stdException) smallNetwork
  buyer := serviceClient smallLibrary (fun _ => .stdException) smallNetwork

theorem servedBy_smallClients : ServedBy smallLibrary (fun _ => .stdException) smallClients
    (fun _ => smallClients) := ⟨⟨_, rfl⟩, fun _ => ⟨⟨_, rfl⟩, _, rfl⟩⟩

theorem serve_smallClients :
    smallClients.Serve (Vector.replicate 32 0) payee.toList := by
  intro x y
  refine ⟨code (none : SmallTx), code (some (14000, 1, .inl 0) : SmallTx), code (.inl 0 : SmallScript),
    rfl, code_ne_nil _, mapError_eq_ok.2 (createSendTransactionToAddress_small x y),
    mapError_eq_ok.2 (getOutputScript_small x y), mapError_eq_ok.2 (hashForSignatureOf_small x y), ?_⟩
  intro r s
  exact ⟨_, mapError_eq_ok.2 (getSignedTransaction_small x y r s), code_ne_nil _⟩

/-- The sale of fifteen at the price that is paid. -/
def smallSale : Sale (ZMod 7) := Sale.new 3 5 20000 false smallParties.1 smallParties.2

/-- It gets to the recovery. -/
theorem untilRecovery_small : ∃ st, untilRecovery SharedSignature.order7
    (fun _ => Vector.replicate 32 0) Cipher.padding searchRoot smallClients (fun _ => smallClients)
    fifteenRandom smallSale = .ok () st := by
  obtain ⟨s, b, hchoose, hkeys⟩ := @chooseInstance_of_serve (ZMod 7) _ _ SharedSignature.order7
    (fun _ => Vector.replicate 32 0) 521 523 7 11 smallClients (fun _ => smallClients) fifteenRandom
    _ (honestRun_fifteen ⟨zeroClient, zeroClient⟩ rfl).draws SharedSignature.keyPrimes_order7 rfl rfl rfl
    (fun _ => ⟨_, serve_smallClients, SharedSignature.regular_unitCall⟩) smallSale
  obtain ⟨st1, -, hbefore, -⟩ := @beforePayment_of_chosen (ZMod 7) _ _ SharedSignature.order7
    (fun _ => Vector.replicate 32 0) Cipher.padding searchRoot smallClients (fun _ => smallClients)
    fifteenRandom smallSale 3 5 s b Cipher.lawful_padding lawful_searchRoot
    ⟨Nat.prime_three, Nat.prime_five, by decide, rfl, rfl⟩ rfl new_not_opened new_not_opened
    (by decide) (fun i => by simp [fifteenRandom]) hchoose hkeys
  obtain ⟨r, Q, hsigns⟩ := signsT2_of_beforePayment hbefore
  have ht1 : code (none : SmallTx) = st1.buyer.singleBuyer.t1 := Except.ok.inj hsigns.sent
  have hprice : st1.seller.price = 20000 := congrArg Prod.snd (keeps_beforePayment.of_ok hbefore)
  have hserved : SellerServed SharedSignature.order7 smallClients.seller st1.seller
      st1.buyer.singleBuyer.t1 := by
    refine ⟨?_, rfl, Or.inr rfl⟩
    rw [← ht1, hprice]
    exact mapError_eq_ok.2 (BitcoinJ.verifyTransaction_eq_true.2 ⟨none, _, 0, found_small _ _, rfl⟩)
  obtain ⟨log, hpay⟩ := @payThrough_ok (ZMod 7) _ SharedSignature.order7 smallClients st1 rfl hserved
  have hinit : onParties SellInformationProtocol.init smallSale = .ok () smallSale :=
    onParties_init_ok (3 : ℤ) 5 20000 false smallParties.1 smallParties.2
  exact ⟨_, (bind_of_ok hinit).trans ((bind_of_ok hbefore).trans hpay)⟩

/-- **What takes the payment.**  Whatever was drawn, in a run that gets to the recovery with
services of one lawful library, what the seller holds takes the output of `T1` that pays the
shared key: the price less the fee goes to the seller's address, with the signature of the parties
in the script.  No chain has both this transaction and the one that the buyer redeems the payment
with, unless they are one. -/
theorem payment_taken (hlib : lib.Lawful) (hserved : ServedBy lib raise clients instanceClients)
    (hrun : untilRecovery ec sha256 aes msr clients instanceClients ρ st₀ = .ok () st) :
    ∃ src o i dst tx, Takes lib ec (st.seller.singleSeller, st.buyer.singleBuyer) src o i dst tx ∧
      o.value = st₀.seller.price.toInt32.toInt ∧
      ∀ chain fresh sk tx', lib.Chain chain →
        lib.redemption fresh st.buyer.singleBuyer.t1 sk
          (integer2string (ec.x st.buyer.singleBuyer.sharedSignatureB.Q))
          (integer2string (ec.y st.buyer.singleBuyer.sharedSignatureB.Q)) = .ok tx' →
        tx ∈ chain → tx' ∈ chain → tx' = tx ∧ fresh = dst := by
  obtain ⟨src, o, i, dst, tx, htakes, hvalue⟩ := takes_of_untilRecovery hlib hserved hrun
  refine ⟨src, o, i, dst, tx, htakes, hvalue, ?_⟩
  intro chain fresh sk tx' hchain hredeem htx htx'
  exact htakes.eq_of_redemption hlib hchain hredeem htx htx'

/-- `payment_taken` for fifteen. -/
theorem payment_taken_small : ∃ st src o i dst tx, untilRecovery SharedSignature.order7
      (fun _ => Vector.replicate 32 0) Cipher.padding searchRoot smallClients (fun _ => smallClients)
      fifteenRandom smallSale = .ok () st ∧
    Takes smallLibrary SharedSignature.order7 (st.seller.singleSeller, st.buyer.singleBuyer) src o i
      dst tx ∧ o.value = 20000 := by
  obtain ⟨st, hrun⟩ := untilRecovery_small
  obtain ⟨src, o, i, dst, tx, htakes, hvalue, -⟩ :=
    payment_taken lawful_smallLibrary servedBy_smallClients hrun
  exact ⟨st, src, o, i, dst, tx, hrun, htakes, hvalue⟩

/-! ## What the recovery can see -/

/-- What the service of the buyer sees of the network and does to it, while the buyer waits. -/
structure Network (Tx : Type) where
  wallet : List Tx
  waitForTransactionByOutput : Bytes → Int32 → Except Exn Bool
  freshReceiveAddress : Address
  broadcast : Tx → Except JavaExn Unit
  waitForTransactionHelper : Tx → ℕ → Bool

/-- The service that the buyer recovers with. -/
def recoveryService (lib : BitcoinJ Tx Script) (raise : JavaExn → Exn) (net : Network Tx) :
    RecoveryClient where
  waitForTransactionByOutput := net.waitForTransactionByOutput
  getSignature addr :=
    (Handler.getSignature lib.toScriptReader (net.wallet.map lib.toTransaction) addr).mapError raise
  redeemTransaction tx sk x y := .ok (lib.redeemTransaction net.freshReceiveAddress net.broadcast
    net.waitForTransactionHelper tx sk x y)

/-- The service sees what is on the chain only: one output is spent once, and what the service has
waited for is there. -/
structure Network.Sees (net : Network Tx) (lib : BitcoinJ Tx Script) (chain : List Tx) : Prop where
  single : lib.Chain chain
  confirmed : ∀ tx, net.waitForTransactionHelper tx 1 = true → tx ∈ chain

/-- The wallet has the transaction, and no other pays this address. -/
structure Network.Shows (net : Network Tx) (lib : BitcoinJ Tx Script) (baddr : Bytes) (addr : Address)
    (tx : Tx) : Prop where
  seen : net.waitForTransactionByOutput baddr 1 = .ok true
  addressed : ∀ t ∈ net.wallet, Handler.Addressed lib.toScriptReader (lib.toTransaction t)
  mem : tx ∈ net.wallet
  only : ∀ t ∈ net.wallet, Handler.Pays lib.toScriptReader addr (lib.toTransaction t) → t = tx

section
variable {net : Network Tx} {src tx : Tx} {o : TransactionOutput Script} {i : ℕ} {dst : Address}
  {chain : List Tx}

/-- A payment that was redeemed has not been taken. -/
theorem Takes.not_mem_of_redeemed (h : Takes lib ec (st.seller.singleSeller, st.buyer.singleBuyer)
    src o i dst tx) (hlib : lib.Lawful) (hsees : net.Sees lib chain)
    (hfresh : net.freshReceiveAddress ≠ dst) {d : ℤ}
    (hredeem : st.buyer.singleBuyer.redeem ec (recoveryService lib raise net) d = .ok true) :
    tx ∉ chain := by
  intro hmem
  obtain ⟨tx', hredemption, -, hwait⟩ := BitcoinJ.redeemTransaction_eq_true.1 (Except.ok.inj hredeem)
  exact hfresh (h.eq_of_redemption hlib hsees.single hredemption hmem (hsees.confirmed tx' hwait)).2

/-- The wallet that has `T2` hands out the signature of the parties. -/
theorem Takes.getSignature (h : Takes lib ec (st.seller.singleSeller, st.buyer.singleBuyer)
    src o i dst tx) (hshows : net.Shows lib st.buyer.singleBuyer.sellerAddress dst tx) :
    (recoveryService lib raise net).getSignature st.buyer.singleBuyer.sellerAddress =
      .ok (BitcoinUtils.getSignature st.seller.singleSeller.sharedSignatureS.r
        st.seller.singleSeller.sharedSignatureS.s) := by
  obtain ⟨input, hinput, hnumbers, -⟩ := h.signed
  have haddress : dst.toList = st.buyer.singleBuyer.sellerAddress := Handler.newAddress_eq_ok h.address
  have hread := BitcoinJ.getSignature_of_only hshows.addressed hshows.mem h.pays.pays hshows.only
    hinput hnumbers
  rw [haddress] at hread
  exact mapError_eq_ok.2 hread

end

/-- The network where `T2` is the one transaction that has been seen. -/
def smallNet (tx : SmallTx) (dst : Address) : Network SmallTx where
  wallet := [tx]
  waitForTransactionByOutput _ _ := .ok true
  freshReceiveAddress := if dst = payee then redeemer else payee
  broadcast _ := .ok ()
  waitForTransactionHelper t _ := decide (t = tx)

theorem fresh_smallNet (tx : SmallTx) (dst : Address) :
    (smallNet tx dst).freshReceiveAddress ≠ dst := by
  by_cases h : dst = payee
  · subst h
    have hfresh : (smallNet tx payee).freshReceiveAddress = redeemer := by
      simp [smallNet]
    rw [hfresh]
    decide
  · have hfresh : (smallNet tx dst).freshReceiveAddress = payee := if_neg h
    rw [hfresh]
    exact Ne.symm h

section
variable {st : Sale (ZMod 7)} {src tx : SmallTx} {o : TransactionOutput SmallScript} {i : ℕ}
  {dst : Address}

theorem sees_smallNet (h : Takes smallLibrary SharedSignature.order7
    (st.seller.singleSeller, st.buyer.singleBuyer) src o i dst tx) :
    (smallNet tx dst).Sees smallLibrary [tx] := by
  refine ⟨?_, fun t ht => by simpa [smallNet] using ht⟩
  unfold BitcoinJ.Chain
  simp [h.spends]

theorem shows_smallNet (h : Takes smallLibrary SharedSignature.order7
    (st.seller.singleSeller, st.buyer.singleBuyer) src o i dst tx) :
    (smallNet tx dst).Shows smallLibrary st.buyer.singleBuyer.sellerAddress dst tx := by
  refine ⟨rfl, ?_, List.mem_singleton_self _, fun t ht _ => List.mem_singleton.1 ht⟩
  intro t ht
  rw [List.mem_singleton.1 ht]
  exact h.pays.addressed

end

/-- A run of honest draws leaves a buyer that finds the key behind its time lock, and the factors
where its wallet shows `T2`. -/
theorem recovers_of_shows {lp lq p q : ℕ} {price : UInt32} {cheat : Bool} {a : SingleSeller Point}
    {b : SingleBuyer Point} {net : Network Tx} {src tx : Tx} {o : TransactionOutput Script} {i : ℕ}
    {dst : Address} (hdraws : HonestDraws ec lp lq ρ) (haes : aes.Lawful) (hmsr : msr.Lawful)
    (hp : p.Prime) (hq : q.Prime) (hpq : p ≠ q) (hp2 : p ≠ 2) (hq2 : q ≠ 2)
    (hsubset : ρ.subset.toList.Nodup)
    (hx : ∀ i : Fin L, 0 ≤ ρ.x[i] ∧ ρ.x[i] < (p * q : ℤ) / 2)
    (hgood : ∃ i : Fin L, i ∉ ρ.subset.toList ∧ IsCoprime ρ.x[i] (p * q : ℤ))
    (hrun : untilRecovery ec sha256 aes msr clients instanceClients ρ
      (Sale.new p q price cheat a b) = .ok () st)
    (htakes : Takes lib ec (st.seller.singleSeller, st.buyer.singleBuyer) src o i dst tx)
    (hshows : net.Shows lib st.buyer.singleBuyer.sellerAddress dst tx) :
    ∃ d b', st.buyer.singleBuyer.timeLockKey ec = .ok d ∧
      Buyer.getSignature sha256 aes (recoveryService lib raise net) st.buyer = .ok () b' ∧
      ((b'.p = p ∧ b'.q = q) ∨ (b'.p = q ∧ b'.q = p)) := by
  obtain ⟨st1, hbefore, hpay⟩ := untilRecovery_eq_ok hrun
  have hst1 := atRecovery_of_ok hdraws haes hmsr ⟨hp, hq, hpq, rfl, rfl⟩ rfl new_not_opened
    new_not_opened hsubset hx hbefore
  obtain ⟨-, log, rfl⟩ := payThrough_eq_ok hpay
  obtain ⟨d, hd, -⟩ := hst1.timeLock
  obtain ⟨b', hsignature, hpair⟩ := hst1.getSignature_ok haes hmsr hp2 hq2 hx hgood hshows.seen
    (htakes.getSignature hshows)
  exact ⟨d, b', hd, hsignature, hpair⟩

/-- **The exchange, as the chain has it.**  With honest draws, once the transaction that takes the
payment is on the chain and the wallet of the buyer has it, the process can end, and in every order
of the threads it ends with the factors: the payment cannot be redeemed any more. -/
theorem exchange_on_chain {lp lq p q : ℕ} {price : UInt32} {cheat : Bool} {a : SingleSeller Point}
    {b : SingleBuyer Point} (hlib : lib.Lawful) (hserved : ServedBy lib raise clients instanceClients)
    (hdraws : HonestDraws ec lp lq ρ) (haes : aes.Lawful) (hmsr : msr.Lawful) (hp : p.Prime)
    (hq : q.Prime) (hpq : p ≠ q) (hp2 : p ≠ 2) (hq2 : q ≠ 2) (hsubset : ρ.subset.toList.Nodup)
    (hx : ∀ i : Fin L, 0 ≤ ρ.x[i] ∧ ρ.x[i] < (p * q : ℤ) / 2)
    (hgood : ∃ i : Fin L, i ∉ ρ.subset.toList ∧ IsCoprime ρ.x[i] (p * q : ℤ))
    (hrun : untilRecovery ec sha256 aes msr clients instanceClients ρ
      (Sale.new p q price cheat a b) = .ok () st) :
    ∃ src o i dst tx, Takes lib ec (st.seller.singleSeller, st.buyer.singleBuyer) src o i dst tx ∧
      ∀ (net : Network Tx) (chain : List Tx), net.Sees lib chain →
        net.Shows lib st.buyer.singleBuyer.sellerAddress dst tx → tx ∈ chain →
        net.freshReceiveAddress ≠ dst →
          (∃ exit, Exits ec sha256 aes msr clients instanceClients ρ (recoveryService lib raise net)
            (Sale.new p q price cheat a b) exit) ∧
          ∀ exit, Exits ec sha256 aes msr clients instanceClients ρ (recoveryService lib raise net)
              (Sale.new p q price cheat a b) exit →
            exit = .printed none p q ∨ exit = .printed none q p := by
  obtain ⟨src, o, i, dst, tx, htakes, -⟩ := takes_of_untilRecovery hlib hserved hrun
  refine ⟨src, o, i, dst, tx, htakes, ?_⟩
  intro net chain hsees hshows hmem hfresh
  obtain ⟨d, b', hd, hsignature, hpair⟩ := recovers_of_shows hdraws haes hmsr hp hq hpq hp2 hq2
    hsubset hx hgood hrun htakes hshows
  refine ⟨⟨_, exits_of_getSignature hrun hsignature⟩, ?_⟩
  intro exit hexit
  have hfair := fair_of_getSignature hrun hd hsignature hpair hexit
  cases exit with
  | terminated =>
    obtain ⟨e, he⟩ := hfair
    cases he
  | printed caught p' q' =>
    obtain ⟨rfl, ⟨rfl, rfl⟩ | ⟨rfl, rfl⟩ | ⟨-, -, hredeem⟩⟩ := hfair
    · exact Or.inl rfl
    · exact Or.inr rfl
    · exact absurd hmem (htakes.not_mem_of_redeemed hlib hsees hfresh hredeem)

/-- `exchange_on_chain` for fifteen. -/
theorem exchange_on_chain_small : ∃ st tx dst exit, untilRecovery SharedSignature.order7
      (fun _ => Vector.replicate 32 0) Cipher.padding searchRoot smallClients (fun _ => smallClients)
      fifteenRandom smallSale = .ok () st ∧
    Exits SharedSignature.order7 (fun _ => Vector.replicate 32 0) Cipher.padding searchRoot
      smallClients (fun _ => smallClients) fifteenRandom
      (recoveryService smallLibrary (fun _ => .stdException) (smallNet tx dst)) smallSale exit ∧
    (exit = .printed none 3 5 ∨ exit = .printed none 5 3) := by
  obtain ⟨st, hrun⟩ := untilRecovery_small
  obtain ⟨src, o, i, dst, tx, htakes, hends⟩ := exchange_on_chain lawful_smallLibrary
    servedBy_smallClients (honestRun_fifteen ⟨zeroClient, zeroClient⟩ rfl).draws Cipher.lawful_padding lawful_searchRoot
    Nat.prime_three Nat.prime_five (by decide) (by decide) (by decide) (by decide)
    (fun i => by simp [fifteenRandom])
    ⟨⟨5, by decide⟩, by decide, by simp [fifteenRandom, isCoprime_one_left]⟩ hrun
  obtain ⟨⟨exit, hexit⟩, hall⟩ := hends (smallNet tx dst) [tx] (sees_smallNet htakes)
    (shows_smallNet htakes) (List.mem_singleton_self _) (fresh_smallNet tx dst)
  exact ⟨st, tx, dst, exit, hrun, hexit, hall exit hexit⟩

end

end SellingInformation.Main
