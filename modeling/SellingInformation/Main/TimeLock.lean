import SellingInformation.Main.SignatureKey
import SellingInformation.SharedSignature.Signing
import SellingInformation.TimedCommitment.Proof

/-!
# The key behind the time lock

An instance runs in three parts: the shared key and the signature (`signT2`), the
commitment to the seller's share, and the hash commitments (`commitKeys`).  The
first does not touch the committer, the last does not touch the receiver, and
neither touches the shares and the public key once they are made (`Shares`); so
what the buyer forces open at the end is the share of the run.

* `exec_locked` — what a run that returned leaves behind;
* `timeLockKey_eq` — from which the buyer computes the payment key;
* `exec_ok` — and honest parties, with services that serve them, do return.
-/

namespace SellingInformation.Main

open CryptoPP Common Fallible

variable {Point : Type} [AddCommGroup Point] [DecidableEq Point]

/-! ## The parts of an instance -/

namespace SingleSellInformationProtocol

variable (ec : ECParameters Point) (sha256 : Sha256)

/-- The part of `exec` between the shared key and the time lock. -/
def signT2 (clients : Clients) (ρ : InstanceRandom) :
    Proc (SingleSeller Point × SingleBuyer Point) Unit := do
  modify fun (s, b) => (s, { b with sellerAddress := s.address })
  onSnd (SingleBuyer.createT1AndT2 ec clients.buyer)
  modify fun (s, b) => ({ s with t1OutputScript := b.t1OutputScript, t2 := b.t2 }, b)
  modify fun (s, b) => ({ s with sharedSignatureS := s.sharedSignatureS.setData b.t2Hash },
    { b with sharedSignatureB := b.sharedSignatureB.setData b.t2Hash })
  onSharedSignature (SharedSignature.exec ec ρ.sign)
  onFst (SingleSeller.verifyT2Signature ec clients.seller)

/-- The part of `exec` that makes the time lock. -/
def lockShare (K : UInt32) (ρ : InstanceRandom) :
    Proc (SingleSeller Point × SingleBuyer Point) Unit := do
  let (s, _) ← get
  let bits ← lift (TimedCommitment.BitUtils.integerToBits s.sharedSignatureS.ds)
  let _ ← onTimedCommitment (TimedCommitment.commit sha256 K bits ρ.h ρ.zk)
  pure ()

/-- The part of `exec` after the time lock. -/
def commitKeys (ρ : InstanceRandom) : Proc (SingleSeller Point × SingleBuyer Point) Unit := do
  modify fun (s, b) => (s.genKeysAndSetupCommits sha256, b)
  (List.finRange L).forM fun i => onKeysCommit i (ShaCommitment.exec sha256 (ρ.keySeeds i))
  onSignatureCommit (ShaCommitment.exec sha256 ρ.signatureSeed)

theorem exec_eq (K : UInt32) (clients : Clients) (ρ : InstanceRandom) :
    exec ec sha256 K clients ρ = (do
      onSharedSignature (SharedSignature.init ec ρ.ds ρ.db)
      signT2 ec clients ρ
      lockShare sha256 K ρ
      commitKeys sha256 ρ) := by
  simp only [exec, signT2, lockShare, commitKeys, bind_assoc, pure_bind]

end SingleSellInformationProtocol

open SingleSellInformationProtocol

variable {ec : ECParameters Point} {sha256 : Sha256}

/-! ## Frames -/

/-- The shares and the public key, as the two parties hold them. -/
def sharesOf (st : SharedSignature.S Point × SharedSignature.B Point) : (ℤ × ℤ) × Point × Point :=
  ((st.1.ds, st.2.db), st.1.Q, st.2.Q)

/-- The shares and the public key of an instance. -/
def shares (st : SingleSeller Point × SingleBuyer Point) : (ℤ × ℤ) × Point × Point :=
  sharesOf (st.1.sharedSignatureS, st.2.sharedSignatureB)

omit [DecidableEq Point] in
theorem keeps_startSig (ks encDs : ℤ) :
    Keeps (fun s : SharedSignature.S Point => ((s.ds, s.Q), s.data))
      (SharedSignature.S.startSig ec ks encDs) := by
  refine Keeps.bind (Keeps.modify fun _ => rfl) fun _ => ?_
  refine Keeps.bind Keeps.get fun _ => ?_
  exact Keeps.bind Keeps.lift fun _ => Keeps.modify fun _ => rfl

omit [DecidableEq Point] in
theorem keeps_contSig (Ks : Point) (cs : ℤ) (m : Bytes) (ρ : SharedSignature.SignRandom) :
    Keeps (fun b : SharedSignature.B Point => ((b.db, b.Q), b.data))
      (SharedSignature.B.contSig ec Ks cs m ρ) := by
  refine Keeps.bind (Keeps.modify fun _ => rfl) fun _ => ?_
  refine Keeps.bind Keeps.get fun _ => ?_
  refine Keeps.bind Keeps.throwIf fun _ => ?_
  refine Keeps.bind Keeps.lift fun _ => ?_
  refine Keeps.bind Keeps.lift fun _ => ?_
  refine Keeps.bind Keeps.lift fun _ => ?_
  exact Keeps.bind Keeps.lift fun _ => Keeps.modify fun _ => rfl

theorem keeps_finishSig (r cb : ℤ) :
    Keeps (fun s : SharedSignature.S Point => ((s.ds, s.Q), s.data))
      (SharedSignature.S.finishSig ec r cb) := by
  refine Keeps.bind (Keeps.modify fun _ => rfl) fun _ => ?_
  refine Keeps.bind Keeps.get fun _ => ?_
  refine Keeps.bind Keeps.lift fun _ => ?_
  refine Keeps.bind (Keeps.modify fun _ => rfl) fun _ => ?_
  refine Keeps.bind Keeps.throwIf fun _ => ?_
  refine Keeps.bind (Keeps.modify fun _ => rfl) fun _ => ?_
  refine Keeps.bind Keeps.get fun _ => ?_
  refine Keeps.bind Keeps.lift fun _ => ?_
  exact Keeps.bind Keeps.lift fun _ => Keeps.throwIf

/-- Signing leaves the shares, the public key and the data alone. -/
theorem keeps_sign (ρ : SharedSignature.SignRandom) :
    Keeps (fun st : SharedSignature.S Point × SharedSignature.B Point =>
      (sharesOf st, st.1.data, st.2.data)) (SharedSignature.exec ec ρ) := by
  have hfst : ∀ {α : Type} {m : Proc (SharedSignature.S Point) α},
      Keeps (fun s => ((s.ds, s.Q), s.data)) m →
        Keeps (fun st : SharedSignature.S Point × SharedSignature.B Point =>
          (sharesOf st, st.1.data, st.2.data)) (onFst m) := by
    intro α m hm
    refine Keeps.zoom_of hm fun t s h => ?_
    simp only [Prod.mk.injEq] at h
    obtain ⟨⟨hds, hQ⟩, hdata⟩ := h
    simp only [sharesOf, hds, hQ, hdata]
  have hsnd : ∀ {α : Type} {m : Proc (SharedSignature.B Point) α},
      Keeps (fun b => ((b.db, b.Q), b.data)) m →
        Keeps (fun st : SharedSignature.S Point × SharedSignature.B Point =>
          (sharesOf st, st.1.data, st.2.data)) (onSnd m) := by
    intro α m hm
    refine Keeps.zoom_of hm fun t s h => ?_
    simp only [Prod.mk.injEq] at h
    obtain ⟨⟨hdb, hQ⟩, hdata⟩ := h
    simp only [sharesOf, hdb, hQ, hdata]
  refine Keeps.bind (hfst (keeps_startSig _ _)) fun _ => ?_
  refine Keeps.bind Keeps.get fun _ => ?_
  refine Keeps.bind (hsnd (keeps_contSig _ _ _ _)) fun _ => ?_
  refine Keeps.bind Keeps.get fun _ => ?_
  exact hfst (keeps_finishSig _ _)

omit [DecidableEq Point] in
theorem keeps_createT1AndT2 (client : BitcoinUtilsClient) :
    Keeps (fun b : SingleBuyer Point => b.sharedSignatureB)
      (SingleBuyer.createT1AndT2 ec client) := by
  refine Keeps.bind Keeps.get fun _ => ?_
  refine Keeps.bind Keeps.lift fun _ => ?_
  refine Keeps.bind (Keeps.modify fun _ => rfl) fun _ => ?_
  refine Keeps.bind Keeps.throwIf fun _ => ?_
  refine Keeps.bind Keeps.lift fun _ => ?_
  refine Keeps.bind (Keeps.modify fun _ => rfl) fun _ => ?_
  refine Keeps.bind Keeps.lift fun _ => ?_
  refine Keeps.bind (Keeps.modify fun _ => rfl) fun _ => ?_
  exact Keeps.bind Keeps.lift fun _ => Keeps.modify fun _ => rfl

omit [DecidableEq Point] in
theorem keeps_verifyT2Signature (client : BitcoinUtilsClient) :
    Keeps (fun s : SingleSeller Point => (s.sharedSignatureS, s.timedCommitmentCommiter))
      (SingleSeller.verifyT2Signature ec client) := by
  refine Keeps.bind Keeps.get fun _ => ?_
  refine Keeps.bind Keeps.lift fun _ => ?_
  exact Keeps.bind Keeps.throwIf fun _ => Keeps.modify fun _ => rfl

/-- Everything between the shared key and the time lock leaves the committer alone. -/
theorem keeps_signT2 (clients : Clients) (ρ : InstanceRandom) :
    Keeps (fun st : SingleSeller Point × SingleBuyer Point =>
      (shares st, st.1.timedCommitmentCommiter)) (signT2 ec clients ρ) := by
  refine Keeps.bind (Keeps.modify fun _ => rfl) fun _ => ?_
  refine Keeps.bind (Keeps.zoom_of (keeps_createT1AndT2 _) ?_) fun _ => ?_
  · intro t s h
    simp only [shares, h]
  refine Keeps.bind (Keeps.modify fun _ => rfl) fun _ => ?_
  refine Keeps.bind (Keeps.modify fun _ => rfl) fun _ => ?_
  refine Keeps.bind (Keeps.zoom_of (keeps_sign _) ?_) fun _ => ?_
  · intro t s h
    obtain ⟨hsig, -⟩ := Prod.mk.inj h
    simpa only [shares, Prod.mk.injEq, and_true] using hsig
  refine Keeps.zoom_of (keeps_verifyT2Signature _) ?_
  intro t s h
  obtain ⟨hsig, hcom⟩ := Prod.mk.inj h
  simp only [shares, hsig, hcom]

omit [AddCommGroup Point] [DecidableEq Point] in
/-- Everything after the time lock leaves the parties of the sub-protocols before it alone. -/
theorem keeps_commitKeys (ρ : InstanceRandom) :
    Keeps (fun st : SingleSeller Point × SingleBuyer Point =>
      ((st.1.sharedSignatureS, st.2.sharedSignatureB), st.1.timedCommitmentCommiter,
        st.2.timedCommitmentReceiver)) (commitKeys sha256 ρ) := by
  refine Keeps.bind (Keeps.modify fun _ => rfl) fun _ => ?_
  refine Keeps.bind (Keeps.forM fun i _ => Keeps.zoom fun _ _ => rfl) fun _ => ?_
  exact Keeps.zoom fun _ _ => rfl

/-! ## What a run leaves behind -/

section
variable {K : UInt32} {clients : Clients} {ρ : InstanceRandom}
  {st : SingleSeller Point × SingleBuyer Point}

omit [AddCommGroup Point] [DecidableEq Point] in
/-- Making the time lock changes the two parties of the timed commitment only. -/
theorem lockShare_eq_ok {s : SingleSeller Point} {b : SingleBuyer Point} {u : Unit} :
    lockShare sha256 K ρ (s, b) = .ok u st ↔ ∃ bits com t,
      TimedCommitment.BitUtils.integerToBits s.sharedSignatureS.ds = .ok bits ∧
      TimedCommitment.commit sha256 K bits ρ.h ρ.zk
        (s.timedCommitmentCommiter, b.timedCommitmentReceiver) = .ok com t ∧
      st = ({ s with timedCommitmentCommiter := t.1 }, { b with timedCommitmentReceiver := t.2 }) := by
  simp only [lockShare, onTimedCommitment, bind_eq_ok, get_apply, lift_eq_ok, zoom_eq_ok, pure_apply]
  constructor
  · rintro ⟨_, _, hget, bits, _, ⟨hbits, rfl⟩, com, _, ⟨t, hcommit, rfl⟩, hpure⟩
    cases hget
    cases hpure
    exact ⟨bits, com, t, hbits, hcommit, rfl⟩
  · rintro ⟨bits, com, t, hbits, hcommit, rfl⟩
    exact ⟨_, _, rfl, bits, _, ⟨hbits, rfl⟩, com, _, ⟨t, hcommit, rfl⟩, rfl⟩

/-- What the parties hold once an instance has been executed: the two shares, one public key,
and the commitment that was made to the bits of the seller's share. -/
structure Locked (ec : ECParameters Point) (K : UInt32) (ρ : InstanceRandom)
    (c : TimedCommitment.Commiter) (st : SingleSeller Point × SingleBuyer Point) : Prop where
  db_eq : st.2.sharedSignatureB.db = ρ.db
  Qs_eq : st.1.sharedSignatureS.Q = (ρ.ds * ρ.db) • ec.G
  Qb_eq : st.2.sharedSignatureB.Q = (ρ.ds * ρ.db) • ec.G
  commitment : ∃ bits c', TimedCommitment.BitUtils.integerToBits ρ.ds = .ok bits ∧
    TimedCommitment.Commiter.commit K bits ρ.h c = .ok st.2.timedCommitmentReceiver.com c' ∧
    ∃ commits alpha, st.1.timedCommitmentCommiter = { c' with commits, alpha }

/-- The run lemma: what an instance that returned leaves behind. -/
theorem exec_locked {s : SingleSeller Point} {b : SingleBuyer Point}
    (hrun : exec ec sha256 K clients ρ (s, b) = .ok () st) :
    Locked ec K ρ s.timedCommitmentCommiter st := by
  rw [exec_eq] at hrun
  simp only [bind_eq_ok, onSharedSignature, zoom_eq_ok] at hrun
  obtain ⟨_, st1, ⟨t, hinit, rfl⟩, _, ⟨s2, b2⟩, hsign, _, st3, hlock, hkeys⟩ := hrun
  rw [SharedSignature.init_apply] at hinit
  cases hinit
  obtain ⟨hshares, hcom⟩ := Prod.mk.inj ((keeps_signT2 clients ρ).of_ok hsign)
  obtain ⟨bits, com, ⟨c', r'⟩, hbits, hcommit, rfl⟩ := lockShare_eq_ok.1 hlock
  have hkept := (keeps_commitKeys ρ).of_ok hkeys
  obtain ⟨c1, hmade, hsender, hheld⟩ := TimedCommitment.commit_frame hcommit
  simp only [shares, sharesOf, Prod.mk.injEq] at hshares hkept hcom
  obtain ⟨⟨hds, hdb⟩, hQs, hQb⟩ := hshares
  obtain ⟨⟨hs, hb⟩, hcommiter, hreceiver⟩ := hkept
  rw [← hs] at hQs
  rw [← hb] at hdb hQb
  refine ⟨hdb, hQs, hQb, bits, c1, ?_, ?_, ?_⟩
  · rw [← hds]
    exact hbits
  · rw [hreceiver, hheld, ← hcom]
    exact hmade
  · rw [hcommiter]
    exact hsender

end

/-! ## What the buyer computes -/

omit [DecidableEq Point] in
/-- A share is at most as long as the order of the curve. -/
theorem minEncodedSize_share (ec : ECParameters Point) {ds : ℤ} (hds : 1 ≤ ds ∧ ds ≤ ec.n - 1) :
    minEncodedSize ds ≤ 32 := by
  have hn := Radix.byteLength_le_iff.1 ec.byteCount_n
  have hbytes : byteCount ds ≤ 32 := by
    refine Radix.byteLength_le_iff.2 (lt_of_le_of_lt ?_ hn)
    omega
  exact max_le (by decide) hbytes

section
variable {p q : ℕ} {K : UInt32} {clients : Clients} {ρ : InstanceRandom}
  {s : SingleSeller Point} {b : SingleBuyer Point} {st : SingleSeller Point × SingleBuyer Point}

/-- The bits that are committed to. -/
def shareBits (ds : ℤ) : List Bool := TimedCommitment.toBits (encode ds (minEncodedSize ds))

omit [DecidableEq Point] in
theorem length_shareBits (hds : 1 ≤ ρ.ds ∧ ρ.ds ≤ ec.n - 1) : (shareBits ρ.ds).length ≤ 2 ^ 8 := by
  have hsize := minEncodedSize_share ec hds
  unfold shareBits
  rw [TimedCommitment.length_toBits, length_encode]
  omega

omit [DecidableEq Point] in
/-- Both parties hold the honest commitment to the share. -/
theorem commitment_of_locked (hp : TimedCommitment.IsSafePrime p)
    (hq : TimedCommitment.IsSafePrime q) (hpq : p ≠ q) (hK : 9 ≤ K.toNat)
    (hds : 1 ≤ ρ.ds ∧ ρ.ds ≤ ec.n - 1) (hh : IsCoprime ρ.h (p * q : ℤ))
    (hst : Locked ec K ρ (TimedCommitment.Commiter.ofPrimes p q) st) :
    st.2.timedCommitmentReceiver.com = TimedCommitment.honestCom (p * q) ρ.h K (shareBits ρ.ds) ∧
      st.1.timedCommitmentCommiter.com = TimedCommitment.honestCom (p * q) ρ.h K (shareBits ρ.ds) ∧
      st.1.timedCommitmentCommiter.n = p * q ∧
      st.1.timedCommitmentCommiter.phi = ((p : ℤ) - 1) * (q - 1) := by
  obtain ⟨bits, c', hbits, hcommit, commits, alpha, hc⟩ := hst.commitment
  rw [TimedCommitment.integerToBits_of_nonneg (by omega)] at hbits
  cases hbits
  have hlen : (shareBits ρ.ds).length ≤ 2 ^ K.toNat :=
    (length_shareBits hds).trans (Nat.pow_le_pow_right (by decide) (by omega))
  obtain ⟨order, -, -, happly⟩ := TimedCommitment.commit_apply
    (TimedCommitment.Commiter.honest_ofPrimes hp hq hpq) (by omega) hlen hh
  unfold shareBits at happly
  rw [happly] at hcommit
  cases hresize : TimedCommitment.resizeCheck K with
  | ok _ =>
    rw [hresize] at hcommit
    simp only [EStateM.Result.ok.injEq] at hcommit
    obtain ⟨hcom, rfl⟩ := hcommit
    rw [hc]
    exact ⟨hcom.symm, rfl, rfl, rfl⟩
  | error e =>
    rw [hresize] at hcommit
    cases hcommit

omit [DecidableEq Point] in
/-- The commitment to the share gives its bits back, and they are the share. -/
theorem forceOpenSmart_of_locked (hp : TimedCommitment.IsSafePrime p)
    (hq : TimedCommitment.IsSafePrime q) (hpq : p ≠ q) (hK : 9 ≤ K.toNat)
    (hds : 1 ≤ ρ.ds ∧ ρ.ds ≤ ec.n - 1) (hh : IsCoprime ρ.h (p * q : ℤ))
    (hst : Locked ec K ρ (TimedCommitment.Commiter.ofPrimes p q) st) :
    ∃ bits, st.2.timedCommitmentReceiver.forceOpenSmart = .ok bits ∧
      TimedCommitment.BitUtils.bitsToInteger bits = .ok ρ.ds := by
  have hsize := minEncodedSize_share ec hds
  have hlen := length_shareBits hds
  -- 256 bits at most, and the shortcut takes `2 ^ (K - 1)`
  have hhalf : (shareBits ρ.ds).length ≤ 2 ^ (K.toNat - 1) :=
    hlen.trans (Nat.pow_le_pow_right (by decide) (by omega))
  obtain ⟨hcom, -⟩ := commitment_of_locked hp hq hpq hK hds hh hst
  refine ⟨shareBits ρ.ds, ?_, TimedCommitment.bitsToInteger_toBits_encode (by omega) (by omega)⟩
  have hforce := TimedCommitment.forceOpenSmart_honest
    (TwoPrimes.cast_mul_ne_zero hp.prime hq.prime) hcom (by omega) hhalf
  rwa [TimedCommitment.take_unsigned_eq_iff.2 (by omega)] at hforce

/-- **The time lock returns the payment key.**  After an instance that returned, the buyer's
forced opening gives the seller's share; with its own share that is the key of the public
key both parties hold, and the string that is sent to redeem it loses nothing. -/
theorem timeLockKey_eq (hp : TimedCommitment.IsSafePrime p) (hq : TimedCommitment.IsSafePrime q)
    (hpq : p ≠ q) (hK : 9 ≤ K.toNat) (hds : 1 ≤ ρ.ds ∧ ρ.ds ≤ ec.n - 1)
    (hdb : 1 ≤ ρ.db ∧ ρ.db ≤ ec.n - 1) (hh : IsCoprime ρ.h (p * q : ℤ))
    (hs : s.timedCommitmentCommiter = TimedCommitment.Commiter.ofPrimes p q)
    (hrun : exec ec sha256 K clients ρ (s, b) = .ok () st) :
    ∃ bits d, st.2.timedCommitmentReceiver.forceOpenSmart = .ok bits ∧
      TimedCommitment.BitUtils.bitsToInteger bits = .ok ρ.ds ∧
      st.2.timeLockKey ec = .ok d ∧ d = ρ.ds * ρ.db % ec.n ∧ 1 ≤ d ∧ d ≤ ec.n - 1 ∧
      d • ec.G = st.1.sharedSignatureS.Q ∧ d • ec.G = st.2.sharedSignatureB.Q ∧
      ofBytes (integer2string d) = d := by
  have hst := exec_locked hrun
  rw [hs] at hst
  obtain ⟨bits, hforce, hbits⟩ := forceOpenSmart_of_locked hp hq hpq hK hds hh hst
  have hn := SharedSignature.n_pos ec
  have hd0 : 0 ≤ ρ.ds * ρ.db % ec.n := Int.emod_nonneg _ hn.ne'
  have hdn : ρ.ds * ρ.db % ec.n < ec.n := Int.emod_lt_of_pos _ hn
  have hkey : (ρ.ds * ρ.db % ec.n) • ec.G = (ρ.ds * ρ.db) • ec.G :=
    ec.smul_G_congr (ZMod.intCast_mod _ _)
  have hne : ρ.ds * ρ.db % ec.n ≠ 0 := by
    intro hzero
    apply SharedSignature.publicKey_ne_zero hds hdb
    rw [← hkey, hzero, zero_smul]
  refine ⟨bits, ρ.ds * ρ.db % ec.n, hforce, hbits, ?_, rfl, by omega, by omega, ?_, ?_, ?_⟩
  · unfold SingleBuyer.timeLockKey
    rw [hforce, except_ok_bind, hbits, except_ok_bind, hst.db_eq]
  · rw [hkey, hst.Qs_eq]
  · rw [hkey, hst.Qb_eq]
  · exact ofBytes_toBytes_of_nonneg hd0

end

/-! ## Honest instances return -/

/-- A service that does what it is asked, with one hash for every transaction. -/
structure BitcoinUtilsClient.Answers (client : BitcoinUtilsClient) (hash : Bytes32) : Prop where
  createSend : ∀ x y value, ∃ t1, client.createSend x y value = .ok t1 ∧ t1.length ≠ 0
  createSendTransactionToAddress : ∀ t1 x y dst, ∃ t2,
    client.createSendTransactionToAddress t1 x y dst = .ok t2
  getOutputScript : ∀ t1 x y, ∃ script, client.getOutputScript t1 x y = .ok script
  hashForSignature : ∀ t2 x y script, client.hashForSignature t2 x y script = .ok hash.toList
  getSignedTransaction : ∀ t2 x y r s script, ∃ res,
    client.getSignedTransaction t2 x y r s script = .ok res ∧ res.length ≠ 0

/-- The calls of one instance, in their order: what the buyer's service makes for the address of
the seller is signed by the seller's. -/
def Clients.Serve (clients : Clients) (hash : Bytes32) (address : Bytes) : Prop :=
  ∀ x y, ∃ t1 t2 script, clients.buyer.createSend x y 20000 = .ok t1 ∧ t1.length ≠ 0 ∧
    clients.buyer.createSendTransactionToAddress t1 x y address = .ok t2 ∧
    clients.buyer.getOutputScript t1 x y = .ok script ∧
    clients.buyer.hashForSignature t2 x y script = .ok hash.toList ∧
    ∀ r s, ∃ res, clients.seller.getSignedTransaction t2 x y r s script = .ok res ∧ res.length ≠ 0

section
variable {hash : Bytes32} {client : BitcoinUtilsClient}

theorem serve_of_answers {clients : Clients} (hseller : clients.seller.Answers hash)
    (hbuyer : clients.buyer.Answers hash) (address : Bytes) : clients.Serve hash address := by
  intro x y
  obtain ⟨t1, ht1, hlen⟩ := hbuyer.createSend x y 20000
  obtain ⟨t2, ht2⟩ := hbuyer.createSendTransactionToAddress t1 x y address
  obtain ⟨script, hscript⟩ := hbuyer.getOutputScript t1 x y
  exact ⟨t1, t2, script, ht1, hlen, ht2, hscript, hbuyer.hashForSignature t2 x y script,
    fun r s => hseller.getSignedTransaction t2 x y r s script⟩

omit [DecidableEq Point] in
theorem createT1AndT2_ok {b : SingleBuyer Point} {t1 t2 script hash : Bytes}
    (ht1 : client.createSend (integer2string (ec.x b.sharedSignatureB.Q))
      (integer2string (ec.y b.sharedSignatureB.Q)) 20000 = .ok t1) (hlen : t1.length ≠ 0)
    (ht2 : client.createSendTransactionToAddress t1 (integer2string (ec.x b.sharedSignatureB.Q))
      (integer2string (ec.y b.sharedSignatureB.Q)) b.sellerAddress = .ok t2)
    (hscript : client.getOutputScript t1 (integer2string (ec.x b.sharedSignatureB.Q))
      (integer2string (ec.y b.sharedSignatureB.Q)) = .ok script)
    (hhash : client.hashForSignature t2 (integer2string (ec.x b.sharedSignatureB.Q))
      (integer2string (ec.y b.sharedSignatureB.Q)) script = .ok hash) :
    SingleBuyer.createT1AndT2 ec client b =
      .ok () { b with t1, t2, t1OutputScript := script, t2Hash := hash } := by
  simp only [SingleBuyer.createT1AndT2, bind_apply, get_apply, modify_apply, ht1, ht2, hscript,
    hhash, lift_ok, throwIf_of_not hlen]

omit [DecidableEq Point] in
theorem verifyT2Signature_ok {s : SingleSeller Point} {res : Bytes}
    (hres : client.getSignedTransaction s.t2 (integer2string (ec.x s.sharedSignatureS.Q))
      (integer2string (ec.y s.sharedSignatureS.Q)) (integer2string s.sharedSignatureS.r)
      (integer2string s.sharedSignatureS.s) s.t1OutputScript = .ok res) (hlen : res.length ≠ 0) :
    SingleSeller.verifyT2Signature ec client s = .ok () { s with t2 := res } := by
  simp only [SingleSeller.verifyT2Signature, bind_apply, get_apply, modify_apply, hres, lift_ok,
    throwIf_of_not hlen]

/-- With services that serve the instance, the hash of `T2` gets signed. -/
theorem signT2_ok {P Q : ℕ} (hk : SharedSignature.KeyPrimes (SharedSignature.S.paillierBits ec) P Q)
    {clients : Clients} {ρ : InstanceRandom} (hds : 1 ≤ ρ.ds ∧ ρ.ds ≤ ec.n - 1)
    (hdb : 1 ≤ ρ.db ∧ ρ.db ≤ ec.n - 1)
    (hcall : (SharedSignature.Call.mk hash ρ.sign).Regular ec ρ.ds ρ.db (P * Q))
    {s : SingleSeller Point} {b : SingleBuyer Point} (hserve : clients.Serve hash s.address)
    (hready : SharedSignature.Ready ec P Q ρ.ds ρ.db (s.sharedSignatureS, b.sharedSignatureB)) :
    ∃ st, signT2 ec clients ρ (s, b) = .ok () st := by
  obtain ⟨t1, t2, script, ht1, hlen, ht2, hscript, hhash, hsigned⟩ :=
    hserve (integer2string (ec.x b.sharedSignatureB.Q)) (integer2string (ec.y b.sharedSignatureB.Q))
  obtain ⟨b1, hb1, hcreate⟩ : ∃ b1 : SingleBuyer Point,
      b1 = { b with sellerAddress := s.address, t1, t2, t1OutputScript := script, t2Hash := hash.toList } ∧
        SingleBuyer.createT1AndT2 ec clients.buyer { b with sellerAddress := s.address } = .ok () b1 :=
    ⟨_, rfl, createT1AndT2_ok ht1 hlen ht2 hscript hhash⟩
  obtain ⟨t, hcall, -, -⟩ := SharedSignature.sign_ok hk hcall hds hdb hready
  have hsign : SharedSignature.exec ec ρ.sign (s.sharedSignatureS.setData hash.toList,
      b.sharedSignatureB.setData hash.toList) = .ok () t := by
    unfold SharedSignature.sign at hcall
    rw [bind_of_ok (modify_apply _ _)] at hcall
    exact hcall
  -- signing leaves the public key alone, and both parties have the same
  have hshares := congrArg Prod.fst ((keeps_sign ρ.sign).of_ok hsign)
  simp only [sharesOf, Prod.mk.injEq] at hshares
  have hQ : t.1.Q = b.sharedSignatureB.Q := by
    rw [hshares.2.1]
    exact hready.Qs_eq.trans hready.Qb_eq.symm
  obtain ⟨res, hres, hresLen⟩ := hsigned (integer2string t.1.r) (integer2string t.1.s)
  rw [← hQ] at hres
  obtain ⟨s', hverify⟩ : ∃ s', SingleSeller.verifyT2Signature ec clients.seller
      { s with t1OutputScript := script, t2, sharedSignatureS := t.1 } = .ok () s' :=
    ⟨_, verifyT2Signature_ok hres hresLen⟩
  have htail : (onSharedSignature (SharedSignature.exec ec ρ.sign) >>= fun _ =>
      onFst (SingleSeller.verifyT2Signature ec clients.seller))
        ({ s with t1OutputScript := b1.t1OutputScript, t2 := b1.t2,
                  sharedSignatureS := s.sharedSignatureS.setData b1.t2Hash },
          { b1 with sharedSignatureB := b1.sharedSignatureB.setData b1.t2Hash }) =
      .ok () (s', { b1 with sharedSignatureB := t.2 }) := by
    subst hb1
    exact bind_eq_ok.2 ⟨(), _, zoom_of_ok hsign, onFst_of_ok hverify⟩
  refine ⟨(s', { b1 with sharedSignatureB := t.2 }), ?_⟩
  refine bind_eq_ok.2 ⟨(), _, modify_apply _ _, ?_⟩
  refine bind_eq_ok.2 ⟨(), _, onSnd_of_ok hcreate, ?_⟩
  refine bind_eq_ok.2 ⟨(), _, modify_apply _ _, ?_⟩
  exact bind_eq_ok.2 ⟨(), _, modify_apply _ _, htail⟩

/-- The keys of an instance are those of a signature, and the buyer holds their hashes. -/
structure KeysAgree (sha256 : Sha256) (signature : Bytes) (s : SingleSeller Point)
    (b : SingleBuyer Point) : Prop where
  key : ∀ i : Fin L, s.keysCommits[i].m = (genKeys sha256 signature)[i].toList
  com : ∀ i : Fin L, b.keysCommits[i].com =
    ShaCommitment.computeSha sha256 s.keysCommits[i].m s.keysCommits[i].seed

/-- The seller has committed to its signature and to the keys of it. -/
structure KeysCommitted (sha256 : Sha256) (st : SingleSeller Point × SingleBuyer Point) : Prop where
  keys : KeysAgree sha256 st.1.sharedSignatureS.getSignature st.1 st.2
  signature : st.1.signatureCommit.m = st.1.sharedSignatureS.getSignature
  com : st.2.signatureCommit.com =
    ShaCommitment.computeSha sha256 st.1.signatureCommit.m st.1.signatureCommit.seed

omit [AddCommGroup Point] [DecidableEq Point] in
/-- The hash commitments are made whatever the state is. -/
theorem commitKeys_spec (ρ : InstanceRandom) : Triple (fun _ => True) (commitKeys sha256 ρ)
    (fun _ st => KeysCommitted sha256 (st : SingleSeller Point × SingleBuyer Point))
    (fun _ _ => False) := by
  refine Triple.bind (Q := fun _ st => (∀ i : Fin L, st.1.keysCommits[i].m =
      (genKeys sha256 st.1.sharedSignatureS.getSignature)[i].toList) ∧
    st.1.signatureCommit.m = st.1.sharedSignatureS.getSignature) (Triple.modify ?_) fun _ => ?_
  · intro st _
    refine ⟨?_, rfl⟩
    intro i
    simp [SingleSeller.genKeysAndSetupCommits]
  refine Triple.bind (Triple.forM_each (R := fun i st => st.2.keysCommits[i].com =
    ShaCommitment.computeSha sha256 st.1.keysCommits[i].m st.1.keysCommits[i].seed) ?_) fun _ => ?_
  · rintro i - st ⟨hkeys, hsig⟩
    refine ⟨⟨?_, hsig⟩, ?_, ?_⟩
    · intro j
      refine Eq.trans ?_ (hkeys j)
      by_cases hij : i = j
      · subst hij
        simp
      · simp [Fin.ext_iff.not.1 hij]
    · simp
    · intro j hji hj
      simpa [Fin.ext_iff.not.1 (Ne.symm hji)] using hj
  · rintro st ⟨⟨hkeys, hsig⟩, hcom⟩
    exact ⟨⟨hkeys, fun i => hcom i (List.mem_finRange i)⟩, hsig, rfl⟩

/-- **Completeness of an instance.**  Honest parties, with services that serve it, return. -/
theorem exec_ok {P Q p q : ℕ} (hk : SharedSignature.KeyPrimes (SharedSignature.S.paillierBits ec) P Q)
    (hp : TimedCommitment.IsSafePrime p) (hq : TimedCommitment.IsSafePrime q) (hpq : p ≠ q)
    {K : UInt32} (hK : 9 ≤ K.toNat) (hfits : K.toNat + 1 < 2 ^ 32) {clients : Clients}
    {ρ : InstanceRandom} (hds : 1 ≤ ρ.ds ∧ ρ.ds ≤ ec.n - 1) (hdb : 1 ≤ ρ.db ∧ ρ.db ≤ ec.n - 1)
    (hcall : (SharedSignature.Call.mk hash ρ.sign).Regular ec ρ.ds ρ.db (P * Q))
    (hh : IsCoprime ρ.h (p * q : ℤ)) (hchallenge : ∀ k i, 0 ≤ (ρ.zk k).challenge i)
    (halpha : ∀ k i, 0 ≤ (ρ.zk k).alpha i) {s : SingleSeller Point} {b : SingleBuyer Point}
    (hserve : clients.Serve hash s.address)
    (hs : s.sharedSignatureS.paillier = SharedSignature.Paillier.ofPrimes P Q)
    (hb : b.sharedSignatureB.paillier.Public (P * Q))
    (hc : s.timedCommitmentCommiter = TimedCommitment.Commiter.ofPrimes p q) :
    ∃ st, exec ec sha256 K clients ρ (s, b) = .ok () st := by
  set s1 : SingleSeller Point := { s with sharedSignatureS :=
    { s.sharedSignatureS with ds := ρ.ds, Qs := ρ.ds • ec.G, Qb := ρ.db • ec.G,
                              Q := (ρ.ds * ρ.db) • ec.G } } with hs1
  set b1 : SingleBuyer Point := { b with sharedSignatureB :=
    { b.sharedSignatureB with db := ρ.db, Qb := ρ.db • ec.G, Qs := ρ.ds • ec.G,
                              Q := (ρ.ds * ρ.db) • ec.G } } with hb1
  have hinit : onSharedSignature (SharedSignature.init ec ρ.ds ρ.db) (s, b) = .ok () (s1, b1) := by
    have h : SharedSignature.init ec ρ.ds ρ.db (s.sharedSignatureS, b.sharedSignatureB) = _ :=
      SharedSignature.init_apply _ _
    unfold onSharedSignature
    rw [zoom, h]
  obtain ⟨⟨s2, b2⟩, hsign⟩ := signT2_ok hk hds hdb hcall (s := s1) (b := b1) hserve
    ⟨rfl, rfl, rfl, rfl, hs, hb⟩
  obtain ⟨hshares, hcom⟩ := Prod.mk.inj ((keeps_signT2 clients ρ).of_ok hsign)
  simp only [shares, sharesOf, Prod.mk.injEq] at hshares
  -- the time lock is made of the share of the run, by the committer of the start
  have hds0 : 0 ≤ ρ.ds := by omega
  have hlen : (shareBits ρ.ds).length ≤ 2 ^ K.toNat :=
    (length_shareBits hds).trans (Nat.pow_le_pow_right (by decide) (by omega))
  obtain ⟨t, hcommit⟩ := @TimedCommitment.commit_ok sha256 p q hp hq hpq K (by omega) hfits
    (shareBits ρ.ds) hlen ρ.h hh ρ.zk hchallenge halpha b2.timedCommitmentReceiver
  have hlock : lockShare sha256 K ρ (s2, b2) = .ok ()
      ({ s2 with timedCommitmentCommiter := t.1 }, { b2 with timedCommitmentReceiver := t.2 }) := by
    refine lockShare_eq_ok.2 ⟨shareBits ρ.ds,
      TimedCommitment.honestCom (p * q) ρ.h K (shareBits ρ.ds), t, ?_, ?_, rfl⟩
    · rw [hshares.1.1]
      exact TimedCommitment.integerToBits_of_nonneg hds0
    · rw [hcom]
      show TimedCommitment.commit sha256 K (shareBits ρ.ds) ρ.h ρ.zk (s.timedCommitmentCommiter, _) = _
      rw [hc]
      exact hcommit
  obtain ⟨_, st, hkeys, -⟩ := (@commitKeys_spec Point sha256 ρ).returns
    (s := ({ s2 with timedCommitmentCommiter := t.1 }, { b2 with timedCommitmentReceiver := t.2 }))
    trivial
  refine ⟨st, ?_⟩
  rw [exec_eq, bind_of_ok hinit, bind_of_ok hsign, bind_of_ok hlock, hkeys]

end

/-! ### An instance in the group of order seven -/

/-- A service that answers every call with one zero byte, or with a zero hash. -/
def zeroClient : BitcoinUtilsClient :=
  { freshAddress := .ok [0]
    createSend := fun _ _ _ => .ok [0]
    createSendTransactionToAddress := fun _ _ _ _ => .ok [0]
    getOutputScript := fun _ _ _ => .ok [0]
    hashForSignature := fun _ _ _ _ => .ok (Vector.replicate 32 (0 : UInt8)).toList
    getSignedTransaction := fun _ _ _ _ _ _ => .ok [0]
    verifyTransaction := fun _ _ _ _ => .ok true
    waitForTransaction := fun _ _ => .ok true
    broadcastTransaction := fun _ => .ok true }

theorem answers_zeroClient : zeroClient.Answers (Vector.replicate 32 0) :=
  { createSend := fun _ _ _ => ⟨[0], rfl, by decide⟩
    createSendTransactionToAddress := fun _ _ _ _ => ⟨[0], rfl⟩
    getOutputScript := fun _ _ _ => ⟨[0], rfl⟩
    hashForSignature := fun _ _ _ _ => rfl
    getSignedTransaction := fun _ _ _ _ _ _ => ⟨[0], rfl, by decide⟩ }

/-- The shares two and three, unit nonces, and the base two modulo seventy-seven. -/
def smallRandom : InstanceRandom :=
  { ds := 2, db := 3
    sign := SharedSignature.unitCall.ρ
    h := 2
    zk := fun _ => { challenge := fun i => i, alpha := fun _ => 1 }
    keySeeds := fun _ => Vector.replicate 32 0
    signatureSeed := Vector.replicate 32 0 }

/-- Fresh parties, the seller with the primes seven and eleven for the time lock. -/
def smallParties : SingleSeller (ZMod 7) × SingleBuyer (ZMod 7) :=
  (SingleSeller.new (SharedSignature.S.new 521 523) (TimedCommitment.Commiter.ofPrimes 7 11) [0],
    SingleBuyer.new (SharedSignature.B.ofPaillier
      (SharedSignature.Paillier.ofKey (521 * 523) (521 * 523 + 1))))

theorem isCoprime_two_seventySeven : IsCoprime (2 : ℤ) ((7 : ℕ) * (11 : ℕ)) := ⟨-38, 1, by norm_num⟩

theorem exec_small (sha256 : Sha256) :
    ∃ st, exec SharedSignature.order7 sha256 9 ⟨zeroClient, zeroClient⟩ smallRandom smallParties =
      .ok () st := by
  exact exec_ok SharedSignature.keyPrimes_order7 TimedCommitment.isSafePrime_seven
    TimedCommitment.isSafePrime_eleven (by decide) (by decide) (by decide) (by decide) (by decide)
    SharedSignature.regular_unitCall isCoprime_two_seventySeven (fun _ i => Int.natCast_nonneg i)
    (fun _ _ => zero_le_one) (serve_of_answers answers_zeroClient answers_zeroClient _) rfl
    (SharedSignature.Paillier.public_ofKey (SharedSignature.Paillier.public_ofPrimes 521 523)) rfl

/-- `timeLockKey_eq` for the shares two and three: the key is their product. -/
theorem timeLockKey_small : ∃ st bits,
    exec SharedSignature.order7 (fun _ => Vector.replicate 32 0) 9 ⟨zeroClient, zeroClient⟩
        smallRandom smallParties = .ok () st ∧
      st.2.timedCommitmentReceiver.forceOpenSmart = .ok bits ∧
      TimedCommitment.BitUtils.bitsToInteger bits = .ok 2 ∧
      st.2.timeLockKey SharedSignature.order7 = .ok 6 := by
  obtain ⟨st, hrun⟩ := exec_small fun _ => Vector.replicate 32 0
  obtain ⟨bits, d, hforce, hbits, hkey, hd, -⟩ := timeLockKey_eq TimedCommitment.isSafePrime_seven
    TimedCommitment.isSafePrime_eleven (by decide) (by decide) (by decide) (by decide)
    isCoprime_two_seventySeven rfl hrun
  have hsix : d = 6 := hd
  rw [hsix] at hkey
  exact ⟨st, bits, hrun, hforce, hbits, hkey⟩

end SellingInformation.Main
