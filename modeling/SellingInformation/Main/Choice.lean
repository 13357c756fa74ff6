import SellingInformation.Main.OpenInstance
import SellingInformation.Main.SellInformation
import SellingInformation.Main.TimeLock

/-!
# Cut and choose between honest parties

An instance that honest parties have executed passes every check of its opening,
so the buyer accepts, and keeps one that is not open.

* `sign_verified` — the signer does not return without a signature that verifies;
* `accepts_of_exec` — what an executed instance offers to its opening;
* `chooseInstance_ok` — the first part of a sale returns, with the keys of the
  signature of the kept instance.
-/

namespace SellingInformation.Main

open CryptoPP Common Fallible SingleSellInformationProtocol

variable {Point : Type} [AddCommGroup Point] [DecidableEq Point] {ec : ECParameters Point}
  {sha256 : Sha256}

/-! ## The signature of an instance -/

/-- The last check of the signer is that its signature verifies. -/
theorem finishSig_verified (r cb : ℤ) : Triple (fun _ => True)
    (SharedSignature.S.finishSig ec r cb) (fun _ s =>
      SharedSignature.verify ec (s : SharedSignature.S Point).Q s.data s.r s.s = .ok true)
    (fun _ _ => True) := by
  refine Triple.bind (Q := fun _ _ => True) (Triple.modify fun _ _ => trivial) fun _ => ?_
  refine Triple.bind (Q := fun _ _ => True) (Triple.get fun _ _ => trivial) fun self => ?_
  refine Triple.bind (Q := fun _ _ => True) (Triple.lift (fun _ _ _ _ => trivial)
    fun _ _ _ _ => trivial) fun m => ?_
  refine Triple.bind (Q := fun _ _ => True) (Triple.modify fun _ _ => trivial) fun _ => ?_
  refine Triple.bind (Q := fun _ _ => True) (Triple.throwIf (fun _ _ _ => trivial)
    fun _ _ _ => trivial) fun _ => ?_
  refine Triple.bind (Q := fun _ _ => True) (Triple.modify fun _ _ => trivial) fun _ => ?_
  refine Triple.get_bind fun s₀ _ => ?_
  refine Triple.bind (Q := fun _ s => s = s₀) (Triple.lift (fun _ _ _ hs => hs)
    fun _ _ _ _ => trivial) fun _ => ?_
  refine Triple.bind (Q := fun result s => SharedSignature.verify ec s₀.Q s₀.data s₀.r s₀.s =
    .ok result ∧ s = s₀) (Triple.lift (fun _ hver _ hs => ⟨hver, hs⟩) fun _ _ _ _ => trivial)
    fun result => ?_
  refine Triple.throwIf (fun _ _ _ => trivial) ?_
  rintro hresult s ⟨hver, rfl⟩
  rw [hver, Bool.not_eq_false _ |>.mp hresult]

/-- Parties with one public key and the same data end with a signature that verifies for both. -/
theorem sign_verified (ρ : SharedSignature.SignRandom) :
    Triple (fun t : SharedSignature.S Point × SharedSignature.B Point =>
      t.1.Q = t.2.Q ∧ t.1.data = t.2.data) (SharedSignature.exec ec ρ)
      (fun _ t => SharedSignature.verify ec t.2.Q t.2.data t.1.r t.1.s = .ok true)
      (fun _ _ => True) := by
  rintro ⟨s, b⟩ ⟨hQ, hdata⟩
  cases hr : SharedSignature.exec ec ρ (s, b) with
  | error e t => trivial
  | ok u t =>
    obtain ⟨s1, b1, -, -, hfinish, -⟩ := SharedSignature.exec_eq_ok.1 hr
    have hver := (finishSig_verified b1.r b1.cb).of_ok trivial hfinish
    have hkept := (keeps_sign ρ).of_ok hr
    simp only [sharesOf, Prod.mk.injEq] at hkept
    obtain ⟨⟨-, hQs, hQb⟩, hds, hdb⟩ := hkept
    show SharedSignature.verify ec t.2.Q t.2.data t.1.r t.1.s = .ok true
    rw [hQb, ← hQ, ← hQs, hdb, ← hdata, ← hds]
    exact hver

/-- The signature of an instance, checked against what the buyer holds. -/
def Verified (ec : ECParameters Point) (st : SingleSeller Point × SingleBuyer Point) : Prop :=
  SharedSignature.verify ec st.2.sharedSignatureB.Q st.2.sharedSignatureB.data
    st.1.sharedSignatureS.r st.1.sharedSignatureS.s = .ok true

theorem signT2_verified (clients : Clients) (ρ : InstanceRandom) :
    Triple (fun st : SingleSeller Point × SingleBuyer Point =>
      st.1.sharedSignatureS.Q = st.2.sharedSignatureB.Q) (signT2 ec clients ρ)
      (fun _ st => Verified ec st) (fun _ _ => True) := by
  refine Triple.bind (Q := fun _ st => st.1.sharedSignatureS.Q = st.2.sharedSignatureB.Q)
    (Triple.modify fun _ h => h) fun _ => ?_
  refine Triple.bind (Q := fun _ st => st.1.sharedSignatureS.Q = st.2.sharedSignatureB.Q) ?_
    fun _ => ?_
  · have hkeep : Keeps (fun st : SingleSeller Point × SingleBuyer Point =>
        (st.1.sharedSignatureS, st.2.sharedSignatureB))
        (onSnd (SingleBuyer.createT1AndT2 ec clients.buyer)) := by
      refine Keeps.zoom_of (keeps_createT1AndT2 _) ?_
      intro t s h
      simp only [h]
    exact (Triple.of_keeps (I := fun v : SharedSignature.S Point × SharedSignature.B Point =>
      v.1.Q = v.2.Q) hkeep).conseq (fun _ h => h) (fun _ _ h => h) fun _ _ _ => trivial
  refine Triple.bind (Q := fun _ st => st.1.sharedSignatureS.Q = st.2.sharedSignatureB.Q)
    (Triple.modify fun _ h => h) fun _ => ?_
  refine Triple.bind (Q := fun _ st => st.1.sharedSignatureS.Q = st.2.sharedSignatureB.Q ∧
    st.1.sharedSignatureS.data = st.2.sharedSignatureB.data)
    (Triple.modify fun _ h => ⟨h, rfl⟩) fun _ => ?_
  refine Triple.bind (Q := fun _ st => Verified ec st) (Triple.zoom (sign_verified ρ.sign)
    (fun _ h => h) (fun _ _ _ _ h => h) fun _ _ _ _ _ => trivial) fun _ => ?_
  have hkeep : Keeps (fun st : SingleSeller Point × SingleBuyer Point =>
      (st.1.sharedSignatureS, st.2.sharedSignatureB))
      (onFst (SingleSeller.verifyT2Signature ec clients.seller)) := by
    refine Keeps.zoom_of (keeps_verifyT2Signature _) ?_
    intro t s h
    obtain ⟨hsig, -⟩ := Prod.mk.inj h
    simp only [hsig]
  exact (Triple.of_keeps (I := fun v : SharedSignature.S Point × SharedSignature.B Point =>
    SharedSignature.verify ec v.2.Q v.2.data v.1.r v.1.s = .ok true) hkeep).conseq (fun _ h => h)
    (fun _ _ h => h) fun _ _ _ => trivial

/-! ## The opening of an executed instance -/

section
variable {p q : ℕ} {K : UInt32} {clients : Clients} {ρ : InstanceRandom}
  {s : SingleSeller Point} {b : SingleBuyer Point} {st : SingleSeller Point × SingleBuyer Point}

/-- What an instance that returned offers to its opening passes every check. -/
theorem accepts_of_exec (hp : TimedCommitment.IsSafePrime p) (hq : TimedCommitment.IsSafePrime q)
    (hpq : p ≠ q) (hK : 9 ≤ K.toNat) (hds : 1 ≤ ρ.ds ∧ ρ.ds ≤ ec.n - 1)
    (hh : IsCoprime ρ.h (p * q : ℤ))
    (hs : s.timedCommitmentCommiter = TimedCommitment.Commiter.ofPrimes p q)
    (hrun : SingleSellInformationProtocol.exec ec sha256 K clients ρ (s, b) = .ok () st) :
    Accepts ec sha256 st.1 st.2 ∧ KeysCommitted sha256 st := by
  have hlocked := exec_locked hrun
  rw [hs] at hlocked
  obtain ⟨hcom, hcom', hn, hphi⟩ := commitment_of_locked hp hq hpq hK hds hh hlocked
  have hlen : (shareBits ρ.ds).length ≤ 2 ^ K.toNat :=
    (length_shareBits hds).trans (Nat.pow_le_pow_right (by decide) (by omega))
  rw [exec_eq] at hrun
  simp only [bind_eq_ok, onSharedSignature, zoom_eq_ok] at hrun
  obtain ⟨_, st1, ⟨t, hinit, rfl⟩, _, ⟨s2, b2⟩, hsign, _, st3, hlock, hkeys⟩ := hrun
  rw [SharedSignature.init_apply] at hinit
  cases hinit
  have hver := (signT2_verified clients ρ).of_ok rfl hsign
  obtain ⟨bits, com, t, -, -, rfl⟩ := lockShare_eq_ok.1 hlock
  have hkept := (keeps_commitKeys ρ).of_ok hkeys
  simp only [Prod.mk.injEq] at hkept
  obtain ⟨⟨hS, hB⟩, -⟩ := hkept
  have hcommitted : KeysCommitted sha256 st :=
    (@commitKeys_spec Point sha256 ρ).of_ok trivial hkeys
  refine ⟨⟨?_, ?_, hcommitted.keys.com, hcommitted.com, ?_⟩, hcommitted⟩
  · rw [hS, hB]
    exact hver
  · exact ⟨_, TimedCommitment.openCommitment_honest hp.prime hq.prime hpq hlen hh hphi hn hcom' hcom⟩
  · intro i
    rw [hcommitted.keys.key i, hcommitted.signature]
    exact equal_self _

end

/-! ## The first part of a sale -/

section
variable {P Q p q : ℕ} {hash : Bytes32} {clients : Clients} {instanceClients : Fin T → Clients}
  {ρ : SaleRandom}

/-- Honest draws of a run, and services that answer. -/
structure HonestRun (ec : ECParameters Point) (P Q p q : ℕ) (clients : Clients)
    (instanceClients : Fin T → Clients) (ρ : SaleRandom) : Prop where
  keyPrimes : SharedSignature.KeyPrimes (SharedSignature.S.paillierBits ec) P Q
  paillierP : ρ.paillierP = P
  paillierQ : ρ.paillierQ = Q
  safe_p : TimedCommitment.IsSafePrime p
  safe_q : TimedCommitment.IsSafePrime q
  ne : p ≠ q
  lockP : ρ.lockP = p
  lockQ : ρ.lockQ = q
  address : ∃ address, clients.seller.freshAddress = .ok address
  r_range : 0 ≤ ρ.r ∧ ρ.r < T
  ds : ∀ i, 1 ≤ (ρ.instances i).ds ∧ (ρ.instances i).ds ≤ ec.n - 1
  db : ∀ i, 1 ≤ (ρ.instances i).db ∧ (ρ.instances i).db ≤ ec.n - 1
  answers : ∀ i, ∃ hash, (instanceClients i).seller.Answers hash ∧
    (instanceClients i).buyer.Answers hash ∧
    (SharedSignature.Call.mk hash (ρ.instances i).sign).Regular ec (ρ.instances i).ds
      (ρ.instances i).db (P * Q)
  h_coprime : ∀ i, IsCoprime (ρ.instances i).h (p * q : ℤ)
  challenge : ∀ i k j, 0 ≤ ((ρ.instances i).zk k).challenge j
  alpha : ∀ i k j, 0 ≤ ((ρ.instances i).zk k).alpha j

/-- The draws of an honest run. -/
structure HonestDraws (ec : ECParameters Point) (p q : ℕ) (ρ : SaleRandom) : Prop where
  safe_p : TimedCommitment.IsSafePrime p
  safe_q : TimedCommitment.IsSafePrime q
  ne : p ≠ q
  lockP : ρ.lockP = p
  lockQ : ρ.lockQ = q
  r_range : 0 ≤ ρ.r ∧ ρ.r < T
  ds : ∀ i, 1 ≤ (ρ.instances i).ds ∧ (ρ.instances i).ds ≤ ec.n - 1
  db : ∀ i, 1 ≤ (ρ.instances i).db ∧ (ρ.instances i).db ≤ ec.n - 1
  h_coprime : ∀ i, IsCoprime (ρ.instances i).h (p * q : ℤ)
  challenge : ∀ i k j, 0 ≤ ((ρ.instances i).zk k).challenge j
  alpha : ∀ i k j, 0 ≤ ((ρ.instances i).zk k).alpha j

omit [DecidableEq Point] in
theorem HonestRun.draws (h : HonestRun ec P Q p q clients instanceClients ρ) :
    HonestDraws ec p q ρ :=
  ⟨h.safe_p, h.safe_q, h.ne, h.lockP, h.lockQ, h.r_range, h.ds, h.db, h.h_coprime, h.challenge,
    h.alpha⟩

/-- **Cut and choose succeeds.**  With honest draws and services that serve every instance, the
first part of a sale returns; the parties keep an instance whose keys are those of its
signature. -/
theorem chooseInstance_of_serve {address : Bytes} (h : HonestDraws ec p q ρ)
    (hk : SharedSignature.KeyPrimes (SharedSignature.S.paillierBits ec) P Q)
    (hpaillierP : ρ.paillierP = P) (hpaillierQ : ρ.paillierQ = Q)
    (haddress : clients.seller.freshAddress = .ok address)
    (hserve : ∀ i, ∃ hash, (instanceClients i).Serve hash address ∧
      (SharedSignature.Call.mk hash (ρ.instances i).sign).Regular ec (ρ.instances i).ds
        (ρ.instances i).db (P * Q)) (st : Sale Point) :
    ∃ s b, SellInformationProtocol.chooseInstance ec sha256 clients instanceClients ρ st =
        .ok () { st with seller := { st.seller with singleSeller := s }
                         buyer := { st.buyer with r := ρ.r, singleBuyer := b } } ∧
      KeysCommitted sha256 (s, b) := by
  obtain ⟨hr0, hrT⟩ := h.r_range
  set chosen : Fin T := ⟨ρ.r.toNat, by omega⟩ with hchosen
  have hr : ρ.r = chosen := by
    simp only [hchosen]
    omega
  have hpub := SharedSignature.Paillier.public_ofPrimes P Q
  have hkey := SharedSignature.Paillier.public_ofKey hpub
  rw [hpub.n_eq, hpub.g_eq] at hkey
  set a : SingleSeller Point := SingleSeller.new (SharedSignature.S.new P Q)
    (TimedCommitment.Commiter.ofPrimes p q) address with ha
  set b : SingleBuyer Point := SingleBuyer.new (SharedSignature.B.ofPaillier
    (SharedSignature.Paillier.ofKey ((P * Q : ℕ) : ℤ) ((P * Q : ℕ) + 1))) with hb
  have hexec : ∀ i : Fin T, ∃ t, ((protocol ec sha256 (instanceClients i) (ρ.instances i)).init >>=
      fun _ => (protocol ec sha256 (instanceClients i) (ρ.instances i)).exec) (a, b) = .ok () t ∧
        Accepts ec sha256 t.1 t.2 ∧ KeysCommitted sha256 t := by
    intro i
    obtain ⟨hash, hserved, hcall⟩ := hserve i
    obtain ⟨t, hrun⟩ := exec_ok hk h.safe_p h.safe_q h.ne (K := Common.K) (by decide)
      (by decide) (h.ds i) (h.db i) hcall (h.h_coprime i) (h.challenge i) (h.alpha i)
      (s := a) (b := b) hserved rfl hkey rfl
    exact ⟨t, hrun, accepts_of_exec h.safe_p h.safe_q h.ne (by decide) (h.ds i) (h.h_coprime i) rfl hrun⟩
  have hopen : ∀ (i : Fin T) (t : SingleSeller Point × SingleBuyer Point),
      Accepts ec sha256 t.1 t.2 ∧ KeysCommitted sha256 t → ∃ t',
        (protocol ec sha256 (instanceClients i) (ρ.instances i)).open t = .ok () t' ∧
          t'.2.openVerified = true := fun i t ht => open_verified_iff.2 ht.1
  obtain ⟨prover, verifier, hrun, hres, hi, hkept⟩ := @CutAndChoose.cutAndChoose_ok _ _ T _ _
    (throw (.protocolException "Cheating not implemented!")) a b _ chosen hexec hopen false
  have helem : ∀ {α : Type} (v : Vector α T), elemAtInt v.toList verifier.i = .ok v[chosen] := by
    intro α v
    have hpos : ¬ ((chosen : ℕ) : ℤ) < 0 := by omega
    rw [hi, elemAtInt, if_neg hpos, Int.toNat_natCast, elemAt_eq_ok]
    simp
  refine ⟨prover.v[chosen], verifier.v[chosen], ?_, hkept.2⟩
  unfold SellInformationProtocol.chooseInstance
  rw [hpaillierP, hpaillierQ, SharedSignature.parties_ok hk, bind_of_ok (lift_ok _ _), h.lockP, h.lockQ,
    TimedCommitment.new_ofPrimes h.safe_p h.safe_q]
  apply (bind_of_ok (lift_ok _ _)).trans
  rw [haddress, bind_of_ok (lift_ok _ _)]
  refine (bind_of_ok (rfl : onBuyer (modify (Buyer.pickR ρ.r)) st = .ok ()
    { st with buyer := { st.buyer with r := ρ.r } })).trans ?_
  apply (bind_of_ok (get_apply _)).trans
  rw [← hr] at hrun
  apply (bind_of_ok (within_of_ok hrun)).trans
  apply (bind_of_ok (throwIf_of_not (by rw [hres]; decide))).trans
  rw [helem, bind_of_ok (lift_ok _ _)]
  refine (bind_of_ok (rfl : onSeller (modify fun s => { s with singleSeller := prover.v[chosen] })
    _ = .ok () _)).trans ?_
  rw [helem, bind_of_ok (lift_ok _ _)]
  rfl

/-- The same with services that answer every call. -/
theorem chooseInstance_ok (h : HonestRun ec P Q p q clients instanceClients ρ) (st : Sale Point) :
    ∃ s b, SellInformationProtocol.chooseInstance ec sha256 clients instanceClients ρ st =
        .ok () { st with seller := { st.seller with singleSeller := s }
                         buyer := { st.buyer with r := ρ.r, singleBuyer := b } } ∧
      KeysCommitted sha256 (s, b) := by
  obtain ⟨address, haddress⟩ := h.address
  refine chooseInstance_of_serve h.draws h.keyPrimes h.paillierP h.paillierQ haddress ?_ st
  intro i
  obtain ⟨hash, hseller, hbuyer, hcall⟩ := h.answers i
  exact ⟨hash, serve_of_answers hseller hbuyer address, hcall⟩

end

end SellingInformation.Main
