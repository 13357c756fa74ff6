import SellingInformation.CutAndChoose.Soundness
import SellingInformation.Main.Payment

/-!
# The instance that is kept

What the first part of a sale leaves when it returns, whatever was drawn and whatever the services
answered: the parties of the chosen instance are as that instance alone has left them, nothing of
it has been opened, and every other instance was executed and passed all checks of its opening.

* `disclosed`, `keeps_disclosed_exec` — executing an instance opens nothing of it;
* `chooseInstance_eq_ok` — the first part of a sale, inverted;
* `chooseInstance_kept` — what is kept, and what the other instances have shown.
-/

namespace SellingInformation.Main

open CryptoPP Common Fallible SingleSellInformationProtocol

variable {Point : Type}

/-! ## What has been opened -/

/-- What a receiver has been opened. -/
def receivedOf (c : ShaCommitment.Receiver) : Bool × Bytes := (c.openVerified, c.m)

/-- What the buyer has been opened of an instance. -/
def disclosed (b : SingleBuyer Point) : (Bool × Bool) × Vector (Bool × Bytes) L × (Bool × Bytes) :=
  ((b.openVerified, b.sharedSignatureB.openVerified), b.keysCommits.map receivedOf,
    receivedOf b.signatureCommit)

/-- Nothing has been opened of the instance. -/
def Sealed (b : SingleBuyer Point) : Prop :=
  disclosed b = ((false, false), Vector.replicate L (false, []), (false, []))

theorem Sealed.key {b : SingleBuyer Point} (h : Sealed b) (i : Fin L) :
    b.keysCommits[i].openVerified = false ∧ b.keysCommits[i].m = [] := by
  have hkeys := congrArg (fun v => v.2.1) h
  have hi := congrArg (fun v : Vector (Bool × Bytes) L => v[(i : ℕ)]) hkeys
  simp only [disclosed, Vector.getElem_map, Vector.getElem_replicate] at hi
  exact Prod.mk.inj hi

theorem sealed_new (b : SharedSignature.B Point) (h : b.openVerified = false) :
    Sealed (SingleBuyer.new b) := by
  unfold Sealed disclosed
  simp [SingleBuyer.new, h, receivedOf, ShaCommitment.Receiver.new]

/-- Making a hash commitment opens nothing. -/
theorem keeps_received_exec {sha256 : Sha256} (seed : Bytes32) :
    Keeps (fun t : ShaCommitment.Sender × ShaCommitment.Receiver => receivedOf t.2)
      (ShaCommitment.exec sha256 seed) := Keeps.modify fun _ => rfl

theorem map_set_received {v : Vector ShaCommitment.Receiver L} {i : Fin L}
    {c : ShaCommitment.Receiver} (h : receivedOf c = receivedOf v[i]) :
    (v.set i c i.isLt).map receivedOf = v.map receivedOf := by
  have hget : receivedOf v[i] = (v.map receivedOf)[(i : ℕ)] := by simp
  rw [Vector.map_set, h, hget, Vector.set_getElem_self]

variable [AddCommGroup Point] [DecidableEq Point] {ec : ECParameters Point} {sha256 : Sha256}

omit [DecidableEq Point] in
theorem keeps_disclosed_createT1AndT2 (client : BitcoinUtilsClient) :
    Keeps (@disclosed Point) (SingleBuyer.createT1AndT2 ec client) := by
  refine Keeps.bind Keeps.get fun _ => ?_
  refine Keeps.bind Keeps.lift fun _ => ?_
  refine Keeps.bind (Keeps.modify fun _ => rfl) fun _ => ?_
  refine Keeps.bind Keeps.throwIf fun _ => ?_
  refine Keeps.bind Keeps.lift fun _ => ?_
  refine Keeps.bind (Keeps.modify fun _ => rfl) fun _ => ?_
  refine Keeps.bind Keeps.lift fun _ => ?_
  refine Keeps.bind (Keeps.modify fun _ => rfl) fun _ => ?_
  exact Keeps.bind Keeps.lift fun _ => Keeps.modify fun _ => rfl

/-- Signing opens nothing. -/
theorem keeps_openVerified_sign (ρ : SharedSignature.SignRandom) :
    Keeps (fun t : SharedSignature.S Point × SharedSignature.B Point => t.2.openVerified)
      (SharedSignature.exec ec ρ) := by
  have hcont : ∀ Ks cs m, Keeps (@SharedSignature.B.openVerified Point)
      (SharedSignature.B.contSig ec Ks cs m ρ) := by
    intro Ks cs m
    refine Keeps.bind (Keeps.modify fun _ => rfl) fun _ => ?_
    refine Keeps.bind Keeps.get fun _ => ?_
    refine Keeps.bind Keeps.throwIf fun _ => ?_
    refine Keeps.bind Keeps.lift fun _ => ?_
    refine Keeps.bind Keeps.lift fun _ => ?_
    refine Keeps.bind Keeps.lift fun _ => ?_
    exact Keeps.bind Keeps.lift fun _ => Keeps.modify fun _ => rfl
  refine Keeps.bind (Keeps.zoom fun _ _ => rfl) fun _ => ?_
  refine Keeps.bind Keeps.get ?_
  rintro ⟨s, b⟩
  refine Keeps.bind (Keeps.zoom_of (hcont _ _ _) fun _ _ h => h) fun _ => ?_
  refine Keeps.bind Keeps.get ?_
  rintro ⟨_, b⟩
  exact Keeps.zoom fun _ _ => rfl

/-- Executing an instance opens nothing of it. -/
theorem keeps_disclosed_exec (K : UInt32) (clients : Clients) (ρ : InstanceRandom) :
    Keeps (fun st : SingleSeller Point × SingleBuyer Point => disclosed st.2)
      (exec ec sha256 K clients ρ) := by
  have hshared : ∀ {α : Type} {m : Proc (SharedSignature.S Point × SharedSignature.B Point) α},
      Keeps (fun t => t.2.openVerified) m →
        Keeps (fun st : SingleSeller Point × SingleBuyer Point => disclosed st.2)
          (onSharedSignature m) := by
    intro α m hm
    refine Keeps.zoom_of hm ?_
    intro t st ht
    simp only [disclosed, ht]
  rw [exec_eq]
  refine Keeps.bind (hshared ?_) fun _ => ?_
  · refine Keeps.bind (Keeps.modify fun _ => rfl) fun _ => ?_
    refine Keeps.bind (Keeps.modify fun _ => rfl) fun _ => ?_
    refine Keeps.bind (Keeps.modify fun _ => rfl) fun _ => ?_
    exact Keeps.bind Keeps.get fun _ => Keeps.throwIf
  refine Keeps.bind ?_ fun _ => Keeps.bind ?_ fun _ => ?_
  · refine Keeps.bind (Keeps.modify fun _ => rfl) fun _ => ?_
    refine Keeps.bind (Keeps.zoom_of (keeps_disclosed_createT1AndT2 clients.buyer) ?_) fun _ => ?_
    · intro t st ht
      exact ht
    refine Keeps.bind (Keeps.modify fun _ => rfl) fun _ => ?_
    refine Keeps.bind (Keeps.modify fun _ => rfl) fun _ => ?_
    refine Keeps.bind (hshared (keeps_openVerified_sign ρ.sign)) fun _ => ?_
    exact Keeps.zoom fun _ _ => rfl
  · refine Keeps.bind Keeps.get ?_
    rintro ⟨s, _⟩
    refine Keeps.bind Keeps.lift fun _ => ?_
    exact Keeps.bind (Keeps.zoom fun _ _ => rfl) fun _ => Keeps.pure
  · refine Keeps.bind (Keeps.modify fun _ => rfl) fun _ => ?_
    refine Keeps.bind (Keeps.forM fun i _ => ?_) fun _ => ?_
    · refine Keeps.zoom_of (keeps_received_exec _) ?_
      intro t st ht
      simp only [disclosed, map_set_received ht]
    · refine Keeps.zoom_of (keeps_received_exec _) ?_
      intro t st ht
      simp only [disclosed, ht]

/-! ## What every executed instance is like -/

/-- Whatever was drawn and answered, an instance that was executed has a signature that verifies
for both parties, keys and a commitment made of it, and the time lock on the share. -/
structure Executed (ec : ECParameters Point) (sha256 : Sha256) (ρ : InstanceRandom)
    (c : TimedCommitment.Commiter) (st : SingleSeller Point × SingleBuyer Point) : Prop where
  verified : Verified ec st
  committed : KeysCommitted sha256 st
  locked : Locked ec Common.K ρ c st

theorem executed_of_exec {clients : Clients} {ρ : InstanceRandom} {a : SingleSeller Point}
    {b : SingleBuyer Point} {st : SingleSeller Point × SingleBuyer Point}
    (hrun : exec ec sha256 Common.K clients ρ (a, b) = .ok () st) :
    Executed ec sha256 ρ a.timedCommitmentCommiter st := by
  have hlocked := exec_locked hrun
  rw [exec_eq] at hrun
  simp only [bind_eq_ok, onSharedSignature, zoom_eq_ok] at hrun
  obtain ⟨_, st1, ⟨t, hinit, rfl⟩, _, ⟨s2, b2⟩, hsign, _, st3, hlock, hkeys⟩ := hrun
  rw [SharedSignature.init_apply] at hinit
  cases hinit
  have hver := (signT2_verified clients ρ).of_ok rfl hsign
  obtain ⟨bits, com, t, -, -, rfl⟩ := lockShare_eq_ok.1 hlock
  have hkept := (keeps_commitKeys ρ).of_ok hkeys
  simp only [Prod.mk.injEq] at hkept
  obtain ⟨⟨hS, hB⟩, -⟩ := hkept
  have hcommitted : KeysCommitted sha256 st :=
    (@commitKeys_spec Point sha256 ρ).of_ok trivial hkeys
  refine ⟨?_, hcommitted, hlocked⟩
  unfold Verified
  rw [hS, hB]
  exact hver

/-! ## The first part of a sale -/

section
variable {clients : Clients} {instanceClients : Fin T → Clients} {ρ : SaleRandom}
  {st st' : Sale Point}

theorem within_eq_ok {σ τ α : Type} {t t' : τ} {m : Proc τ α} {s s' : σ}
    (h : within t m s = .ok t' s') : s' = s ∧ ∃ a, m t = .ok a t' := by
  unfold within at h
  cases hm : m t with
  | ok a t1 =>
    rw [hm] at h
    cases h
    exact ⟨rfl, a, rfl⟩
  | error e t1 =>
    rw [hm] at h
    cases h

theorem elemAtInt_toList_eq_ok {α : Type} {n : ℕ} {v : Vector α n} {i : ℤ} {x : α} :
    elemAtInt v.toList i = .ok x ↔ ∃ r : Fin n, i = (r : ℤ) ∧ v[r] = x := by
  unfold elemAtInt
  by_cases hi : i < 0
  · rw [if_pos hi]
    refine iff_of_false nofun ?_
    rintro ⟨r, hr, -⟩
    omega
  · rw [if_neg hi, elemAt_eq_ok]
    constructor
    · intro h
      obtain ⟨hlt, hget⟩ := List.getElem?_eq_some_iff.1 h
      rw [Vector.length_toList] at hlt
      exact ⟨⟨i.toNat, hlt⟩, by simp; omega, by simpa using hget⟩
    · rintro ⟨r, rfl, rfl⟩
      simp

/-- The fresh parties of the instances. -/
structure Fresh (ec : ECParameters Point) (clients : Clients) (ρ : SaleRandom)
    (a : SingleSeller Point) (b : SingleBuyer Point) : Prop where
  seller : ∃ s commiter address, a = SingleSeller.new s commiter address ∧
    TimedCommitment.Commiter.new ρ.lockP ρ.lockQ = .ok commiter ∧
    clients.seller.freshAddress = .ok address ∧
    ∃ b', SharedSignature.parties ec ρ.paillierP ρ.paillierQ = .ok (s, b') ∧
      b = SingleBuyer.new b'

/-- **What is kept.**  When the first part of a sale returns, the kept parties are what the chosen
instance makes of fresh ones, on its own; and every other instance has been executed and passed
the checks of its opening. -/
theorem chooseInstance_eq_ok
    (h : SellInformationProtocol.chooseInstance ec sha256 clients instanceClients ρ st = .ok () st') :
    ∃ (a : SingleSeller Point) (b : SingleBuyer Point) (r : Fin T) (s1 : SingleSeller Point)
      (b1 : SingleBuyer Point), Fresh ec clients ρ a b ∧ ρ.r = (r : ℤ) ∧
      exec ec sha256 Common.K (instanceClients r) (ρ.instances r) (a, b) = .ok () (s1, b1) ∧
      (∀ j, j ≠ r → ∃ t, exec ec sha256 Common.K (instanceClients j) (ρ.instances j) (a, b) =
        .ok () t ∧ Accepts ec sha256 t.1 t.2) ∧
      st' = { st with seller := { st.seller with singleSeller := s1 }
                      buyer := { st.buyer with r := ρ.r, singleBuyer := b1 } } := by
  unfold SellInformationProtocol.chooseInstance at h
  obtain ⟨⟨s0, b0⟩, _, hlift, h1⟩ := bind_eq_ok.1 h
  obtain ⟨hparties, rfl⟩ := lift_eq_ok.1 hlift
  obtain ⟨commiter, _, hlift, h2⟩ := bind_eq_ok.1 h1
  obtain ⟨hcommiter, rfl⟩ := lift_eq_ok.1 hlift
  obtain ⟨address, _, hlift, h3⟩ := bind_eq_ok.1 h2
  obtain ⟨haddress, rfl⟩ := lift_eq_ok.1 hlift
  obtain ⟨_, st1, hpick, h4⟩ := bind_eq_ok.1 h3
  cases hpick
  obtain ⟨_, _, hget, h5⟩ := bind_eq_ok.1 h4
  cases hget
  obtain ⟨⟨prover, verifier⟩, _, hwithin, h6⟩ := bind_eq_ok.1 h5
  obtain ⟨rfl, _, hrun⟩ := within_eq_ok hwithin
  obtain ⟨_, _, hthrow, h7⟩ := bind_eq_ok.1 h6
  obtain ⟨hres, rfl⟩ := throwIf_eq_ok.1 hthrow
  obtain ⟨s1, _, hlift, h8⟩ := bind_eq_ok.1 h7
  obtain ⟨hs1, rfl⟩ := lift_eq_ok.1 hlift
  obtain ⟨_, _, hseller, h9⟩ := bind_eq_ok.1 h8
  cases hseller
  obtain ⟨b1, _, hlift, h10⟩ := bind_eq_ok.1 h9
  obtain ⟨hb1, rfl⟩ := lift_eq_ok.1 hlift
  cases h10
  obtain ⟨hi, t, hexec, hkept, hgood⟩ :=
    CutAndChoose.kept_of_fresh hrun (Bool.not_eq_false _ ▸ hres)
  obtain ⟨r, hr, rfl⟩ := elemAtInt_toList_eq_ok.1 hs1
  obtain ⟨r', hr', rfl⟩ := elemAtInt_toList_eq_ok.1 hb1
  obtain rfl : r = r' := Fin.ext (by omega)
  refine ⟨SingleSeller.new s0 commiter address, SingleBuyer.new b0, r, prover.v[r], verifier.v[r],
    ⟨s0, commiter, address, rfl, hcommiter, haddress, b0, hparties, rfl⟩, hi.symm.trans hr, ?_, ?_, rfl⟩
  · rw [hkept r (hi ▸ hr).symm]
    exact hexec r
  · intro j hj
    refine ⟨t j, hexec j, open_verified_iff.1 (hgood j ?_)⟩
    rw [← hi, hr]
    exact fun h => hj (Fin.ext (by exact_mod_cast h))

omit [DecidableEq Point] in
/-- Fresh parties have been opened nothing. -/
theorem Fresh.sealed {a : SingleSeller Point} {b : SingleBuyer Point} (h : Fresh ec clients ρ a b) :
    Sealed b := by
  obtain ⟨s, commiter, address, -, -, -, b', hparties, rfl⟩ := h.seller
  refine sealed_new b' ?_
  unfold SharedSignature.parties SharedSignature.B.new at hparties
  simp only [except_bind_eq_ok] at hparties
  obtain ⟨_, -, _, -, b'', ⟨_, -, _, -, hb⟩, hpair⟩ := hparties
  cases hb
  cases hpair
  rfl

/-- An instance that has been executed has been opened nothing either. -/
theorem sealed_of_exec {client : Clients} {a : SingleSeller Point} {b : SingleBuyer Point}
    {t : SingleSeller Point × SingleBuyer Point} {ι : InstanceRandom} (h : Fresh ec clients ρ a b)
    (hrun : exec ec sha256 Common.K client ι (a, b) = .ok () t) : Sealed t.2 :=
  ((keeps_disclosed_exec _ _ _).of_ok hrun).trans h.sealed

/-- **The kept instance.**  Whenever the first part of a sale returns, whatever was drawn and
whatever the services answered, nothing of the kept instance has been opened; it is what the chosen
instance makes of fresh parties on its own, with a signature that verifies, the keys of that
signature committed to, and the time lock; and every other instance passes its opening. -/
theorem chooseInstance_kept
    (h : SellInformationProtocol.chooseInstance ec sha256 clients instanceClients ρ st = .ok () st') :
    ∃ (a : SingleSeller Point) (b : SingleBuyer Point) (r : Fin T), Fresh ec clients ρ a b ∧
      ρ.r = (r : ℤ) ∧ Sealed st'.buyer.singleBuyer ∧
      exec ec sha256 Common.K (instanceClients r) (ρ.instances r) (a, b) =
        .ok () (st'.seller.singleSeller, st'.buyer.singleBuyer) ∧
      Executed ec sha256 (ρ.instances r) a.timedCommitmentCommiter
        (st'.seller.singleSeller, st'.buyer.singleBuyer) ∧
      (∀ j, j ≠ r → ∃ t, exec ec sha256 Common.K (instanceClients j) (ρ.instances j) (a, b) =
        .ok () t ∧ Accepts ec sha256 t.1 t.2) := by
  obtain ⟨a, b, r, s1, b1, hfresh, hr, hrun, hothers, rfl⟩ := chooseInstance_eq_ok h
  exact ⟨a, b, r, hfresh, hr, sealed_of_exec hfresh hrun, hrun, executed_of_exec hrun, hothers⟩

/-- `chooseInstance_kept` for honest draws, with fifteen for sale. -/
theorem chooseInstance_kept_fifteen : ∃ st', SellInformationProtocol.chooseInstance
      SharedSignature.order7 (fun _ => Vector.replicate 32 0) ⟨amountClient, zeroClient⟩
      (fun _ => ⟨zeroClient, zeroClient⟩) fifteenRandom (fifteenSale 20000) = .ok () st' ∧
    Sealed st'.buyer.singleBuyer := by
  obtain ⟨s, b, hrun, -⟩ := @chooseInstance_ok (ZMod 7) _ _ SharedSignature.order7
    (fun _ => Vector.replicate 32 0) 521 523 7 11 ⟨amountClient, zeroClient⟩ _ fifteenRandom
    (honestRun_fifteen _ rfl) (fifteenSale 20000)
  obtain ⟨-, -, -, -, -, hsealed, -⟩ := chooseInstance_kept hrun
  exact ⟨_, hrun, hsealed⟩

/-! ## The other instances -/

section
variable {clients' : Clients} {instanceClients' : Fin T → Clients} {ρ' : SaleRandom}
  {st₀ st₀' : Sale Point}

omit [DecidableEq Point] in
/-- Fresh parties are determined by the draws and the address. -/
theorem Fresh.unique {a a' : SingleSeller Point} {b b' : SingleBuyer Point}
    (h : Fresh ec clients ρ a b) (h' : Fresh ec clients' ρ' a' b')
    (hkey : (ρ'.paillierP, ρ'.paillierQ) = (ρ.paillierP, ρ.paillierQ))
    (hlock : (ρ'.lockP, ρ'.lockQ) = (ρ.lockP, ρ.lockQ))
    (haddress : clients'.seller.freshAddress = clients.seller.freshAddress) : a' = a ∧ b' = b := by
  obtain ⟨s, commiter, address, rfl, hc, ha, b0, hparties, rfl⟩ := h.seller
  obtain ⟨s', commiter', address', rfl, hc', ha', b0', hparties', rfl⟩ := h'.seller
  rw [Prod.mk.injEq] at hkey hlock
  rw [hkey.1, hkey.2, hparties] at hparties'
  rw [hlock.1, hlock.2, hc] at hc'
  rw [haddress, ha] at ha'
  cases hparties'
  cases hc'
  cases ha'
  exact ⟨rfl, rfl⟩

/-- **Independence.**  What is kept does not depend on what was drawn and answered in the other
instances, nor on the sale that is under way. -/
theorem kept_independent
    (h : SellInformationProtocol.chooseInstance ec sha256 clients instanceClients ρ st₀ = .ok () st)
    (h' : SellInformationProtocol.chooseInstance ec sha256 clients' instanceClients' ρ' st₀' =
      .ok () st')
    (hkey : (ρ'.paillierP, ρ'.paillierQ) = (ρ.paillierP, ρ.paillierQ))
    (hlock : (ρ'.lockP, ρ'.lockQ) = (ρ.lockP, ρ.lockQ))
    (haddress : clients'.seller.freshAddress = clients.seller.freshAddress) (hr : ρ'.r = ρ.r)
    (hsame : ∀ r : Fin T, ρ.r = (r : ℤ) →
      instanceClients' r = instanceClients r ∧ ρ'.instances r = ρ.instances r) :
    st'.seller.singleSeller = st.seller.singleSeller ∧
      st'.buyer.singleBuyer = st.buyer.singleBuyer := by
  obtain ⟨a, b, r, s1, b1, hfresh, hr1, hrun, -, rfl⟩ := chooseInstance_eq_ok h
  obtain ⟨a', b', r', s1', b1', hfresh', hr1', hrun', -, rfl⟩ := chooseInstance_eq_ok h'
  obtain ⟨rfl, rfl⟩ := hfresh.unique hfresh' hkey hlock haddress
  obtain rfl : r = r' := Fin.ext (by omega)
  obtain ⟨hclients, hdraws⟩ := hsame r hr1
  rw [hclients, hdraws, hrun] at hrun'
  cases hrun'
  exact ⟨rfl, rfl⟩

/-- Draws that hash the keys of every instance but the first with other seeds. -/
def otherSeeds : SaleRandom :=
  { fifteenRandom with instances := fun i =>
      { smallRandom with keySeeds := fun _ => Vector.replicate 32 (if (i : ℕ) = 0 then 0 else 1) } }

/-- `kept_independent` for honest draws that keep the first instance and differ in the others, in
sales of fifteen at two prices. -/
theorem kept_independent_fifteen : ∃ st st', SellInformationProtocol.chooseInstance
      SharedSignature.order7 (fun _ => Vector.replicate 32 0) ⟨amountClient, zeroClient⟩
      (fun _ => ⟨zeroClient, zeroClient⟩) fifteenRandom (fifteenSale 20000) = .ok () st ∧
    SellInformationProtocol.chooseInstance
      SharedSignature.order7 (fun _ => Vector.replicate 32 0) ⟨amountClient, zeroClient⟩
      (fun _ => ⟨zeroClient, zeroClient⟩) otherSeeds (fifteenSale 30000) = .ok () st' ∧
    st'.seller.singleSeller = st.seller.singleSeller := by
  have hhonest := honestRun_fifteen ⟨amountClient, zeroClient⟩ rfl
  have hother : HonestRun SharedSignature.order7 521 523 7 11 ⟨amountClient, zeroClient⟩
      (fun _ => ⟨zeroClient, zeroClient⟩) otherSeeds := { hhonest with }
  obtain ⟨s, b, hrun, -⟩ := @chooseInstance_ok (ZMod 7) _ _ _ (fun _ => Vector.replicate 32 0)
    521 523 7 11 _ _ _ hhonest (fifteenSale 20000)
  obtain ⟨s', b', hrun', -⟩ := @chooseInstance_ok (ZMod 7) _ _ _ (fun _ => Vector.replicate 32 0)
    521 523 7 11 _ _ _ hother (fifteenSale 30000)
  refine ⟨_, _, hrun, hrun', (kept_independent hrun hrun' rfl rfl rfl rfl fun r hr => ?_).1⟩
  have hzero : (0 : ℤ) = (r : ℕ) := hr
  obtain rfl : r = ⟨0, by decide⟩ := Fin.ext (by simpa using hzero.symm)
  exact ⟨rfl, rfl⟩

end

end

end SellingInformation.Main
