import SellingInformation.BitcoinUtils
import SellingInformation.Main.Factorise
import SellingInformation.Main.TimeLock

/-!
# The signature on the chain

After the payment the buyer waits for the transaction that takes it, reads its signature and
derives the keys from the encoding of the two numbers.  The seller derived the keys from the
encoding of the signature that it ended with.  A signature has two halves that both verify,
and the seller always ends with the lower one.

* `getSignature_eq_ok` — when `get_signature` returns, and with what;
* `getSignature_stored` — what the buyer stores, whatever comes of the factorisation;
* `derivesKeys_iff` — which half on the chain gives the buyer the seller's keys.
-/

namespace SellingInformation.Main

open CryptoPP Common Fallible BitcoinUtils

section
variable {Point : Type}

/-- What the buyer makes of the bytes it is handed. -/
def Buyer.readSignature (signature : IntegerPair) (b : Buyer Point) : Buyer Point :=
  { b with signature :=
      SharedSignature.encodeSignature (ofBytes signature.r) (ofBytes signature.s) }

@[simp] theorem singleBuyer_readSignature (signature : IntegerPair) (b : Buyer Point) :
    (b.readSignature signature).singleBuyer = b.singleBuyer := by
  simp only [Buyer.readSignature]

/-- `get_signature`, up to the flag that it sets at the end. -/
def Buyer.getSignature (sha256 : Sha256) (aes : Cipher) (client : RecoveryClient) :
    Proc (Buyer Point) Unit := do
  let b ← get
  let res ← lift (client.waitForTransactionByOutput b.singleBuyer.sellerAddress 1)
  throwIf (res = false) (.protocolException "wait for transaction by output failed")
  let signature ← lift (client.getSignature b.singleBuyer.sellerAddress)
  modify (Buyer.readSignature signature)
  Buyer.factorise sha256 aes

/-- `get_signature`, once the transaction has been seen. -/
def Buyer.readAndFactorise (sha256 : Sha256) (aes : Cipher) (client : RecoveryClient) :
    Proc (Buyer Point) Unit := do
  let b ← get
  let signature ← lift (client.getSignature b.singleBuyer.sellerAddress)
  modify (Buyer.readSignature signature)
  Buyer.factorise sha256 aes

variable {sha256 : Sha256} {aes : Cipher} {client : RecoveryClient} {b : Buyer Point} {e : Exn}

theorem getSignature_of_unanswered
    (h : client.waitForTransactionByOutput b.singleBuyer.sellerAddress 1 = .error e) :
    Buyer.getSignature sha256 aes client b = .error e b := by
  unfold Buyer.getSignature
  rw [bind_of_ok (get_apply b), h, bind_of_error (lift_error _ _)]

theorem getSignature_of_refused
    (h : client.waitForTransactionByOutput b.singleBuyer.sellerAddress 1 = .ok false) :
    Buyer.getSignature sha256 aes client b =
      .error (.protocolException "wait for transaction by output failed") b := by
  unfold Buyer.getSignature
  rw [bind_of_ok (get_apply b), h, bind_of_ok (lift_ok _ _), bind_of_error (throwIf_of rfl)]

theorem getSignature_of_seen
    (h : client.waitForTransactionByOutput b.singleBuyer.sellerAddress 1 = .ok true) :
    Buyer.getSignature sha256 aes client b = Buyer.readAndFactorise sha256 aes client b := by
  unfold Buyer.getSignature
  rw [bind_of_ok (get_apply b), h, bind_of_ok (lift_ok _ _), bind_of_ok (throwIf_of_not (by decide))]
  rfl

theorem readAndFactorise_of_unread (h : client.getSignature b.singleBuyer.sellerAddress = .error e) :
    Buyer.readAndFactorise sha256 aes client b = .error e b := by
  unfold Buyer.readAndFactorise
  rw [bind_of_ok (get_apply b), h, bind_of_error (lift_error _ _)]

theorem readAndFactorise_of_read {signature : IntegerPair}
    (h : client.getSignature b.singleBuyer.sellerAddress = .ok signature) :
    Buyer.readAndFactorise sha256 aes client b =
      Buyer.factorise sha256 aes (b.readSignature signature) := by
  unfold Buyer.readAndFactorise
  rw [bind_of_ok (get_apply b), h, bind_of_ok (lift_ok _ _), bind_of_ok (modify_apply _ _)]

/-- With a client that answers, the function is the factorisation after reading. -/
theorem getSignature_of_served {signature : IntegerPair}
    (hseen : client.waitForTransactionByOutput b.singleBuyer.sellerAddress 1 = .ok true)
    (hread : client.getSignature b.singleBuyer.sellerAddress = .ok signature) :
    Buyer.getSignature sha256 aes client b =
      Buyer.factorise sha256 aes (b.readSignature signature) :=
  (getSignature_of_seen hseen).trans (readAndFactorise_of_read hread)

/-- When the function returns. -/
theorem getSignature_eq_ok {b' : Buyer Point} : Buyer.getSignature sha256 aes client b = .ok () b' ↔
    client.waitForTransactionByOutput b.singleBuyer.sellerAddress 1 = .ok true ∧
    ∃ signature, client.getSignature b.singleBuyer.sellerAddress = .ok signature ∧
      Buyer.factorise sha256 aes (b.readSignature signature) = .ok () b' := by
  constructor
  · intro h
    cases hseen : client.waitForTransactionByOutput b.singleBuyer.sellerAddress 1 with
    | error e =>
      rw [getSignature_of_unanswered hseen] at h
      cases h
    | ok res =>
      cases res with
      | false =>
        rw [getSignature_of_refused hseen] at h
        cases h
      | true =>
        rw [getSignature_of_seen hseen] at h
        cases hread : client.getSignature b.singleBuyer.sellerAddress with
        | error e =>
          rw [readAndFactorise_of_unread hread] at h
          cases h
        | ok signature =>
          rw [readAndFactorise_of_read hread] at h
          exact ⟨rfl, signature, rfl, h⟩
  · rintro ⟨hseen, signature, hread, hfactorise⟩
    rw [getSignature_of_served hseen hread, hfactorise]

/-- What is stored is the encoding of the two numbers, whatever comes of the factorisation. -/
theorem getSignature_stored {r s : ℤ} (hr : 0 ≤ r) (hs : 0 ≤ s)
    (hseen : client.waitForTransactionByOutput b.singleBuyer.sellerAddress 1 = .ok true)
    (hread : client.getSignature b.singleBuyer.sellerAddress = .ok (BitcoinUtils.getSignature r s)) :
    (final (Buyer.getSignature sha256 aes client b)).signature =
      SharedSignature.encodeSignature r s := by
  have hkeeps : Keeps (@Buyer.signature Point) (Buyer.factorise sha256 aes) :=
    keeps_factorise fun _ _ _ => rfl
  rw [getSignature_of_served hseen hread, hkeeps]
  simp only [Buyer.readSignature, BitcoinUtils.getSignature, ofBytes_toByteArray hr,
    ofBytes_toByteArray hs]

end

section
variable {Point : Type} [AddCommGroup Point] [DecidableEq Point] {ec : ECParameters Point}

/-- **The buyer gets the seller's keys** exactly when the transaction carries the lower half.
`s1` is what `S` ends with, and `s'` a half on the chain that verifies. -/
theorem derivesKeys_iff (hx : ec.XUpToSign) {sha256 : Sha256} {aes : Cipher}
    {client : RecoveryClient} {s0 s1 : SharedSignature.S Point} {r cb s' : ℤ}
    (hrun : SharedSignature.S.finishSig ec r cb s0 = .ok () s1)
    (hver : SharedSignature.verify ec s1.Q s1.data s1.r s' = .ok true) {b : Buyer Point}
    (hseen : client.waitForTransactionByOutput b.singleBuyer.sellerAddress 1 = .ok true)
    (hread : client.getSignature b.singleBuyer.sellerAddress =
      .ok (BitcoinUtils.getSignature s1.r s'))
    (seller : SingleSeller Point) :
    (s' = s1.s ∨ s' = ec.n - s1.s) ∧
      ((final (Buyer.getSignature sha256 aes client b)).signature = s1.getSignature ∧
        (∀ i : Fin L, (genKeys sha256
          (final (Buyer.getSignature sha256 aes client b)).signature)[i].toList =
            ({ seller with sharedSignatureS := s1 }.genKeysAndSetupCommits sha256).keysCommits[i].m) ↔
        s' ≤ ec.n - s') := by
  obtain ⟨hver1, hlow⟩ := SharedSignature.finishSig_eq_ok hrun
  obtain ⟨z, -, -, -, hr, hs, -⟩ := SharedSignature.verify_eq_true_iff.1 hver
  obtain ⟨-, -, -, -, -, hs1, -⟩ := SharedSignature.verify_eq_true_iff.1 hver1
  have hhalves := SharedSignature.eq_or_eq_sub_of_verify hx hver1 hver
  refine ⟨hhalves, ?_⟩
  rw [getSignature_stored hr.1.le hs.1.le hseen hread, SharedSignature.S.getSignature]
  constructor
  · rintro ⟨hsig, -⟩
    rw [(SharedSignature.encodeSignature_inj hs1.1.le hs1.2 hs.1.le hs.2).1 hsig]
    exact hlow
  · intro hlow'
    -- the order is odd, so only one half is the lower one
    have hodd := SharedSignature.n_odd ec
    obtain rfl : s' = s1.s := by omega
    refine ⟨rfl, fun i => ?_⟩
    simp [SingleSeller.genKeysAndSetupCommits, SharedSignature.S.getSignature]

end

/-! ### The two halves in the group of order seven -/

/-- A chain whose transaction carries this signature. -/
def chainClient (r s : ℤ) : RecoveryClient where
  waitForTransactionByOutput _ _ := .ok true
  getSignature _ := .ok (BitcoinUtils.getSignature r s)
  redeemTransaction _ _ _ _ := .ok true

theorem xUpToSign_order7 : SharedSignature.order7.XUpToSign := by
  unfold ECParameters.XUpToSign SharedSignature.order7
  decide

/-- `S` ends with the two halves one and one. -/
theorem finishSig_order7 : ∃ s0 s1 : SharedSignature.S (ZMod 7), ∃ r cb,
    SharedSignature.S.finishSig SharedSignature.order7 r cb s0 = .ok () s1 ∧ s1.s = 1 := by
  obtain ⟨st, -, hready⟩ := SharedSignature.init_ok SharedSignature.order7 521 523 2 3
  obtain ⟨st', hsign, -, hsigned⟩ := SharedSignature.sign_ok SharedSignature.keyPrimes_order7
    SharedSignature.regular_unitCall (by decide) (by decide) hready
  unfold SharedSignature.sign at hsign
  rw [bind_of_ok (modify_apply _ _)] at hsign
  obtain ⟨s0, b0, -, -, hfinish, -⟩ := SharedSignature.exec_eq_ok.1 hsign
  refine ⟨s0, st'.1, b0.r, b0.cb, hfinish, ?_⟩
  have hinv : inverseMod (SharedSignature.unitCall.ρ.ks * SharedSignature.unitCall.ρ.kb)
      SharedSignature.order7.n = 1 := inverseMod_one (by decide)
  rw [hsigned.s_eq, SharedSignature.Call.s0, hinv]
  decide

/-- `derivesKeys_iff` where the transaction carries what `S` ended with. -/
theorem derivesKeys_lower : ∃ s0 s1 : SharedSignature.S (ZMod 7), ∃ r cb,
    SharedSignature.S.finishSig SharedSignature.order7 r cb s0 = .ok () s1 ∧
    SharedSignature.verify SharedSignature.order7 s1.Q s1.data s1.r 1 = .ok true ∧
    (final (Buyer.getSignature (fun _ => Vector.replicate 32 0) Cipher.blocks (chainClient s1.r 1)
      (fifteenBuyer (fun _ => []) (fun _ => [])))).signature = s1.getSignature := by
  obtain ⟨s0, s1, r, cb, hrun, hs1⟩ := finishSig_order7
  have hver := (SharedSignature.finishSig_eq_ok hrun).1
  rw [hs1] at hver
  have hread : (chainClient s1.r 1).getSignature
      (fifteenBuyer (fun _ => []) (fun _ => [])).singleBuyer.sellerAddress =
        .ok (BitcoinUtils.getSignature s1.r 1) := rfl
  exact ⟨s0, s1, r, cb, hrun, hver,
    ((derivesKeys_iff xUpToSign_order7 hrun hver rfl hread smallParties.1).2.2 (by decide)).1⟩

/-- The transaction carries the other half, which verifies too. -/
theorem not_derivesKeys_upper : ∃ s0 s1 : SharedSignature.S (ZMod 7), ∃ r cb,
    SharedSignature.S.finishSig SharedSignature.order7 r cb s0 = .ok () s1 ∧
    SharedSignature.verify SharedSignature.order7 s1.Q s1.data s1.r 6 = .ok true ∧
    (final (Buyer.getSignature (fun _ => Vector.replicate 32 0) Cipher.blocks (chainClient s1.r 6)
      (fifteenBuyer (fun _ => []) (fun _ => [])))).signature ≠ s1.getSignature := by
  obtain ⟨s0, s1, r, cb, hrun, hs1⟩ := finishSig_order7
  have hver := SharedSignature.verify_neg (SharedSignature.finishSig_eq_ok hrun).1
  rw [hs1] at hver
  obtain ⟨z, -, -, -, hr, -⟩ := SharedSignature.verify_eq_true_iff.1 hver
  refine ⟨s0, s1, r, cb, hrun, hver, ?_⟩
  rw [getSignature_stored hr.1.le (by decide) rfl rfl, SharedSignature.S.getSignature, hs1, ne_eq,
    @SharedSignature.encodeSignature_inj _ _ SharedSignature.order7 s1.r 1 6 (by decide) (by decide)
      (by decide) (by decide)]
  decide

end SellingInformation.Main
