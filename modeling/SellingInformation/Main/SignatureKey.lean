import SellingInformation.ShaCommitment
import SellingInformation.SharedSignature.Basic
import SellingInformation.TimedCommitment.Basic

/-!
# One instance: a signature and the keys it unlocks

`signature_key.cpp`.  In one instance of cut and choose the parties make a shared
key, sign the transaction `T2` that takes the payment, and the seller commits to
its key share (behind a time lock), to `L` cipher keys derived from the signature,
and to the signature itself.  `open` opens an instance that is not used.

The Bitcoin services of the two parties are outside this repository; what they
answer is a parameter.  `exec` also runs a second verifier over the signature and
drops its result; that call is left out.
-/

namespace SellingInformation.Main

open CryptoPP Common Fallible

/-- The calls of `bitcoin_utils.thrift` that the protocol makes.  Every one may fail. -/
structure BitcoinUtilsClient where
  freshAddress : Except Exn Bytes
  createSend : Bytes → Bytes → Int32 → Except Exn Bytes
  createSendTransactionToAddress : Bytes → Bytes → Bytes → Bytes → Except Exn Bytes
  getOutputScript : Bytes → Bytes → Bytes → Except Exn Bytes
  hashForSignature : Bytes → Bytes → Bytes → Bytes → Except Exn Bytes
  getSignedTransaction : Bytes → Bytes → Bytes → Bytes → Bytes → Bytes → Except Exn Bytes
  verifyTransaction : Bytes → Bytes → Bytes → Int32 → Except Exn Bool
  waitForTransaction : Bytes → Int32 → Except Exn Bool
  broadcastTransaction : Bytes → Except Exn Bool

/-- `genKeys`: the keys are hashes of the signature with an index. -/
def genKeys (sha256 : Sha256) (signature : Bytes) : Vector Bytes32 L :=
  Vector.ofFn fun i => sha256 (concatenate signature (toBytes (i : ℕ)))

/-- `std::equal` with three iterators: it stops at the first difference and reads as
many elements of the second range as the first one has. -/
def equal : Bytes → Bytes → Except Exn Bool
  | [], _ => .ok true
  | _ :: _, [] => .error .outOfBounds
  | a :: as, b :: bs => if a = b then equal as bs else .ok false

/-! ## The parties -/

/-- The members of `SingleSeller`. -/
structure SingleSeller (Point : Type) where
  address : Bytes
  t1OutputScript : Bytes
  t2 : Bytes
  keys : Vector Bytes32 L
  sharedSignatureS : SharedSignature.S Point
  timedCommitmentCommiter : TimedCommitment.Commiter
  keysCommits : Vector ShaCommitment.Sender L
  signatureCommit : ShaCommitment.Sender

/-- The members of `SingleBuyer`. -/
structure SingleBuyer (Point : Type) where
  sellerAddress : Bytes
  t1 : Bytes
  t1OutputScript : Bytes
  t2 : Bytes
  t2Hash : Bytes
  openVerified : Bool
  sharedSignatureB : SharedSignature.B Point
  timedCommitmentReceiver : TimedCommitment.Receiver
  keysCommits : Vector ShaCommitment.Receiver L
  signatureCommit : ShaCommitment.Receiver

variable {Point : Type} [AddCommGroup Point] [DecidableEq Point]

namespace SingleSeller

/-- The constructor, with the address the client hands out. -/
def new (s : SharedSignature.S Point) (commiter : TimedCommitment.Commiter) (address : Bytes) :
    SingleSeller Point :=
  { address, t1OutputScript := [], t2 := [], keys := Vector.replicate L (Vector.replicate 32 0),
    sharedSignatureS := s, timedCommitmentCommiter := commiter,
    keysCommits := Vector.replicate L ShaCommitment.Sender.new,
    signatureCommit := ShaCommitment.Sender.new }

/-- `verifyT2Signature`: the signed transaction takes the place of `T2`. -/
def verifyT2Signature (ec : ECParameters Point) (client : BitcoinUtilsClient) :
    Proc (SingleSeller Point) Unit := do
  let s ← get
  let Q := s.sharedSignatureS.Q
  let res ← lift (client.getSignedTransaction s.t2 (integer2string (ec.x Q))
    (integer2string (ec.y Q)) (integer2string s.sharedSignatureS.r)
    (integer2string s.sharedSignatureS.s) s.t1OutputScript)
  throwIf (res.length = 0) (.protocolException "verify T2 signature in bitcoinj failed")
  modify fun s => { s with t2 := res }

/-- `genKeysAndSetupCommits`. -/
def genKeysAndSetupCommits (sha256 : Sha256) (s : SingleSeller Point) : SingleSeller Point :=
  let signature := s.sharedSignatureS.getSignature
  let keys := genKeys sha256 signature
  { s with
    keys
    keysCommits := Vector.ofFn fun i => { s.keysCommits[i] with m := keys[i].toList }
    signatureCommit := { s.signatureCommit with m := signature } }

end SingleSeller

namespace SingleBuyer

/-- The constructor. -/
def new (b : SharedSignature.B Point) : SingleBuyer Point :=
  { sellerAddress := [], t1 := [], t1OutputScript := [], t2 := [], t2Hash := [],
    openVerified := false, sharedSignatureB := b,
    timedCommitmentReceiver := TimedCommitment.Receiver.new,
    keysCommits := Vector.replicate L ShaCommitment.Receiver.new,
    signatureCommit := ShaCommitment.Receiver.new }

/-- `createT1AndT2`.  The amount is a constant of the source. -/
def createT1AndT2 (ec : ECParameters Point) (client : BitcoinUtilsClient) :
    Proc (SingleBuyer Point) Unit := do
  let b ← get
  let x := integer2string (ec.x b.sharedSignatureB.Q)
  let y := integer2string (ec.y b.sharedSignatureB.Q)
  let t1 ← lift (client.createSend x y 20000)
  modify fun b => { b with t1 }
  throwIf (t1.length = 0) (.protocolException "T1 is empty")
  let t2 ← lift (client.createSendTransactionToAddress t1 x y b.sellerAddress)
  modify fun b => { b with t2 }
  let t1OutputScript ← lift (client.getOutputScript t1 x y)
  modify fun b => { b with t1OutputScript }
  let t2Hash ← lift (client.hashForSignature t2 x y t1OutputScript)
  modify fun b => { b with t2Hash }

/-- The key that `Buyer::solve_time_lock` takes its coins back with. -/
def timeLockKey (ec : ECParameters Point) (b : SingleBuyer Point) : Except Exn ℤ := do
  let bits ← b.timedCommitmentReceiver.forceOpenSmart
  let ds ← TimedCommitment.BitUtils.bitsToInteger bits
  .ok (ds * b.sharedSignatureB.db % ec.n)

/-- `verifyKeys`. -/
def verifyKeys (sha256 : Sha256) (b : SingleBuyer Point) : Except Exn Unit :=
  let expKeys := genKeys sha256 b.signatureCommit.m
  (List.finRange L).forM fun i => do
    let same ← equal b.keysCommits[i].m expKeys[i].toList
    refuseIf (same = false) (.protocolException "Invalid key")

end SingleBuyer

/-! ## Sub-protocols on the members of the parties -/

section
variable {α : Type}

/-- Run a program on the shared signature parties. -/
def onSharedSignature (m : Proc (SharedSignature.S Point × SharedSignature.B Point) α) :
    Proc (SingleSeller Point × SingleBuyer Point) α :=
  zoom (fun st => (st.1.sharedSignatureS, st.2.sharedSignatureB))
    (fun t st => ({ st.1 with sharedSignatureS := t.1 }, { st.2 with sharedSignatureB := t.2 })) m

/-- Run a program on the timed commitment parties. -/
def onTimedCommitment (m : Proc (TimedCommitment.Commiter × TimedCommitment.Receiver) α) :
    Proc (SingleSeller Point × SingleBuyer Point) α :=
  zoom (fun st => (st.1.timedCommitmentCommiter, st.2.timedCommitmentReceiver))
    (fun t st => ({ st.1 with timedCommitmentCommiter := t.1 },
      { st.2 with timedCommitmentReceiver := t.2 })) m

/-- Run a program on the commitment to the `i`-th key. -/
def onKeysCommit (i : Fin L) (m : Proc (ShaCommitment.Sender × ShaCommitment.Receiver) α) :
    Proc (SingleSeller Point × SingleBuyer Point) α :=
  zoom (fun st => (st.1.keysCommits[i], st.2.keysCommits[i]))
    (fun t st => ({ st.1 with keysCommits := st.1.keysCommits.set i t.1 i.isLt },
      { st.2 with keysCommits := st.2.keysCommits.set i t.2 i.isLt })) m

/-- Run a program on the commitment to the signature. -/
def onSignatureCommit (m : Proc (ShaCommitment.Sender × ShaCommitment.Receiver) α) :
    Proc (SingleSeller Point × SingleBuyer Point) α :=
  zoom (fun st => (st.1.signatureCommit, st.2.signatureCommit))
    (fun t st => ({ st.1 with signatureCommit := t.1 }, { st.2 with signatureCommit := t.2 })) m

end

/-! ## The protocol -/

/-- The draws of one instance. -/
structure InstanceRandom where
  ds : ℤ
  db : ℤ
  sign : SharedSignature.SignRandom
  h : ℤ
  zk : ℕ → TimedCommitment.RoundRandom
  keySeeds : Fin L → Bytes32
  signatureSeed : Bytes32

/-- The services the two parties talk to. -/
structure Clients where
  seller : BitcoinUtilsClient
  buyer : BitcoinUtilsClient

namespace SingleSellInformationProtocol

variable (ec : ECParameters Point) (sha256 : Sha256)

/-- `exec`, with the parameter of the time lock. -/
def exec (K : UInt32) (clients : Clients) (ρ : InstanceRandom) :
    Proc (SingleSeller Point × SingleBuyer Point) Unit := do
  -- generate the shared key
  onSharedSignature (SharedSignature.init ec ρ.ds ρ.db)
  modify fun (s, b) => (s, { b with sellerAddress := s.address })
  onSnd (SingleBuyer.createT1AndT2 ec clients.buyer)
  modify fun (s, b) => ({ s with t1OutputScript := b.t1OutputScript, t2 := b.t2 }, b)
  -- sign `T2`
  modify fun (s, b) => ({ s with sharedSignatureS := s.sharedSignatureS.setData b.t2Hash },
    { b with sharedSignatureB := b.sharedSignatureB.setData b.t2Hash })
  onSharedSignature (SharedSignature.exec ec ρ.sign)
  onFst (SingleSeller.verifyT2Signature ec clients.seller)
  let (s, _) ← get
  let bits ← lift (TimedCommitment.BitUtils.integerToBits s.sharedSignatureS.ds)
  let _ ← onTimedCommitment (TimedCommitment.commit sha256 K bits ρ.h ρ.zk)
  modify fun (s, b) => (s.genKeysAndSetupCommits sha256, b)
  (List.finRange L).forM fun i => onKeysCommit i (ShaCommitment.exec sha256 (ρ.keySeeds i))
  onSignatureCommit (ShaCommitment.exec sha256 ρ.signatureSeed)

/-- `open`.  The result of the timed commitment is dropped. -/
def «open» : Proc (SingleSeller Point × SingleBuyer Point) Unit := do
  onSharedSignature (SharedSignature.open ec)
  let (s, b) ← get
  let _ ← lift (TimedCommitment.openCommitment s.timedCommitmentCommiter b.timedCommitmentReceiver)
  (List.finRange L).forM fun i => onKeysCommit i (ShaCommitment.open sha256)
  onSignatureCommit (ShaCommitment.open sha256)
  let (_, b) ← get
  lift (b.verifyKeys sha256)
  modify fun (s, b) => (s, { b with openVerified := b.sharedSignatureB.openVerified })

/-- The protocol of one instance; `init` does nothing. -/
def protocol (clients : Clients) (ρ : InstanceRandom) :
    Protocol (SingleSeller Point) (SingleBuyer Point) where
  init := pure ()
  exec := exec ec sha256 Common.K clients ρ
  «open» := «open» ec sha256

end SingleSellInformationProtocol

end SellingInformation.Main
