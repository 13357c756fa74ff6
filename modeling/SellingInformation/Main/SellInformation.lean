import SellingInformation.Common.SquareRoot
import SellingInformation.CutAndChoose
import SellingInformation.Main.SignatureKey

/-!
# Selling the factors of a number

`sell_information.cpp`.  The seller knows `p` and `q`, the buyer knows `n = p * q`
and wants them.  After cut and choose the parties keep one instance; the buyer
sends squares, the seller commits to two roots of each, encrypted under the keys of
the instance, and opens half of them with the keys and the other half without.
Then the buyer pays, and the signature that takes the payment gives it the keys.

The run is a program over `Sale`: the two parties, and a log of what passed between
them and to the network.  The log is no member of the source; it is there to state
what has been opened and broadcast at each point of a run.

What the buyer does when it is its turn is a parameter, `BuyerSide`, of the part
after cut and choose; `honestSide` is what the source does.
-/

namespace SellingInformation.Main

open CryptoPP Common Fallible

/-! ## The parties -/

/-- The members of `Seller`. -/
structure Seller (Point : Type) where
  p : ℤ
  q : ℤ
  n : ℤ
  price : UInt32
  cheat : Bool
  squareRoot : SquareRoot
  y : Vector ℤ L
  r1 : Vector ℤ L
  r2 : Vector ℤ L
  c1 : Vector Bytes L
  c2 : Vector Bytes L
  t1 : Bytes
  singleSeller : SingleSeller Point
  d1 : Vector ShaCommitment.Sender L
  d2 : Vector ShaCommitment.Sender L

/-- The members of `Buyer`. -/
structure Buyer (Point : Type) where
  n : ℤ
  price : UInt32
  x : Vector ℤ L
  y : Vector ℤ L
  r : ℤ
  indices : Vector (Fin L) (L / 2)
  signature : Bytes
  p : ℤ
  q : ℤ
  singleBuyer : SingleBuyer Point
  d1 : Vector ShaCommitment.Receiver L
  d2 : Vector ShaCommitment.Receiver L

variable {Point : Type}

/-! ### The seller -/

namespace Seller

/-- The constructor.  The default-constructed instance is an argument. -/
def new (p q : ℤ) (price : UInt32) (cheat : Bool) (singleSeller : SingleSeller Point) :
    Seller Point :=
  { p, q, n := p * q, price, cheat, squareRoot := SquareRoot.new p q, y := Vector.replicate L 0,
    r1 := Vector.replicate L 0, r2 := Vector.replicate L 0, c1 := Vector.replicate L [],
    c2 := Vector.replicate L [], t1 := [], singleSeller,
    d1 := Vector.replicate L ShaCommitment.Sender.new,
    d2 := Vector.replicate L ShaCommitment.Sender.new }

/-- `get_n`. -/
def getN (s : Seller Point) : ℤ := s.p * s.q

/-- `findRoots`, with the bits that decide which root comes first. -/
def findRoots (msr : ModularSquareRoot) (swap : Fin L → Bool) : Proc (Seller Point) Unit :=
  (List.finRange L).forM fun i => do
    let s ← get
    let roots ← lift (s.squareRoot.allSquareRoots msr s.y[i])
    let root0 ← lift (elemAt roots 0)
    let root1 ← lift (elemAt roots 1)
    modify fun s => { s with
      r1 := s.r1.set i (if swap i then root1 else root0) i.isLt
      r2 := s.r2.set i (if swap i then root0 else root1) i.isLt }

/-- `encryptRoots`. -/
def encryptRoots (aes : Cipher) : Proc (Seller Point) Unit :=
  (List.finRange L).forM fun i => do
    let s ← get
    let c1 ← lift (enc aes s.singleSeller.keysCommits[i].m (toBytes s.r1[i]))
    modify fun s => { s with c1 := s.c1.set i c1 i.isLt }
    let c2 ← lift (enc aes s.singleSeller.keysCommits[i].m (toBytes s.r2[i]))
    modify fun s => { s with c2 := s.c2.set i c2 i.isLt }

/-- `setupCommit`. -/
def setupCommit (s : Seller Point) : Seller Point :=
  { s with
    d1 := Vector.ofFn fun i => { s.d1[i] with m := s.c1[i] }
    d2 := Vector.ofFn fun i => { s.d2[i] with m := s.c2[i] } }

/-- What `exec` has the seller do with the squares: `acceptSquares`, `findRoots`,
`encryptRoots` and `setupCommit`. -/
def answerSquares (msr : ModularSquareRoot) (aes : Cipher) (swap : Fin L → Bool) (y : Vector ℤ L) :
    Proc (Seller Point) Unit := do
  modify fun s => { s with y }
  findRoots msr swap
  encryptRoots aes
  modify setupCommit

/-- One round of the loop of `acceptSubset`: which of the two commitments to open. -/
def acceptRoot (s : Seller Point) (ind : Fin L) (val : ℤ) : Except Exn ℕ := do
  refuseIf (val ≥ s.n / 2) (.protocolException "xi >= n/2")
  refuseIf (val * val % s.n ≠ s.y[ind]) (.protocolException "xi is not a square root of yi")
  .ok (if val = s.r2[ind] then 2 else if val = s.r1[ind] then 1 else 5)

/-- `acceptSubset`. -/
def acceptSubset (s : Seller Point) (subset : List (Fin L × ℤ)) : Except Exn (List ℕ) :=
  subset.mapM fun e => s.acceptRoot e.1 e.2

/-- `accept_T1`. -/
def acceptT1 [AddCommGroup Point] (ec : ECParameters Point) (client : BitcoinUtilsClient)
    (t1 : Bytes) : Proc (Seller Point) Unit := do
  modify fun s => { s with t1 }
  let s ← get
  let Q := s.singleSeller.sharedSignatureS.Q
  let res ← lift (client.verifyTransaction t1 (integer2string (ec.x Q)) (integer2string (ec.y Q))
    s.price.toInt32)
  throwIf (res = false) (.protocolException "verify T1 failed!")
  let res ← lift (client.waitForTransaction t1 1)
  throwIf (res = false) (.protocolException "wait for t1 failed!")

/-- `accept_payment`: whether `T2` has been broadcast. -/
def acceptPayment (client : BitcoinUtilsClient) : Proc (Seller Point) Bool := do
  let s ← get
  if s.cheat then pure false
  else do
    let res ← lift (client.broadcastTransaction s.singleSeller.t2)
    throwIf (res = false) (.protocolException "accept payment failed!")
    pure true

end Seller

/-! ### The buyer -/

namespace Buyer

/-- The constructor.  The default-constructed instance is an argument. -/
def new (n : ℤ) (price : UInt32) (singleBuyer : SingleBuyer Point) : Buyer Point :=
  { n, price, x := Vector.replicate L 0, y := Vector.replicate L 0, r := 0,
    indices := Vector.replicate (L / 2) ⟨0, by decide⟩, signature := [], p := 0, q := 0, singleBuyer,
    d1 := Vector.replicate L ShaCommitment.Receiver.new,
    d2 := Vector.replicate L ShaCommitment.Receiver.new }

/-- `pickR`, with the number that is drawn from `[0, T - 1]`. -/
def pickR (r : ℤ) (b : Buyer Point) : Buyer Point := { b with r }

/-- `genSquares`, with the numbers that are drawn from `[0, n / 2]`. -/
def genSquares (x : Vector ℤ L) (b : Buyer Point) : Buyer Point :=
  { b with x, y := x.map fun xi => xi * xi % b.n }

/-- `pickSubset`, with the first half of the shuffled indices. -/
def pickSubset (indices : Vector (Fin L) (L / 2)) (b : Buyer Point) : Buyer Point :=
  { b with indices }

/-- `getSubsetIndices`. -/
def getSubsetIndices (b : Buyer Point) : Vector ℕ (L / 2) := b.indices.map fun i => i.val

/-- `getSubsetValues`. -/
def getSubsetValues (b : Buyer Point) : Vector ℤ (L / 2) := b.indices.map fun i => b.x[i]

/-- `verifyRoot`. -/
def verifyRoot (aes : Cipher) (b : Buyer Point) (ind : Fin L) (key c : Bytes) : Except Exn Unit := do
  let xEncoded ← dec aes key c
  refuseIf (ofBytes xEncoded ≠ b.x[ind]) (.protocolException "verifyRoot failed")

/-- `make_payment`. -/
def makePayment (client : BitcoinUtilsClient) (b : Buyer Point) : Except Exn Unit := do
  let res ← client.broadcastTransaction b.singleBuyer.t1
  refuseIf (res = false) (.protocolException "make payment failed")

/-- The loop of `factorise`, for the indices that are left.  The two tests for a
negative number never fire. -/
def factoriseLoop (aes : Cipher) (keys : Vector Bytes32 L) : List (Fin L) → Proc (Buyer Point) Unit
  | [] => throw (.protocolException "Factorization failed!")
  | i :: rest => do
    let b ← get
    if b.d1[i].m = [] ∨ b.d2[i].m = [] then factoriseLoop aes keys rest
    else do
      let r1Bytes ← lift (aes.dec keys[i] b.d1[i].m)
      let r2Bytes ← lift (aes.dec keys[i] b.d2[i].m)
      let r1 := ofBytes r1Bytes
      let r2 := ofBytes r2Bytes
      let p := CryptoPP.gcd (b.n + r1 - r2) b.n
      let q := CryptoPP.gcd (r1 + r2) b.n
      if p * q = b.n then modify fun b => { b with p, q }
      else factoriseLoop aes keys rest

/-- `factorise`. -/
def factorise (sha256 : Sha256) (aes : Cipher) : Proc (Buyer Point) Unit := do
  let b ← get
  factoriseLoop aes (genKeys sha256 b.signature) (List.finRange L)

end Buyer

/-- Which of the two threads of `wait_for_signature_or_time_lock` finishes first: the one
that reads the signature from the network, or the one that solves the time lock. -/
inductive Finish
  | signature (r s : Bytes)
  | timeLock

/-- `wait_for_signature_or_time_lock`, by what its first thread to finish does. -/
def Buyer.waitForSignatureOrTimeLock [AddCommGroup Point] (ec : ECParameters Point)
    (sha256 : Sha256) (aes : Cipher) : Finish → Proc (Buyer Point) Unit
  | .signature r s => do
    modify fun b => { b with signature := SharedSignature.encodeSignature (ofBytes r) (ofBytes s) }
    Buyer.factorise sha256 aes
  | .timeLock => do
    let b ← get
    let _ ← lift (b.singleBuyer.timeLockKey ec)
    pure ()

/-! ## The run -/

/-- What passes between the parties, and what they do to the network. -/
inductive Event
  /-- The buyer sends its squares. -/
  | squares (y : Vector ℤ L)
  /-- The buyer sends its subset, and the roots for it. -/
  | subset (indices : Vector ℕ (L / 2)) (values : Vector ℤ (L / 2))
  /-- The seller opens the commitment to a key. -/
  | openKey (ind : Fin L) (key : Bytes)
  /-- The seller opens the commitment to the first ciphertext of an index. -/
  | openD1 (ind : Fin L) (c : Bytes)
  /-- The seller opens the commitment to the second ciphertext of an index. -/
  | openD2 (ind : Fin L) (c : Bytes)
  /-- The buyer has broadcast `T1`. -/
  | broadcastT1 (t1 : Bytes)
  /-- The seller has broadcast `T2`. -/
  | broadcastT2 (t2 : Bytes)
  /-- The buyer starts to wait for the signature and to solve the time lock. -/
  | startRecovery

/-- An event that opens nothing. -/
def Event.Quiet : Event → Prop
  | .openKey _ _ => False
  | .openD1 _ _ => False
  | .openD2 _ _ => False
  | _ => True

/-- The parties, and the log of the run. -/
structure Sale (Point : Type) where
  seller : Seller Point
  buyer : Buyer Point
  log : List Event

section
variable {α : Type}

/-- Run a program of the seller. -/
def onSeller (m : Proc (Seller Point) α) : Proc (Sale Point) α :=
  zoom Sale.seller (fun seller st => { st with seller }) m

/-- Run a program of the buyer. -/
def onBuyer (m : Proc (Buyer Point) α) : Proc (Sale Point) α :=
  zoom Sale.buyer (fun buyer st => { st with buyer }) m

/-- Add to the log. -/
def record (e : Event) : Proc (Sale Point) Unit := modify fun st => { st with log := st.log ++ [e] }

/-- Run a program on the commitment to the first ciphertext of an index. -/
def onD1 (i : Fin L) (m : Proc (ShaCommitment.Sender × ShaCommitment.Receiver) α) :
    Proc (Sale Point) α :=
  zoom (fun st => (st.seller.d1[i], st.buyer.d1[i]))
    (fun t st => { st with
      seller := { st.seller with d1 := st.seller.d1.set i t.1 i.isLt }
      buyer := { st.buyer with d1 := st.buyer.d1.set i t.2 i.isLt } }) m

/-- Run a program on the commitment to the second ciphertext of an index. -/
def onD2 (i : Fin L) (m : Proc (ShaCommitment.Sender × ShaCommitment.Receiver) α) :
    Proc (Sale Point) α :=
  zoom (fun st => (st.seller.d2[i], st.buyer.d2[i]))
    (fun t st => { st with
      seller := { st.seller with d2 := st.seller.d2.set i t.1 i.isLt }
      buyer := { st.buyer with d2 := st.buyer.d2.set i t.2 i.isLt } }) m

/-- Run a program on the two parties of the instance. -/
def onSingle (m : Proc (SingleSeller Point × SingleBuyer Point) α) : Proc (Sale Point) α :=
  zoom (fun st => (st.seller.singleSeller, st.buyer.singleBuyer))
    (fun t st => { st with
      seller := { st.seller with singleSeller := t.1 }
      buyer := { st.buyer with singleBuyer := t.2 } }) m

end

/-- What the buyer does when it is its turn. -/
structure BuyerSide (Point : Type) where
  squares : Proc (Buyer Point) (Vector ℤ L)
  subset : Proc (Buyer Point) (Vector ℕ (L / 2) × Vector ℤ (L / 2))
  verifyRoot : Fin L → Bytes → Bytes → Proc (Buyer Point) Unit

/-- The draws of a run. -/
structure SaleRandom where
  paillierP : ℤ
  paillierQ : ℤ
  lockP : ℤ
  lockQ : ℤ
  r : ℤ
  instances : Fin T → InstanceRandom
  x : Vector ℤ L
  swap : Fin L → Bool
  seed1 : Fin L → Bytes32
  seed2 : Fin L → Bytes32
  subset : Vector (Fin L) (L / 2)

/-- The buyer of the source. -/
def honestSide (aes : Cipher) (ρ : SaleRandom) : BuyerSide Point where
  squares := do
    modify (Buyer.genSquares ρ.x)
    let b ← get
    pure b.y
  subset := do
    modify (Buyer.pickSubset ρ.subset)
    let b ← get
    pure (b.getSubsetIndices, b.getSubsetValues)
  verifyRoot ind key c := do
    let b ← get
    lift (b.verifyRoot aes ind key c)

namespace SellInformationProtocol

variable [AddCommGroup Point] [DecidableEq Point] (ec : ECParameters Point) (sha256 : Sha256)
  (aes : Cipher) (msr : ModularSquareRoot)

/-- `init`. -/
def init : Proc (Seller Point × Buyer Point) Unit := do
  let (s, b) ← get
  throwIf (s.getN ≠ b.n) (.protocolException "Not matching n")
  throwIf (s.price ≠ b.price) (.protocolException "Not matching price")

/-- The part of `exec` up to the commitments to the ciphertexts. -/
def commitRoots (side : BuyerSide Point) (ρ : SaleRandom) : Proc (Sale Point) Unit := do
  let y ← onBuyer side.squares
  record (.squares y)
  onSeller (Seller.answerSquares msr aes ρ.swap y)
  (List.finRange L).forM fun i => do
    onD1 i (ShaCommitment.exec sha256 (ρ.seed1 i))
    onD2 i (ShaCommitment.exec sha256 (ρ.seed2 i))

/-- The checks on the indices, which have to be `L / 2` different numbers below `L`. -/
def checkIndices (indices : Vector ℕ (L / 2)) : Except Exn (List (Fin L)) := do
  refuseIf (indices.toList.dedup.length ≠ L / 2) (.protocolException "invalid indices size")
  indices.toList.mapM fun ind =>
    if h : ind < L then .ok ⟨ind, h⟩
    else .error (.protocolException "invalid commitment_indices value")

/-- One round of the loop over the subset: the key and one of the two ciphertexts. -/
def openRoot (side : BuyerSide Point) (ind : Fin L) (commitInd : ℕ) : Proc (Sale Point) Unit := do
  let st ← get
  record (.openKey ind st.seller.singleSeller.keysCommits[ind].m)
  onSingle (onKeysCommit ind (ShaCommitment.open sha256))
  let st ← get
  let key := st.buyer.singleBuyer.keysCommits[ind].m
  if commitInd = 1 then do
    record (.openD1 ind st.seller.d1[ind].m)
    onD1 ind (ShaCommitment.open sha256)
    let st ← get
    onBuyer (side.verifyRoot ind key st.buyer.d1[ind].m)
  else if commitInd = 2 then do
    record (.openD2 ind st.seller.d2[ind].m)
    onD2 ind (ShaCommitment.open sha256)
    let st ← get
    onBuyer (side.verifyRoot ind key st.buyer.d2[ind].m)
  else throw (.protocolException "matching roots to values didn't work")

/-- One round of the loop over the other indices: both ciphertexts. -/
def openBoth (ind : Fin L) : Proc (Sale Point) Unit := do
  let st ← get
  record (.openD1 ind st.seller.d1[ind].m)
  onD1 ind (ShaCommitment.open sha256)
  let st ← get
  record (.openD2 ind st.seller.d2[ind].m)
  onD2 ind (ShaCommitment.open sha256)

/-- The part of `exec` that opens, from the choice of the subset on. -/
def openRoots (side : BuyerSide Point) : Proc (Sale Point) Unit := do
  let (indices, values) ← onBuyer side.subset
  record (.subset indices values)
  let inds ← lift (checkIndices indices)
  let st ← get
  let commitmentIndices ← lift (st.seller.acceptSubset (inds.zip values.toList))
  (inds.zip commitmentIndices).forM fun e => openRoot sha256 side e.1 e.2
  (List.finRange L).forM fun ind => if ind ∈ inds then pure () else openBoth sha256 ind

/-- The part of `exec` after cut and choose and before the payment. -/
def deliver (side : BuyerSide Point) (ρ : SaleRandom) : Proc (Sale Point) Unit := do
  commitRoots sha256 aes msr side ρ
  openRoots sha256 side

/-- The last part of `exec`: the payment. -/
def pay (clients : Clients) (finish : Finish) : Proc (Sale Point) Unit := do
  let st ← get
  lift (st.buyer.makePayment clients.buyer)
  record (.broadcastT1 st.buyer.singleBuyer.t1)
  onSeller (Seller.acceptT1 ec clients.seller st.buyer.singleBuyer.t1)
  let st ← get
  let broadcast ← onSeller (Seller.acceptPayment clients.seller)
  if broadcast then record (.broadcastT2 st.seller.singleSeller.t2) else pure ()
  record .startRecovery
  onBuyer (Buyer.waitForSignatureOrTimeLock ec sha256 aes finish)

/-- The first part of `exec`: the parties of `T` instances go through cut and choose, and
the chosen pair is kept.  Each instance has services of its own, since they may answer
differently each time. -/
def chooseInstance (clients : Clients) (instanceClients : Fin T → Clients) (ρ : SaleRandom) :
    Proc (Sale Point) Unit := do
  let (s, b) ← lift (SharedSignature.parties ec ρ.paillierP ρ.paillierQ)
  let commiter ← lift (TimedCommitment.Commiter.new ρ.lockP ρ.lockQ)
  let address ← lift clients.seller.freshAddress
  onBuyer (modify (Buyer.pickR ρ.r))
  let st ← get
  let prover : CutAndChoose.Prover (SingleSeller Point) T :=
    { v := Vector.replicate T (SingleSeller.new s commiter address) }
  let verifier : CutAndChoose.Verifier (SingleBuyer Point) T :=
    { v := Vector.replicate T (SingleBuyer.new b), i := st.buyer.r, res := false }
  let (prover, verifier) ← within (prover, verifier) (CutAndChoose.cutAndChoose
    (fun i => SingleSellInformationProtocol.protocol ec sha256 (instanceClients i) (ρ.instances i))
    SingleBuyer.openVerified (throw (.protocolException "Cheating not implemented!")) (-1))
  throwIf (verifier.res = false) (.protocolException "Generating signatures and keys failed!")
  let singleSeller ← lift (elemAtInt prover.v.toList verifier.i)
  onSeller (modify fun s => { s with singleSeller })
  let singleBuyer ← lift (elemAtInt verifier.v.toList verifier.i)
  onBuyer (modify fun b => { b with singleBuyer })

/-- `exec`. -/
def exec (clients : Clients) (instanceClients : Fin T → Clients) (ρ : SaleRandom) (finish : Finish) :
    Proc (Sale Point) Unit := do
  chooseInstance ec sha256 clients instanceClients ρ
  deliver sha256 aes msr (honestSide aes ρ) ρ
  pay ec sha256 aes clients finish

end SellInformationProtocol

/-! ## The log -/

theorem record_apply {e : Event} (st : Sale Point) :
    record e st = .ok () { st with log := st.log ++ [e] } := rfl

section
variable [AddCommGroup Point]

/-- What follows the payment. -/
def afterPayment (ec : ECParameters Point) (sha256 : Sha256) (aes : Cipher) (clients : Clients)
    (finish : Finish) (t1 : Bytes) : Proc (Sale Point) Unit := do
  onSeller (Seller.acceptT1 ec clients.seller t1)
  let st ← get
  let broadcast ← onSeller (Seller.acceptPayment clients.seller)
  if broadcast then record (.broadcastT2 st.seller.singleSeller.t2) else pure ()
  record .startRecovery
  onBuyer (Buyer.waitForSignatureOrTimeLock ec sha256 aes finish)

variable {ec : ECParameters Point} {sha256 : Sha256} {aes : Cipher} {clients : Clients}
  {finish : Finish}

theorem pay_apply (st : Sale Point) : SellInformationProtocol.pay ec sha256 aes clients finish st =
    (lift (st.buyer.makePayment clients.buyer) >>= fun _ =>
      record (.broadcastT1 st.buyer.singleBuyer.t1) >>= fun _ =>
        afterPayment ec sha256 aes clients finish st.buyer.singleBuyer.t1) st := rfl

/-- What each step of the payment maintains. -/
structure PaySteps (ec : ECParameters Point) (sha256 : Sha256) (aes : Cipher) (finish : Finish)
    (I : Sale Point → Prop) : Prop where
  records : ∀ e, e.Quiet → Maintains I (record e)
  seller : ∀ {α : Type} (m : Proc (Seller Point) α), Maintains I (onSeller m)
  waits : Maintains I (onBuyer (Buyer.waitForSignatureOrTimeLock ec sha256 aes finish))

/-- It is enough for the log that an event that opens nothing cannot make it false. -/
theorem paySteps_of_log {I : List Event → Prop}
    (h : ∀ log (e : Event), e.Quiet → I log → I (log ++ [e])) :
    PaySteps ec sha256 aes finish (fun st => I st.log) where
  records e he := Triple.modify fun st hst => h st.log e he hst
  seller _ := Triple.of_keeps (Keeps.zoom fun _ _ => rfl)
  waits := Triple.of_keeps (Keeps.zoom fun _ _ => rfl)

section
variable {I : Sale Point → Prop}

/-- The payment maintains what its steps do. -/
theorem maintains_afterPayment {t1 : Bytes} (h : PaySteps ec sha256 aes finish I) :
    Maintains I (afterPayment ec sha256 aes clients finish t1) := by
  have hlast : Maintains I (record .startRecovery >>= fun _ =>
      onBuyer (Buyer.waitForSignatureOrTimeLock ec sha256 aes finish)) :=
    Triple.bind (h.records _ trivial) fun _ => h.waits
  refine Triple.bind (h.seller _) fun _ => ?_
  refine Triple.bind (Triple.get fun _ hst => hst) fun st => ?_
  refine Triple.bind (h.seller _) fun broadcast => ?_
  cases broadcast with
  | true => exact Triple.bind (h.records _ trivial) fun _ => hlast
  | false => exact hlast

theorem maintains_pay (h : PaySteps ec sha256 aes finish I) :
    Maintains I (SellInformationProtocol.pay ec sha256 aes clients finish) := by
  refine Triple.bind (Triple.get fun _ hst => hst) fun st => ?_
  refine Triple.bind (Triple.lift (fun _ _ _ hst => hst) fun _ _ _ hst => hst) fun _ => ?_
  refine Triple.bind (h.records _ trivial) fun _ => ?_
  exact maintains_afterPayment h

end

end

end SellingInformation.Main
