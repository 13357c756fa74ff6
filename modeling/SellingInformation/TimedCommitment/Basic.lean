import SellingInformation.TimedCommitment.BitUtils

/-!
# Timed commitments

`timed_commitment`: a committer hides a bit string behind repeated squaring
modulo a product `n` of two safe primes.  It opens the commitment with one value,
and a receiver that is not given that value recovers the string by squaring
`2 ^ K` times.

Both parties are objects with state.  The methods that change it are programs
over `Commiter` or `Receiver`, the others are functions of the object; random
draws are arguments.  `K` and `l` are `unsigned` in the source and `UInt32` here:
`K + 1` wraps, and `l` keeps the length of a message modulo `2 ^ 32`.
-/

namespace SellingInformation.TimedCommitment

open CryptoPP Common Fallible

/-- The primes below `B` go into the exponent of `h`. -/
def B : ℕ := 128

/-- The challenges of the proof lie in `[0, R]`. -/
def R : ℕ := 4 * B

/-- The length in bits of the primes `p` and `q`. -/
def BITS : ℕ := 512

/-! ## The base -/

/-- The loop of `exp`, with its variables `res`, `x` and `n`. -/
def expLoop (res x : ℤ) (n : ℕ) : ℤ :=
  if n = 0 then res else expLoop (if n % 2 = 1 then res * x else res) (x * x) (n / 2)

/-- `exp`. -/
def exp (x : ℤ) (n : ℕ) : ℤ := expLoop 1 x n

/-- The entries of the prime table below `B`.  The table has more than `B`
entries, so the guard of `get_g` on its size never fires. -/
def smallPrimes : List ℕ := (List.range B).filter fun p => p.Prime

/-- The exponent `mult` of `get_g`. -/
def mult : ℤ := smallPrimes.foldl (fun (mult : ℤ) (p : ℕ) => mult * exp p BITS) 1

/-- `get_g`, for a modulus that is not zero; the callers throw for zero, as its division does. -/
def getG (n h : ℤ) : ℤ := aExpBModC h mult n

/-! ## The order of the base -/

/-- The inner loop of `find_order`: divide `q` out of `order` as long as `g` to the
quotient is one. -/
def divideOut (g n q : ℤ) : ℕ → ℤ → Except Exn ℤ
  | 0, _ => .error .diverges
  | fuel + 1, order =>
    if q = 0 then .error .divideByZero
    else if order % q ≠ 0 then .ok order
    else if aExpBModC g (order / q) n = 1 then divideOut g n q fuel (order / q)
    else .ok order

/-- `find_order`. -/
def findOrder (p1 p2 g : ℤ) : Except Exn ℤ :=
  let n := p1 * p2
  let phi := (p1 - 1) * (p2 - 1)
  let q1 := (p1 - 1) / 2
  let q2 := (p2 - 2) / 2
  [q1, q2, 2].foldlM (fun order q => divideOut g n q (order.toNat + 1) order) phi

/-! ## Regular commitments -/

section
variable (sha256 : Sha256)

/-- `regular_commit`. -/
def regularCommit (x : ℤ) : Bytes32 := sha256 (encode x (minEncodedSize x))

/-- `regular_verify`. -/
def regularVerify (c : Bytes32) (x : ℤ) : Bool := decide (c = regularCommit sha256 x)

end

/-! ## The parties -/

/-- `struct Commitment`. -/
structure Commitment where
  K : UInt32
  n : ℤ
  h : ℤ
  g : ℤ
  u : ℤ
  S : List Bool
  W : List ℤ
  l : UInt32
  deriving DecidableEq, Repr

/-- A default-constructed commitment; its numbers are not initialised. -/
def Commitment.new : Commitment := { K := 0, n := 0, h := 0, g := 0, u := 0, S := [], W := [], l := 0 }

/-- The members of `Commiter`. -/
structure Commiter where
  p : ℤ
  q : ℤ
  n : ℤ
  phi : ℤ
  com : Commitment
  order : ℤ
  commits : List Bytes32
  alpha : List ℤ
  deriving DecidableEq, Repr

/-- The members of `Receiver`. -/
structure Receiver where
  com : Commitment
  commitValues : List ℤ
  zw : List ℤ × List ℤ
  deriving DecidableEq, Repr

def Receiver.new : Receiver := { com := Commitment.new, commitValues := [], zw := ([], []) }

/-- One `unsigned` loop XORs a bit string with the low bits of `u`, `u ^ 2`, `u ^ 4`, …
modulo `n`, and leaves the last square in `u`. -/
def maskBits (n : ℤ) : List Bool → ℤ → List Bool × ℤ
  | [], u => ([], u)
  | b :: bits, u =>
    let rest := maskBits n bits (aTimesBModC u u n)
    ((b ^^ getBit0 u) :: rest.1, rest.2)

/-- Vectors are resized to `K + 1` and written up to the index `K`. -/
def resizeCheck (K : UInt32) : Except Exn Unit :=
  refuseIf (¬ K.toNat < (K + 1).toNat) .outOfBounds

namespace Commiter

/-- The last check of `gen_prime`. -/
def genPrime (res : ℤ) : Except Exn ℤ := do
  refuseIf (res % 4 ≠ 3) (.sanityException "gen prime")
  .ok res

/-- What the constructor makes of two primes. -/
def ofPrimes (p q : ℤ) : Commiter :=
  { p, q, n := p * q, phi := (p - 1) * (q - 1), com := Commitment.new, order := 0, commits := [],
    alpha := [] }

/-- The constructor, with the primes the generator returns. -/
def new (p q : ℤ) : Except Exn Commiter := do
  let p ← genPrime p
  let q ← genPrime q
  .ok (ofPrimes p q)

/-- `Commiter::commit`, with the `h` the generator draws.  A `vector<bool>` is
always binary, so the first sanity check never fires. -/
def commit (K : UInt32) (m : List Bool) (h : ℤ) : Proc Commiter Commitment := do
  let c ← get
  let l := UInt32.ofNat m.length
  let g := getG c.n h
  let order ← lift (findOrder c.p c.q g)
  modify fun c => { c with order }
  let a0 := aExpBModC 2 (2 ^ K.toNat - l.toNat) c.phi
  let a := aExpBModC 2 (2 ^ K.toNat) c.phi
  let masked := maskBits c.n (m.take l.toNat) (aExpBModC g a0 c.n)
  let S := masked.1
  let u := masked.2
  throwIf (u ≠ aExpBModC g a c.n) (.sanityException "u != g ** a")
  lift (resizeCheck K)
  let W := (List.range (K.toNat + 1)).map fun i =>
    aExpBModC g (aExpBModC 2 (2 ^ i) c.phi) c.n
  throwIf (W[0]? ≠ some (g * g % c.n)) (.sanityException "invalid W")
  let w1 ← lift (elemAt W 1)
  throwIf (w1 ≠ g * g * g * g % c.n) (.sanityException "invalid W")
  throwIf (W[K.toNat]? ≠ some u) (.sanityException "invalid W")
  let com := { K, n := c.n, h, g, u, S, W, l }
  modify fun c => { c with com }
  pure com

/-- `Commiter::zk_2`, with the masks the generator draws. -/
def zk2 (commits : List Bytes32) (draw : ℕ → ℤ) : Proc Commiter (List ℤ × List ℤ) := do
  let c ← get
  let K := c.com.K
  throwIf (commits.length ≠ (K + 1).toNat) (.timedProtocolException "ERR zk_2 commits size")
  lift (resizeCheck K)
  let alpha := (List.range (K.toNat + 1)).map fun i => if i = 0 then c.alpha.getD 0 0 else draw i
  set { c with commits, alpha }
  let zw ← lift ((List.range' 1 K.toNat).mapM fun i => do
    let a ← elemAt alpha i
    let w ← elemAt c.com.W (i - 1)
    .ok (aExpBModC c.com.g a c.n, aExpBModC w a c.n))
  pure (0 :: zw.map Prod.fst, 0 :: zw.map Prod.snd)

/-- `Commiter::zk_4`. -/
def zk4 (sha256 : Sha256) (c : Commiter) (commitValues : List ℤ) : Except Exn (List ℤ) := do
  let K := c.com.K
  refuseIf (commitValues.length ≠ (K + 1).toNat)
    (.timedProtocolException "invalid commit_values size")
  (List.range' 1 K.toNat).forM fun i => do
    let commit ← elemAt c.commits i
    let value ← elemAt commitValues i
    refuseIf (regularVerify sha256 commit value = false)
      (.timedProtocolException "regular commit didn't verify")
  let y ← (List.range' 1 K.toNat).mapM fun i => do
    let value ← elemAt commitValues i
    let a ← elemAt c.alpha i
    let yi := aTimesBModC value (aExpBModC 2 (2 ^ (i - 1)) c.order) c.order
    .ok ((yi + a) % c.order)
  .ok (0 :: y)

/-- `Commiter::open`. -/
def «open» (c : Commiter) : ℤ :=
  aExpBModC c.com.h (aExpBModC 2 (2 ^ c.com.K.toNat - c.com.l.toNat) c.phi) c.n

end Commiter

namespace Receiver

/-- `Receiver::accept_commitment`: the commitment is stored before it is checked. -/
def acceptCommitment (com : Commitment) : Proc Receiver Unit := do
  modify fun r => { r with com }
  throwIf (com.n = 0) .divideByZero
  throwIf (com.g ≠ getG com.n com.h) (.timedProtocolException "g != get_g")
  throwIf (com.W.length ≠ (com.K + 1).toNat) (.timedProtocolException "W.size() != K+1")
  let w0 ← lift (elemAt com.W 0)
  throwIf (w0 ≠ com.g * com.g % com.n) (.timedProtocolException "invalid W")
  let wK ← lift (elemAt com.W com.K.toNat)
  throwIf (wK ≠ com.u) (.timedProtocolException "invalid W")

/-- `Receiver::zk_1`, with the challenges the generator draws. -/
def zk1 (sha256 : Sha256) (draw : ℕ → ℤ) : Proc Receiver (List Bytes32) := do
  let r ← get
  let K := r.com.K
  lift (resizeCheck K)
  let commitValues := (List.range (K.toNat + 1)).map fun i =>
    if i = 0 then r.commitValues.getD 0 0 else draw i
  set { r with commitValues }
  pure ((List.range (K.toNat + 1)).map fun i =>
    if i = 0 then Vector.replicate 32 0 else regularCommit sha256 (draw i))

/-- `Receiver::zk_3`. -/
def zk3 (zw : List ℤ × List ℤ) : Proc Receiver (List ℤ) := do
  let r ← get
  let K := r.com.K
  throwIf (zw.1.length ≠ (K + 1).toNat ∨ zw.2.length ≠ (K + 1).toNat)
    (.timedProtocolException "invalid zw size")
  set { r with zw }
  pure r.commitValues

/-- One round of the loop of `Receiver::zk_5`. -/
def zk5Check (r : Receiver) (y : List ℤ) (i : ℕ) : Except Exn Unit := do
  let com := r.com
  let yi ← elemAt y i
  let w ← elemAt com.W (i - 1)
  let value ← elemAt r.commitValues i
  refuseIf (com.n = 0) .divideByZero
  let zi := aTimesBModC (aExpBModC com.g yi com.n)
    (aExpBModC (inverseMod w com.n) value com.n) com.n
  let z ← elemAt r.zw.1 i
  refuseIf (zi ≠ z) (.timedProtocolException "zi verification failed")
  let w' ← elemAt com.W i
  let wi := aTimesBModC (aExpBModC w yi com.n)
    (aExpBModC (inverseMod w' com.n) value com.n) com.n
  let zw ← elemAt r.zw.2 i
  refuseIf (wi ≠ zw) (.timedProtocolException "wi verification failed")

/-- `Receiver::zk_5`. -/
def zk5 (r : Receiver) (y : List ℤ) : Except Exn Unit := do
  refuseIf (y.length ≠ (r.com.K + 1).toNat) (.timedProtocolException "y size != K+1")
  (List.range' 1 r.com.K.toNat).forM (r.zk5Check y)

/-- `Receiver::decode`. -/
def decode (r : Receiver) (v : ℤ) : Except Exn (List Bool) := do
  let com := r.com
  refuseIf (com.S.length < com.l.toNat) .outOfBounds
  let res := maskBits com.n (com.S.take com.l.toNat) v
  refuseIf (res.2 ≠ com.u) (.sanityException "v != com.u")
  .ok res.1

/-- The common end of the three ways to open: `v ^ (2 ^ l)` has to be `u`.  The modulus is divided
by before that, in `get_g` or in the squaring loop, or here at the latest. -/
def decodeChecked (r : Receiver) (v : ℤ) : Except Exn (List Bool) := do
  refuseIf (r.com.n = 0) .divideByZero
  let u := aExpBModC v (2 ^ r.com.l.toNat) r.com.n
  refuseIf (u ≠ r.com.u) (.timedProtocolException "u != com.u")
  r.decode v

/-- `Receiver::open`. -/
def «open» (r : Receiver) (vp : ℤ) : Except Exn (List Bool) :=
  r.decodeChecked (getG r.com.n vp)

/-- The squaring loop of the forced openings, for `i` from zero below `bound`. -/
def squareLoop (n bound v : ℤ) : ℤ := (fun v => aTimesBModC v v n)^[bound.toNat] v

/-- `Receiver::force_open`. -/
def forceOpen (r : Receiver) : Except Exn (List Bool) :=
  r.decodeChecked (squareLoop r.com.n (2 ^ r.com.K.toNat - r.com.l.toNat) r.com.g)

/-- `Receiver::force_open_smart`. -/
def forceOpenSmart (r : Receiver) : Except Exn (List Bool) := do
  let v ← elemAt r.com.W (r.com.K - 1).toNat
  r.decodeChecked (squareLoop r.com.n (2 ^ (r.com.K - 1).toNat - r.com.l.toNat) v)

end Receiver

/-! ## The protocol -/

/-- The draws of one round of the proof. -/
structure RoundRandom where
  challenge : ℕ → ℤ
  alpha : ℕ → ℤ

/-- One round of the proof, as the body of the loop of `commit`. -/
def zkRound (sha256 : Sha256) (ρ : RoundRandom) : Proc (Commiter × Receiver) Unit := do
  let commits ← onSnd (Receiver.zk1 sha256 ρ.challenge)
  let zw ← onFst (Commiter.zk2 commits ρ.alpha)
  let commitValues ← onSnd (Receiver.zk3 zw)
  let (c, _) ← get
  let y ← lift (c.zk4 sha256 commitValues)
  let (_, r) ← get
  lift (r.zk5 y)

/-- `commit`: ten rounds of the proof follow the commitment. -/
def commit (sha256 : Sha256) (K : UInt32) (m : List Bool) (h : ℤ) (ρ : ℕ → RoundRandom) :
    Proc (Commiter × Receiver) Commitment := do
  let com ← onFst (Commiter.commit K m h)
  onSnd (Receiver.acceptCommitment com)
  (List.range 10).forM fun i => zkRound sha256 (ρ i)
  pure com

/-- `open_commitment`. -/
def openCommitment (c : Commiter) (r : Receiver) : Except Exn (List Bool) := r.open c.open

end SellingInformation.TimedCommitment
