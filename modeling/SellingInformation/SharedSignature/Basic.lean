import SellingInformation.Common.Common
import SellingInformation.SharedSignature.Paillier

/-!
# Signing with a shared key

`shared_sig.cpp`: the parties `S` and `B` hold the factors `ds` and `db` of one
ECDSA key and sign together.  `B` works on `S`'s key share under `S`'s Paillier
key, so that neither learns the other's share.

The members `ec`, `G` and `n` of both classes are those of the curve, which is a
parameter.  Random draws are arguments.
-/

namespace SellingInformation.SharedSignature

open CryptoPP Common Fallible

/-! ## Verifying -/

/-- `hash_m_to_int`: the leftmost bytes of a hash. -/
def hashMToInt (m : Bytes) (retByteCount : ℕ) : Except Exn ℤ := do
  refuseIf (m.length ≠ 32) (.protocolException "m_len != sha digest size")
  refuseIf (m.length < retByteCount) .outOfBounds
  .ok (ofBytes (m.take retByteCount))

/-- `encode_signature`. -/
def encodeSignature (r s : ℤ) : Bytes := encode r 32 ++ encode s 32

section
variable {Point : Type} [AddCommGroup Point] [DecidableEq Point] (ec : ECParameters Point)

/-- `verify`. -/
def verify (Q : Point) (message : Bytes) (r s : ℤ) : Except Exn Bool := do
  let z ← hashMToInt message (byteCount ec.n)
  if Q = 0 then .ok false
  else if (ec.n : ℤ) • Q ≠ 0 then .ok false
  else if r ≤ 0 ∨ r ≥ ec.n then .ok false
  else if s ≤ 0 ∨ s ≥ ec.n then .ok false
  else
    let w := inverseMod s ec.n
    let u1 := aTimesBModC z w ec.n
    let u2 := aTimesBModC r w ec.n
    let P2 := u1 • ec.G + u2 • Q
    if (ec.x P2 : ℤ) ≠ r then .ok false else .ok true

end

/-! ## The parties -/

/-- The members of `S`. -/
structure S (Point : Type) where
  data : Bytes
  ds : ℤ
  ks : ℤ
  Qs : Point
  Qb : Point
  Q : Point
  Ks : Point
  paillier : Paillier
  cs : ℤ
  r : ℤ
  s : ℤ

/-- The members of `B`. -/
structure B (Point : Type) where
  db : ℤ
  kb : ℤ
  Qs : Point
  Qb : Point
  Q : Point
  paillier : Paillier
  K : Point
  r : ℤ
  cb : ℤ
  data : Bytes
  openVerified : Bool

/-- The draws of one signature: the two nonces, the blinding `u`, and the
randomness of the three encryptions. -/
structure SignRandom where
  ks : ℤ
  kb : ℤ
  u : ℤ
  encDs : ℤ
  encC1 : ℤ
  encU : ℤ

variable {Point : Type} [AddCommGroup Point] [DecidableEq Point] (ec : ECParameters Point)

namespace S

/-- The argument `2*n.BitCount() + 3` of the Paillier constructor. -/
def paillierBits : ℕ := 2 * bitCount ec.n + 3

/-- The constructor, with the primes of the Paillier key.  A modulus that is too
short is only reported. -/
def new (p q : ℤ) : S Point :=
  { data := [], ds := 0, ks := 0, Qs := 0, Qb := 0, Q := 0, Ks := 0,
    paillier := Paillier.ofPrimes p q, cs := 0, r := 0, s := 0 }

/-- `get_data_length`. -/
def getDataLength (s : S Point) : Except Exn ℕ := do
  refuseIf (s.data.length = 0) (.protocolException "Data is empty!")
  .ok s.data.length

/-- `set_data`. -/
def setData (data : Bytes) (s : S Point) : S Point := { s with data }

/-- `get_signature`. -/
def getSignature (s : S Point) : Bytes := encodeSignature s.r s.s

/-- `start_init`. -/
def startInit (ds : ℤ) (s : S Point) : S Point := { s with ds, Qs := ds • ec.G }

/-- `finish_init`. -/
def finishInit (Qb : Point) (s : S Point) : S Point := { s with Qb, Q := s.ds • Qb }

/-- `start_sig`. -/
def startSig (ks encDs : ℤ) : Proc (S Point) Unit := do
  modify fun s => { s with ks, Ks := ks • ec.G }
  let s ← get
  let cs ← lift (s.paillier.enc s.ds encDs)
  modify fun s => { s with cs }

/-- `finish_sig`. -/
def finishSig (r cb : ℤ) : Proc (S Point) Unit := do
  modify fun s => { s with r }
  let self ← get
  let m ← lift (self.paillier.dec cb)
  let s2 := m % ec.n
  let s := aTimesBModC (inverseMod self.ks ec.n) s2 ec.n
  modify fun self => { self with s }
  throwIf (s = 0) (.protocolException "ERR s==0 restart protocol")
  modify fun self => { self with s := if self.s > ec.n - self.s then ec.n - self.s else self.s }
  let self ← get
  let _ ← lift self.getDataLength
  let result ← lift (verify ec self.Q self.data self.r self.s)
  throwIf (result = false) (.protocolException "Invalid signature generated!")

end S

namespace B

/-- A party that has the key of its peer and nothing else. -/
def ofPaillier (paillier : Paillier) : B Point :=
  { db := 0, kb := 0, Qs := 0, Qb := 0, Q := 0, paillier, K := 0, r := 0, cb := 0, data := [],
    openVerified := false }

/-- The constructor. -/
def new (paillierN paillierG : ℤ) : Except Exn (B Point) := do
  let paillier := Paillier.ofKey paillierN paillierG
  let n ← paillier.getN
  refuseIf (n ≤ 2 * ec.n * ec.n * ec.n * ec.n) (.protocolException "too short paillier")
  .ok (ofPaillier paillier)

/-- `set_data`. -/
def setData (data : Bytes) (b : B Point) : B Point := { b with data }

/-- `start_init`. -/
def startInit (db : ℤ) (b : B Point) : B Point := { b with db, Qb := db • ec.G }

/-- `finish_init`. -/
def finishInit (Qs : Point) (b : B Point) : B Point := { b with Qs, Q := b.db • Qs }

/-- `cont_sig`. -/
def contSig (Ks : Point) (cs : ℤ) (m : Bytes) (ρ : SignRandom) : Proc (B Point) Unit := do
  modify fun b => { b with kb := ρ.kb, K := ρ.kb • Ks, r := ec.x (ρ.kb • Ks) % ec.n }
  let b ← get
  throwIf (b.r = 0) (.protocolException "r == 0")
  let hi ← lift (hashMToInt m (byteCount ec.n))
  let c1 ← lift (b.paillier.enc (aTimesBModC (inverseMod b.kb ec.n) hi ec.n) ρ.encC1)
  let t := aTimesBModC (aTimesBModC (inverseMod b.kb ec.n) b.r ec.n) b.db ec.n
  let n2 ← lift b.paillier.getN2
  let c2 := aTimesBModC c1 (aExpBModC cs t n2) n2
  let cu ← lift (b.paillier.enc (ρ.u * ec.n) ρ.encU)
  modify fun b => { b with cb := aTimesBModC c2 cu n2 }

end B

/-! ## The protocol -/

/-- Fresh parties, `B` with the public key of `S`. -/
def parties (p q : ℤ) : Except Exn (S Point × B Point) := do
  let s := S.new p q
  let n ← s.paillier.getN
  let g ← s.paillier.getG
  let b ← B.new ec n g
  .ok (s, b)

/-- `SharedSignature::init`, with the key shares. -/
def init (ds db : ℤ) : Proc (S Point × B Point) Unit := do
  modify fun (s, b) => (s.startInit ec ds, b.startInit ec db)
  modify fun (s, b) => (s.finishInit b.Qb, b)
  modify fun (s, b) => (s, b.finishInit s.Qs)
  let (s, b) ← get
  throwIf (s.Q ≠ b.Q) (.protocolException "Mismatching Q")

/-- `SharedSignature::exec`. -/
def exec (ρ : SignRandom) : Proc (S Point × B Point) Unit := do
  onFst (S.startSig ec ρ.ks ρ.encDs)
  let (s, b) ← get
  onSnd (B.contSig ec s.Ks s.cs b.data ρ)
  let (_, b) ← get
  onFst (S.finishSig ec b.r b.cb)

/-- `SharedSignature::open`. -/
def «open» : Proc (S Point × B Point) Unit := do
  let (s, b) ← get
  let result ← lift (verify ec b.Q b.data s.r s.s)
  modify fun (s, b) => (s, { b with openVerified := result })

/-- The protocol `SharedSignature`. -/
def protocol (ds db : ℤ) (ρ : SignRandom) : Protocol (S Point) (B Point) where
  init := init ec ds db
  exec := exec ec ρ
  «open» := «open» ec

section
variable {ec}

/-- A signature is made when the three steps return, one after the other. -/
theorem exec_eq_ok {ρ : SignRandom} {s : S Point} {b : B Point} {st : S Point × B Point} {u : Unit} :
    exec ec ρ (s, b) = .ok u st ↔ ∃ s1 b1, S.startSig ec ρ.ks ρ.encDs s = .ok () s1 ∧
      B.contSig ec s1.Ks s1.cs b.data ρ b = .ok () b1 ∧
      S.finishSig ec b1.r b1.cb s1 = .ok () st.1 ∧ st.2 = b1 := by
  simp only [exec, bind_eq_ok, get_apply, onFst_eq_ok, onSnd_eq_ok]
  constructor
  · rintro ⟨_, ⟨s1, b'⟩, ⟨h1, hb⟩, _, _, hget, _, ⟨s', b1⟩, ⟨h2, hs⟩, _, _, hget', h3, hb1⟩
    cases hget
    cases hget'
    cases hb
    cases hs
    exact ⟨s1, b1, h1, h2, h3, hb1⟩
  · rintro ⟨s1, b1, h1, h2, h3, hb1⟩
    exact ⟨(), (s1, b), ⟨h1, rfl⟩, _, _, rfl, (), (s1, b1), ⟨h2, rfl⟩, _, _, rfl, h3, hb1⟩

/-- What is left when both sides have spoken is the step of `S`. -/
theorem exec_of_ok {ρ : SignRandom} {s s1 : S Point} {b b1 : B Point} {m : Bytes}
    (hm : b.data = m) (hs : S.startSig ec ρ.ks ρ.encDs s = .ok () s1)
    (hb : B.contSig ec s1.Ks s1.cs m ρ b = .ok () b1) :
    exec ec ρ (s, b) = onFst (S.finishSig ec b1.r b1.cb) (s1, b1) := by
  subst hm
  unfold exec
  rw [bind_of_ok (onFst_of_ok hs), bind_of_ok (get_apply _)]
  have hsnd := onSnd_of_ok (s := s1) hb
  simp only [bind_of_ok hsnd, bind_of_ok (get_apply _)]

/-- When `B` throws, both sides keep what they have done so far. -/
theorem exec_of_error {ρ : SignRandom} {s s1 : S Point} {b b1 : B Point} {m : Bytes}
    {e : Exn} (hm : b.data = m) (hs : S.startSig ec ρ.ks ρ.encDs s = .ok () s1)
    (hb : B.contSig ec s1.Ks s1.cs m ρ b = .error e b1) :
    exec ec ρ (s, b) = .error e (s1, b1) := by
  subst hm
  unfold exec
  rw [bind_of_ok (onFst_of_ok hs), bind_of_ok (get_apply _)]
  have hsnd := onSnd_of_error (s := s1) hb
  simp only [bind_of_error hsnd]

/-! ### What verification accepts -/

theorem hashMToInt_toList (m : Bytes32) {k : ℕ} (hk : k ≤ 32) :
    hashMToInt m.toList k = .ok (ofBytes (m.toList.take k)) := by
  have hlen : m.toList.length = 32 := by simp
  unfold hashMToInt
  rw [refuseIf_of_not (by simp [hlen]), except_ok_bind,
    refuseIf_of_not (by omega), except_ok_bind]

/-- When all the guards pass, the abscissa decides. -/
theorem verify_of_range {Q : Point} {m : Bytes} {r s z : ℤ}
    (hz : hashMToInt m (byteCount ec.n) = .ok z) (hQ : Q ≠ 0) (hnQ : (ec.n : ℤ) • Q = 0)
    (hr : 0 < r ∧ r < ec.n) (hs : 0 < s ∧ s < ec.n) :
    verify ec Q m r s = .ok (decide ((ec.x (aTimesBModC z (inverseMod s ec.n) ec.n • ec.G +
      aTimesBModC r (inverseMod s ec.n) ec.n • Q) : ℤ) = r)) := by
  have hr' : ¬ (r ≤ 0 ∨ r ≥ ec.n) := by omega
  have hs' : ¬ (s ≤ 0 ∨ s ≥ ec.n) := by omega
  simp only [verify, hz, except_ok_bind, if_neg hQ, hnQ, ne_eq, not_true_eq_false, if_false,
    if_neg hr', if_neg hs']
  split
  · next hx => rw [decide_eq_false hx]
  · next hx => rw [decide_eq_true (not_not.1 hx)]

/-- A signature is accepted when all the guards pass and the abscissa is `r`. -/
theorem verify_eq_true {Q : Point} {m : Bytes} {r s z : ℤ}
    (hz : hashMToInt m (byteCount ec.n) = .ok z) (hQ : Q ≠ 0) (hnQ : (ec.n : ℤ) • Q = 0)
    (hr : 0 < r ∧ r < ec.n) (hs : 0 < s ∧ s < ec.n)
    (hx : (ec.x (aTimesBModC z (inverseMod s ec.n) ec.n • ec.G +
      aTimesBModC r (inverseMod s ec.n) ec.n • Q) : ℤ) = r) :
    verify ec Q m r s = .ok true := by
  rw [verify_of_range hz hQ hnQ hr hs, decide_eq_true hx]

end

end SellingInformation.SharedSignature
