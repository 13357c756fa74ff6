import SellingInformation.Main.SignatureKey
import SellingInformation.SharedSignature.Signing
import SellingInformation.TimedCommitment.Opening

/-!
# What opening an instance checks

`SingleSellInformationProtocol::open` runs five sub-openings.  They are read off
as one condition on the two parties, `Accepts`, and `open_verified_iff` says that
an opening ends verified exactly then.

Two things are missing from it:

* the integer behind the timed commitment is never compared with the key share
  (`recoversKey_iff` says for which buyers that does not matter);
* the signature that is committed to is never compared with the one that is
  verified (`commitsToSignature_iff` says that a seller who convinces a buyer can
  always convince it with two different signatures).
-/

namespace SellingInformation.Main

open CryptoPP Common Fallible ShaCommitment

variable {Point : Type} [AddCommGroup Point] [DecidableEq Point]

/-! ## The commitments to the keys -/

section
variable {Point : Type} {sha256 : Sha256} {s : SingleSeller Point} {b : SingleBuyer Point}
  {st : SingleSeller Point × SingleBuyer Point} {u : Unit}

/-- The buyer once the `i`-th key is open. -/
def openedKey (i : Fin L) (s : SingleSeller Point) (b : SingleBuyer Point) : SingleBuyer Point :=
  { b with keysCommits := b.keysCommits.set i (opened s.keysCommits[i] b.keysCommits[i] true) i.isLt }

/-- The buyer once the keys with index in `l` are open. -/
def openedKeys (l : List (Fin L)) (s : SingleSeller Point) (b : SingleBuyer Point) :
    SingleBuyer Point :=
  { b with keysCommits := Vector.ofFn fun i =>
      if i ∈ l then opened s.keysCommits[i] b.keysCommits[i] true else b.keysCommits[i] }

theorem openedKey_keysCommits (i j : Fin L) : (openedKey i s b).keysCommits[j] =
    if i = j then opened s.keysCommits[i] b.keysCommits[i] true else b.keysCommits[j] := by
  simp only [openedKey, getElem_val, Vector.getElem_set, Fin.ext_iff]

theorem openedKeys_nil : openedKeys [] s b = b := by
  simp [openedKeys]

theorem openedKeys_cons (i : Fin L) (l : List (Fin L)) :
    openedKeys l s (openedKey i s b) = openedKeys (i :: l) s b := by
  have hkeys : (openedKeys l s (openedKey i s b)).keysCommits =
      (openedKeys (i :: l) s b).keysCommits := by
    refine Vector.ext fun j hj => ?_
    simp only [openedKeys, Vector.getElem_ofFn, openedKey_keysCommits, List.mem_cons]
    by_cases hij : i = ⟨j, hj⟩
    · subst hij
      by_cases hl : (⟨j, hj⟩ : Fin L) ∈ l <;> simp [hl, opened]
    · simp [hij, Ne.symm hij]
  simp only [openedKeys, openedKey] at hkeys ⊢
  rw [hkeys]

theorem onKeysCommit_open_eq_ok {i : Fin L} :
    onKeysCommit i (ShaCommitment.open sha256) (s, b) = .ok u st ↔
      b.keysCommits[i].com = computeSha sha256 s.keysCommits[i].m s.keysCommits[i].seed ∧
        st = (s, openedKey i s b) := by
  have hset : s.keysCommits.set i s.keysCommits[i] i.isLt = s.keysCommits := by simp
  unfold onKeysCommit
  rw [zoom_eq_ok]
  constructor
  · rintro ⟨⟨s', r'⟩, hopen, rfl⟩
    obtain ⟨hcom, rfl, rfl⟩ := open_eq_ok_iff.1 hopen
    refine ⟨hcom, ?_⟩
    simp only [hset, openedKey]
  · rintro ⟨hcom, rfl⟩
    refine ⟨_, open_eq_ok_iff.2 ⟨hcom, rfl, rfl⟩, ?_⟩
    simp only [hset, openedKey]

/-- The loop over the keys returns when every hash matches. -/
theorem forM_open_eq_ok {l : List (Fin L)} :
    (l.forM fun i => onKeysCommit i (ShaCommitment.open sha256)) (s, b) = .ok u st ↔
      (∀ i ∈ l, b.keysCommits[i].com =
        computeSha sha256 s.keysCommits[i].m s.keysCommits[i].seed) ∧
        st = (s, openedKeys l s b) := by
  induction l generalizing b with
  | nil =>
    rw [openedKeys_nil]
    simp [List.forM, eq_comm]
  | cons i l ih =>
    have hcom : ∀ j : Fin L, (openedKey i s b).keysCommits[j].com = b.keysCommits[j].com := by
      intro j
      rw [openedKey_keysCommits]
      split
      · next hij => rw [← hij]; rfl
      · rfl
    rw [forM_cons, bind_eq_ok]
    simp only [onKeysCommit_open_eq_ok, List.forall_mem_cons]
    constructor
    · rintro ⟨_, _, ⟨hi, rfl⟩, hrest⟩
      obtain ⟨hl, rfl⟩ := ih.1 hrest
      simp only [hcom] at hl
      exact ⟨⟨hi, hl⟩, by rw [openedKeys_cons]⟩
    · rintro ⟨⟨hi, hl⟩, rfl⟩
      refine ⟨(), _, ⟨hi, rfl⟩, ih.2 ⟨?_, by rw [openedKeys_cons]⟩⟩
      simpa only [hcom] using hl

theorem onSignatureCommit_open_eq_ok :
    onSignatureCommit (ShaCommitment.open sha256) (s, b) = .ok u st ↔
      b.signatureCommit.com = computeSha sha256 s.signatureCommit.m s.signatureCommit.seed ∧
        st = (s, { b with signatureCommit := opened s.signatureCommit b.signatureCommit true }) := by
  unfold onSignatureCommit
  rw [zoom_eq_ok]
  constructor
  · rintro ⟨⟨s', r'⟩, hopen, rfl⟩
    obtain ⟨hcom, rfl, rfl⟩ := open_eq_ok_iff.1 hopen
    exact ⟨hcom, rfl⟩
  · rintro ⟨hcom, rfl⟩
    exact ⟨_, open_eq_ok_iff.2 ⟨hcom, rfl, rfl⟩, rfl⟩

end

/-! ## The whole opening -/

/-- What the sub-openings check, on the parties before the opening. -/
structure Accepts (ec : ECParameters Point) (sha256 : Sha256) (s : SingleSeller Point)
    (b : SingleBuyer Point) : Prop where
  /-- The signature verifies against the buyer's own key and data. -/
  signature : SharedSignature.verify ec b.sharedSignatureB.Q b.sharedSignatureB.data
    s.sharedSignatureS.r s.sharedSignatureS.s = .ok true
  /-- The timed commitment opens to something. -/
  timed : ∃ bits, TimedCommitment.openCommitment s.timedCommitmentCommiter
    b.timedCommitmentReceiver = .ok bits
  keys : ∀ i : Fin L, b.keysCommits[i].com =
    computeSha sha256 s.keysCommits[i].m s.keysCommits[i].seed
  signatureCommit : b.signatureCommit.com =
    computeSha sha256 s.signatureCommit.m s.signatureCommit.seed
  /-- The keys are derived from the committed signature. -/
  derived : ∀ i : Fin L, equal s.keysCommits[i].m (genKeys sha256 s.signatureCommit.m)[i].toList =
    .ok true

variable {ec : ECParameters Point} {sha256 : Sha256} {s : SingleSeller Point} {b : SingleBuyer Point}

omit [AddCommGroup Point] [DecidableEq Point] in
theorem verifyKeys_eq_ok : b.verifyKeys sha256 = .ok () ↔
    ∀ i : Fin L, equal b.keysCommits[i].m (genKeys sha256 b.signatureCommit.m)[i].toList =
      .ok true := by
  simp only [SingleBuyer.verifyKeys, forM_eq_ok_iff, List.mem_finRange, true_implies,
    except_bind_eq_ok, refuseIf_eq_ok, Bool.not_eq_false]
  constructor
  · intro h i
    obtain ⟨same, hsame, rfl⟩ := h i
    exact hsame
  · intro h i
    exact ⟨true, h i, rfl⟩

theorem onSharedSignature_open_eq_ok {st : SingleSeller Point × SingleBuyer Point} {u : Unit} :
    onSharedSignature (SharedSignature.open ec) (s, b) = .ok u st ↔
      ∃ res, SharedSignature.verify ec b.sharedSignatureB.Q b.sharedSignatureB.data
        s.sharedSignatureS.r s.sharedSignatureS.s = .ok res ∧
          st = (s, { b with sharedSignatureB := { b.sharedSignatureB with openVerified := res } }) := by
  simp only [onSharedSignature, zoom_eq_ok, SharedSignature.open, bind_eq_ok, get_apply, lift_eq_ok,
    modify_apply]
  constructor
  · rintro ⟨t, ⟨_, _, hget, res, _, ⟨hver, rfl⟩, hset⟩, rfl⟩
    cases hget
    cases hset
    exact ⟨res, hver, rfl⟩
  · rintro ⟨res, hver, rfl⟩
    exact ⟨_, ⟨_, _, rfl, res, _, ⟨hver, rfl⟩, rfl⟩, rfl⟩

/-- The buyer after an opening that returned. -/
def openedBuyer (s : SingleSeller Point) (b : SingleBuyer Point) (res : Bool) :
    SingleBuyer Point :=
  { openedKeys (List.finRange L) s b with
    sharedSignatureB := { b.sharedSignatureB with openVerified := res }
    signatureCommit := opened s.signatureCommit b.signatureCommit true
    openVerified := res }

omit [AddCommGroup Point] [DecidableEq Point] in
theorem openedKeys_m (i : Fin L) :
    (openedKeys (List.finRange L) s b).keysCommits[i].m = s.keysCommits[i].m := by
  simp [openedKeys, opened]

/-- An opening returns when the four commitments open and the keys are derived from the
committed signature; the verdict is that of the signature check. -/
theorem open_eq_ok {st : SingleSeller Point × SingleBuyer Point} {u : Unit} :
    SingleSellInformationProtocol.open ec sha256 (s, b) = .ok u st ↔
      ∃ res, SharedSignature.verify ec b.sharedSignatureB.Q b.sharedSignatureB.data
          s.sharedSignatureS.r s.sharedSignatureS.s = .ok res ∧
        (∃ bits, TimedCommitment.openCommitment s.timedCommitmentCommiter
          b.timedCommitmentReceiver = .ok bits) ∧
        (∀ i : Fin L, b.keysCommits[i].com =
          computeSha sha256 s.keysCommits[i].m s.keysCommits[i].seed) ∧
        b.signatureCommit.com = computeSha sha256 s.signatureCommit.m s.signatureCommit.seed ∧
        (∀ i : Fin L, equal s.keysCommits[i].m
          (genKeys sha256 s.signatureCommit.m)[i].toList = .ok true) ∧
        st = (s, openedBuyer s b res) := by
  simp only [SingleSellInformationProtocol.open, bind_eq_ok, onSharedSignature_open_eq_ok, get_apply,
    lift_eq_ok, modify_apply]
  constructor
  · rintro ⟨_, _, ⟨res, hver, rfl⟩, _, _, hget, bits, _, ⟨hbits, rfl⟩, _, _, hkeys, _, _, hsig, _, _,
      hget', _, _, ⟨hder, rfl⟩, hset⟩
    cases hget
    obtain ⟨hcom, rfl⟩ := forM_open_eq_ok.1 hkeys
    obtain ⟨hsigcom, rfl⟩ := onSignatureCommit_open_eq_ok.1 hsig
    cases hget'
    cases hset
    refine ⟨res, hver, ⟨bits, hbits⟩, fun i => hcom i (List.mem_finRange i), hsigcom, ?_, rfl⟩
    intro i
    have h := verifyKeys_eq_ok.1 hder i
    rwa [openedKeys_m] at h
  · rintro ⟨res, hver, ⟨bits, hbits⟩, hcom, hsigcom, hder, rfl⟩
    refine ⟨(), _, ⟨res, hver, rfl⟩, _, _, rfl, bits, _, ⟨hbits, rfl⟩, (), _,
      forM_open_eq_ok.2 ⟨fun i _ => hcom i, rfl⟩, (), _,
      onSignatureCommit_open_eq_ok.2 ⟨hsigcom, rfl⟩, _, _, rfl, (), _, ⟨?_, rfl⟩, rfl⟩
    refine verifyKeys_eq_ok.2 fun i => ?_
    rw [openedKeys_m]
    exact hder i

/-- An opening ends verified exactly when every sub-opening accepts. -/
theorem open_verified_iff : (∃ st, SingleSellInformationProtocol.open ec sha256 (s, b) = .ok () st ∧
    st.2.openVerified = true) ↔ Accepts ec sha256 s b := by
  constructor
  · rintro ⟨st, hopen, hver⟩
    obtain ⟨res, hsig, htimed, hkeys, hcom, hder, rfl⟩ := open_eq_ok.1 hopen
    cases (hver : res = true)
    exact ⟨hsig, htimed, hkeys, hcom, hder⟩
  · rintro ⟨hsig, htimed, hkeys, hcom, hder⟩
    exact ⟨_, open_eq_ok.2 ⟨true, hsig, htimed, hkeys, hcom, hder, rfl⟩, rfl⟩

/-! ## The key share behind the time lock -/

/-- The opening of the instance returns with the buyer's verdict true. -/
def EndsVerified (ec : ECParameters Point) (sha256 : Sha256) (s : SingleSeller Point)
    (b : SingleBuyer Point) : Prop :=
  ∃ st, SingleSellInformationProtocol.open ec sha256 (s, b) = .ok () st ∧ st.2.openVerified = true

/-- The bits that the timed commitment opens to are a number from which the buyer
computes the payment key. -/
def RecoversKey (ec : ECParameters Point) (s : SingleSeller Point) (b : SingleBuyer Point) : Prop :=
  ∃ bits e, TimedCommitment.openCommitment s.timedCommitmentCommiter b.timedCommitmentReceiver =
      .ok bits ∧ TimedCommitment.BitUtils.bitsToInteger bits = .ok e ∧
    (e * b.sharedSignatureB.db % ec.n) • ec.G = b.sharedSignatureB.Q

/-- What the buyer's own `start_init` and `finish_init` make of its members. -/
structure HonestBuyer (ec : ECParameters Point) (b : SingleBuyer Point) : Prop where
  db : 1 ≤ b.sharedSignatureB.db ∧ b.sharedSignatureB.db ≤ ec.n - 1
  Q_eq : b.sharedSignatureB.Q = b.sharedSignatureB.db • b.sharedSignatureB.Qs

omit [DecidableEq Point] in
/-- An integer gives the payment key with the buyer's factor exactly when it is a
logarithm of the seller's half of the public key. -/
theorem smul_eq_publicKey_iff (hb : HonestBuyer ec b) (e : ℤ) :
    (e * b.sharedSignatureB.db % ec.n) • ec.G = b.sharedSignatureB.Q ↔
      e • ec.G = b.sharedSignatureB.Qs := by
  have : Fact ec.n.Prime := ⟨ec.n_prime⟩
  obtain ⟨k, hk⟩ := ec.exists_smul b.sharedSignatureB.Qs
  have hdb := SharedSignature.cast_ne_zero hb.db
  have hred : (e * b.sharedSignatureB.db % ec.n) • ec.G = (e * b.sharedSignatureB.db) • ec.G :=
    ec.smul_G_congr (ZMod.intCast_mod _ _)
  rw [hred, hb.Q_eq, hk, smul_smul, ec.smul_G_eq_iff, ec.smul_G_eq_iff]
  push_cast
  rw [mul_comm (e : ZMod ec.n)]
  exact mul_right_inj' hdb

/-- A committer whose opening is a given number: with the exponent one. -/
def openerOf (vp n : ℤ) : TimedCommitment.Commiter :=
  { p := 0, q := 0, n, phi := 2,
    com := { TimedCommitment.Commitment.new with h := vp, n, l := 1 },
    order := 0, commits := [], alpha := [] }

theorem openCommitment_openerOf (vp : ℤ) (r : TimedCommitment.Receiver) :
    TimedCommitment.openCommitment (openerOf vp r.com.n) r = r.open vp := by
  have hopen : (openerOf vp r.com.n).open = vp % r.com.n := by
    simp [openerOf, TimedCommitment.Commiter.open, TimedCommitment.Commitment.new, aExpBModC]
  have hgetG : TimedCommitment.getG r.com.n (vp % r.com.n) = TimedCommitment.getG r.com.n vp :=
    (Int.mod_modEq _ _).pow _
  unfold TimedCommitment.openCommitment
  rw [hopen, TimedCommitment.Receiver.open, hgetG,
    TimedCommitment.Receiver.open]

/-- For one seller and one buyer: the opening is refused, or the bits of the timed commitment are
a logarithm of `Qs`. -/
theorem recoversKey_of_ends_iff (hb : HonestBuyer ec b) :
    (EndsVerified ec sha256 s b → RecoversKey ec s b) ↔
      (Accepts ec sha256 s b → ∃ bits e, TimedCommitment.openCommitment s.timedCommitmentCommiter
          b.timedCommitmentReceiver = .ok bits ∧ TimedCommitment.BitUtils.bitsToInteger bits = .ok e ∧
        e • ec.G = b.sharedSignatureB.Qs) := by
  have hends : EndsVerified ec sha256 s b ↔ Accepts ec sha256 s b := open_verified_iff
  rw [hends]
  unfold RecoversKey
  simp only [smul_eq_publicKey_iff hb]

/-- **The key share is not checked.**  A seller that convinces this buyer lets it recover the
payment key from the timed commitment exactly when the bits it opens to are a logarithm of `Qs`.
And whatever seller convinces this buyer, it can recover the key, exactly when no seller convinces
it, or when every number that opens its stored commitment gives the bits of such a logarithm. -/
theorem recoversKey_iff (hb : HonestBuyer ec b) :
    (∀ s, (EndsVerified ec sha256 s b → RecoversKey ec s b) ↔
      (Accepts ec sha256 s b → ∃ bits e, TimedCommitment.openCommitment s.timedCommitmentCommiter
          b.timedCommitmentReceiver = .ok bits ∧ TimedCommitment.BitUtils.bitsToInteger bits = .ok e ∧
        e • ec.G = b.sharedSignatureB.Qs)) ∧
    ((∀ s, EndsVerified ec sha256 s b → RecoversKey ec s b) ↔
      (∀ s, ¬ Accepts ec sha256 s b) ∨
        ∀ vp bits, b.timedCommitmentReceiver.open vp = .ok bits →
          ∃ e, TimedCommitment.BitUtils.bitsToInteger bits = .ok e ∧
            e • ec.G = b.sharedSignatureB.Qs) := by
  refine ⟨fun s => recoversKey_of_ends_iff hb, ?_⟩
  constructor
  · intro hall
    by_cases hnone : ∀ s, ¬ Accepts ec sha256 s b
    · exact Or.inl hnone
    push Not at hnone
    obtain ⟨s, hs⟩ := hnone
    right
    intro vp bits hvp
    -- the same seller, with a committer that opens by `vp`
    have hopen := openCommitment_openerOf vp b.timedCommitmentReceiver
    have hs' : Accepts ec sha256 { s with
        timedCommitmentCommiter := openerOf vp b.timedCommitmentReceiver.com.n } b :=
      ⟨hs.signature, ⟨bits, hopen.trans hvp⟩, hs.keys, hs.signatureCommit, hs.derived⟩
    obtain ⟨bits', e, hbits', he, hQ⟩ := (recoversKey_of_ends_iff hb).1 (hall _) hs'
    have hbits : bits' = bits := by
      rw [hopen, hvp] at hbits'
      exact (Except.ok.inj hbits').symm
    subst hbits
    exact ⟨e, he, hQ⟩
  · rintro (hnone | hlog) s
    · exact fun hs => absurd (open_verified_iff.1 hs) (hnone s)
    · refine (recoversKey_of_ends_iff hb).2 fun hs => ?_
      obtain ⟨bits, hbits⟩ := hs.timed
      obtain ⟨e, he, hQ⟩ := hlog _ bits hbits
      exact ⟨bits, e, hbits, he, hQ⟩

/-! ## The signature behind the keys -/

/-- When the opening ends verified, the message that the signature commitment opened to
is the encoding of the signature that was verified. -/
def CommitsToSignature (ec : ECParameters Point) (sha256 : Sha256) (s : SingleSeller Point)
    (b : SingleBuyer Point) : Prop :=
  ∀ st, SingleSellInformationProtocol.open ec sha256 (s, b) = .ok () st →
    st.2.openVerified = true → st.2.signatureCommit.m = s.sharedSignatureS.getSignature

/-- The message is the seller's. -/
theorem commitsToSignature_of_accepts (hs : Accepts ec sha256 s b) :
    CommitsToSignature ec sha256 s b ↔
      s.signatureCommit.m = s.sharedSignatureS.getSignature := by
  obtain ⟨st, hopen, hver⟩ := open_verified_iff.2 hs
  constructor
  · intro h
    have hm := h st hopen hver
    obtain ⟨res, -, -, -, -, -, rfl⟩ := open_eq_ok.1 hopen
    exact hm
  · intro hm st' hopen' _
    obtain ⟨res, -, -, -, -, -, rfl⟩ := open_eq_ok.1 hopen'
    exact hm

/-- The seller with the other half of the same signature. -/
def negated (ec : ECParameters Point) (s : SingleSeller Point) : SingleSeller Point :=
  { s with sharedSignatureS := { s.sharedSignatureS with s := ec.n - s.sharedSignatureS.s } }

theorem accepts_negated (hs : Accepts ec sha256 s b) : Accepts ec sha256 (negated ec s) b :=
  ⟨SharedSignature.verify_neg hs.signature, hs.timed, hs.keys, hs.signatureCommit, hs.derived⟩

/-- **The committed signature is not checked.**  When the opening ends verified, the message
is the signature only if the seller had put it there; and a seller that convinces a buyer also
does with the other half of its signature, under the same commitment.  So whatever seller
convinces this buyer commits to the signature that is verified, exactly when none does. -/
theorem commitsToSignature_iff :
    (∀ s, CommitsToSignature ec sha256 s b ↔
      (Accepts ec sha256 s b → s.signatureCommit.m = s.sharedSignatureS.getSignature)) ∧
      ((∀ s, CommitsToSignature ec sha256 s b) ↔ ∀ s, ¬ Accepts ec sha256 s b) := by
  have hone : ∀ s, CommitsToSignature ec sha256 s b ↔
      (Accepts ec sha256 s b → s.signatureCommit.m = s.sharedSignatureS.getSignature) := by
    intro s
    by_cases hacc : Accepts ec sha256 s b
    · rw [commitsToSignature_of_accepts hacc, forall_prop_of_true hacc]
    · refine iff_of_true ?_ fun h => absurd h hacc
      intro st hopen hver
      exact absurd (open_verified_iff.1 ⟨st, hopen, hver⟩) hacc
  refine ⟨hone, ?_⟩
  constructor
  · intro hall s hacc
    have h1 := (hone s).1 (hall s) hacc
    have h2 := (hone _).1 (hall _) (accepts_negated hacc)
    have hsig : s.sharedSignatureS.getSignature = (negated ec s).sharedSignatureS.getSignature :=
      h1.symm.trans h2
    exact SharedSignature.encodeSignature_neg_ne hacc.signature hsig
  · intro hnone s
    exact (hone s).2 fun hacc => absurd hacc (hnone s)

/-! ## A deviating seller

In the group of order seven both key shares are one, and the signature is `(1, 1)`.  The
seller commits to some other share, and to keys derived from some message. -/

/-- The commitment to a byte, modulo fifteen and with the base one. -/
def deviatingCom (share : UInt8) : TimedCommitment.Commitment :=
  { K := 9, n := 15, h := 1, g := 1, u := 1, l := 8, W := List.replicate 10 1
    S := (TimedCommitment.maskBits 15 (TimedCommitment.byteBits share) 1).1 }

/-- The seller that commits to `share` and to keys derived from `m`. -/
def deviatingSeller (sha256 : Sha256) (share : UInt8) (m : Bytes) : SingleSeller (ZMod 7) :=
  let signer : SharedSignature.S (ZMod 7) := { SharedSignature.S.new 521 523 with
    data := List.replicate 32 0, ds := 1, Qs := 1, Qb := 1, Q := 1, r := 1, s := 1 }
  let commiter := { TimedCommitment.Commiter.ofPrimes 3 5 with com := deviatingCom share }
  { SingleSeller.new signer commiter [] with
    keysCommits := (genKeys sha256 m).map fun key => { ShaCommitment.Sender.new with m := key.toList }
    signatureCommit := { ShaCommitment.Sender.new with m } }

/-- The buyer that has received these commitments. -/
def deceivedBuyer (sha256 : Sha256) (share : UInt8) (m : Bytes) : SingleBuyer (ZMod 7) :=
  let seed := ShaCommitment.Sender.new.seed
  let signer : SharedSignature.B (ZMod 7) :=
    { SharedSignature.B.ofPaillier SharedSignature.Paillier.new with
      db := 1, Qs := 1, Qb := 1, Q := 1, data := List.replicate 32 0 }
  { SingleBuyer.new signer with
    timedCommitmentReceiver := { TimedCommitment.Receiver.new with com := deviatingCom share }
    keysCommits := (genKeys sha256 m).map fun key =>
      { ShaCommitment.Receiver.new with com := computeSha sha256 key.toList seed }
    signatureCommit := { ShaCommitment.Receiver.new with com := computeSha sha256 m seed } }

section
variable (sha256 : Sha256) (share : UInt8) (m : Bytes)

theorem equal_self (bs : Bytes) : equal bs bs = .ok true := by
  induction bs with
  | nil => rfl
  | cons a bs ih => rw [equal, if_pos rfl, ih]

theorem openCommitment_deviating : TimedCommitment.openCommitment
    (deviatingSeller sha256 share m).timedCommitmentCommiter
    (deceivedBuyer sha256 share m).timedCommitmentReceiver =
      .ok (TimedCommitment.byteBits share) := by
  have hopen : (deviatingSeller sha256 share m).timedCommitmentCommiter.open = 1 := by
    show aExpBModC 1 _ (3 * 5) = 1
    unfold aExpBModC
    rw [one_pow]
    rfl
  have hgetG : TimedCommitment.getG 15 1 = 1 := by
    rw [TimedCommitment.getG_eq, one_pow]
    rfl
  have hlen : (deviatingCom share).S.length = 8 := by
    simp [deviatingCom]
  unfold TimedCommitment.openCommitment
  rw [hopen, TimedCommitment.Receiver.open]
  show TimedCommitment.Receiver.decodeChecked _ (TimedCommitment.getG 15 1) = _
  rw [hgetG]
  have hn : (15 : ℤ) ≠ 0 := by decide
  refine TimedCommitment.Receiver.decodeChecked_eq_ok.2 ⟨hn, ?_, hlen.ge, ?_⟩
  · show (1 : ℤ) ^ _ % 15 = 1
    rw [one_pow]
    rfl
  · show TimedCommitment.maskBits 15 ((deviatingCom share).S.take 8) 1 = (_, 1)
    rw [List.take_of_length_le hlen.le, deviatingCom, TimedCommitment.maskBits_maskBits,
      TimedCommitment.maskBits_snd _ rfl, one_pow]
    rfl

theorem accepts_deviating : Accepts SharedSignature.order7 sha256
    (deviatingSeller sha256 share m) (deceivedBuyer sha256 share m) := by
  refine ⟨?_, ⟨_, openCommitment_deviating sha256 share m⟩, ?_, rfl, ?_⟩
  · show SharedSignature.verify SharedSignature.order7 1 (List.replicate 32 0) 1 1 = .ok true
    decide +kernel
  · intro i
    simp [deviatingSeller, deceivedBuyer]
  · intro i
    simpa [deviatingSeller] using equal_self _

theorem honest_deceivedBuyer : HonestBuyer SharedSignature.order7 (deceivedBuyer sha256 share m) :=
  ⟨⟨le_rfl, by change (1 : ℤ) ≤ 7 - 1; decide⟩, (one_smul ℤ (1 : ZMod 7)).symm⟩

/-- The buyer's commitment opens to the byte only, whoever opens it. -/
theorem open_deceivedBuyer {vp : ℤ} {bits : List Bool}
    (h : (deceivedBuyer sha256 share m).timedCommitmentReceiver.open vp = .ok bits) :
    bits = TimedCommitment.byteBits share :=
  TimedCommitment.eq_of_decodeChecked Nat.prime_three Nat.prime_five (by decide)
    (lt_of_lt_of_le (by decide : 3 < 2 ^ 2) (Nat.pow_le_pow_right (by decide) (by decide)))
    (lt_of_lt_of_le (by decide : 5 < 2 ^ 3) (Nat.pow_le_pow_right (by decide) (by decide)))
    rfl h (openCommitment_deviating sha256 share m)

end

/-- A buyer that has accepted a commitment to two, where the share is one: whatever the hash
is, the opening ends verified and the key cannot be recovered. -/
theorem not_recoversKey_deviating : ¬ ∃ sha256 : Sha256,
    EndsVerified SharedSignature.order7 sha256 (deviatingSeller sha256 2 []) (deceivedBuyer sha256 2 []) →
      RecoversKey SharedSignature.order7 (deviatingSeller sha256 2 []) (deceivedBuyer sha256 2 []) := by
  rintro ⟨sha256, h⟩
  obtain ⟨bits, e, hbits, he, hQ⟩ := h (open_verified_iff.2 (accepts_deviating sha256 2 []))
  rw [openCommitment_deviating] at hbits
  cases hbits
  have hint : TimedCommitment.BitUtils.bitsToInteger (TimedCommitment.byteBits 2) = .ok 2 := by
    decide
  rw [hint] at he
  cases he
  change ((2 * 1 % 7 : ℤ)) • (1 : ZMod 7) = 1 at hQ
  exact absurd hQ (by decide)

/-- A buyer whose keys are derived from the empty message, where the signature is `(1, 1)`. -/
theorem not_commitsToSignature_deviating : ¬ ∃ sha256 : Sha256,
    CommitsToSignature SharedSignature.order7 sha256 (deviatingSeller sha256 1 [])
      (deceivedBuyer sha256 1 []) := by
  rintro ⟨sha256, hcommits⟩
  have hm := (commitsToSignature_of_accepts (accepts_deviating sha256 1 [])).1 hcommits
  change [] = SharedSignature.encodeSignature 1 1 at hm
  exact absurd hm (by decide)

/-- `recoversKey_iff` at a buyer whose commitment is to the share: no seller deceives it. -/
theorem recoversKey_share_one : ¬ ∃ (sha256 : Sha256) (s : SingleSeller (ZMod 7)),
    EndsVerified SharedSignature.order7 sha256 s (deceivedBuyer sha256 1 []) ∧
      ¬ RecoversKey SharedSignature.order7 s (deceivedBuyer sha256 1 []) := by
  rintro ⟨sha256, s, hs, hno⟩
  refine hno ((recoversKey_iff (honest_deceivedBuyer sha256 1 [])).2.2 (Or.inr ?_) s hs)
  intro vp bits hbits
  rw [open_deceivedBuyer sha256 1 [] hbits]
  exact ⟨1, by decide, one_smul ℤ (1 : ZMod 7)⟩

end SellingInformation.Main
