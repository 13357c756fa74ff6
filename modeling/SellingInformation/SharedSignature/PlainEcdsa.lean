import SellingInformation.SharedSignature.Ecdsa

/-!
# Signing together is signing

`ecdsa.cpp` signs with a key that one party holds, with no encryption and no peer.
It is what the protocol of `S` and `B` has to amount to.

* `main_report` — what that program reports, for every pair of draws.  Its own check
  and the one of Crypto++ disagree exactly when the abscissa of the nonce is not below
  the order;
* `Agrees` — which result of `exec` belongs to which report;
* `attempts_agree` — every attempt of `S` and `B` ends as the plain program does for the
  product of the key shares and the product of the nonces, however the attempts
  before it ended.
-/

namespace SellingInformation.SharedSignature

open CryptoPP Common Fallible

/-! ## The plain program -/

/-- `m_to_int`: the leftmost bytes of the hash of a message. -/
def mToInt (sha256 : Sha256) (m : Bytes) (retByteCount : ℕ) : ℤ :=
  ofBytes ((sha256 m).toList.take retByteCount)

/-- What `main` reports: the guard that stopped it, or its own check of the signature and
the one of Crypto++. -/
inductive Report where
  | identity
  | outside
  | incorrectR
  | incorrectS
  | checked (ok verified : Bool)
  deriving DecidableEq, Repr

namespace Plain

section
variable {Point : Type} [AddCommGroup Point] (ec : ECParameters Point)

/-- The part `sign` of `main`: both halves of the signature of `z`. -/
def signature (da k z : ℤ) : ℤ × ℤ :=
  let P1 := k • ec.G
  let r : ℤ := ec.x P1 % ec.n
  let s := inverseMod k ec.n * (z + r * da) % ec.n
  (r, s)

/-- `main`, with the key and the nonce it draws. -/
def main [DecidableEq Point] (sha256 : Sha256) (verifyMessage : Point → Bytes → Bytes → Bool)
    (message : Bytes) (da k : ℤ) : Report :=
  let Qa := da • ec.G
  let z := mToInt sha256 message (byteCount ec.n)
  let (r, s) := signature ec da k z
  if Qa = 0 then .identity
  else if ¬ (ec.n : ℤ) • Qa = 0 then .outside
  else if r ≤ 0 ∨ r ≥ ec.n then .incorrectR
  else if s ≤ 0 ∨ s ≥ ec.n then .incorrectS
  else
    let w := inverseMod s ec.n
    let u1 := z * w % ec.n
    let u2 := r * w % ec.n
    let P2 := u1 • ec.G + u2 • Qa
    .checked (ec.x P2 = r) (verifyMessage Qa message (encodeSignature r s))

/-- `ECDSA<ECP, SHA256>::Verifier` accepts the encodings of valid signatures. -/
def VerifierLawful (sha256 : Sha256) (verifyMessage : Point → Bytes → Bytes → Bool) : Prop :=
  ∀ (Q : Point) (m : Bytes) (r s : ℤ), 0 < r ∧ r < ec.n → 0 < s ∧ s < ec.n →
    (verifyMessage Q m (encodeSignature r s) = true ↔
      ValidSignature ec Q (signedNumber ec (sha256 m)) r s)

end

/-! ## What it reports -/

section
variable {Point : Type} [AddCommGroup Point] {ec : ECParameters Point} {da k z : ℤ}

theorem signature_fst_range (h : (signature ec da k z).1 ≠ 0) :
    0 < (signature ec da k z).1 ∧ (signature ec da k z).1 < ec.n := by
  simp only [signature] at h ⊢
  exact emod_range h

theorem signature_snd_range (h : (signature ec da k z).2 ≠ 0) :
    0 < (signature ec da k z).2 ∧ (signature ec da k z).2 < ec.n := by
  simp only [signature] at h ⊢
  exact emod_range h

/-- A nonce that the order divides makes the first half zero. -/
theorem nonce_ne_zero (hr : (signature ec da k z).1 ≠ 0) : (k : ZMod ec.n) ≠ 0 := by
  intro hk
  have hK := (ec.smul_G_eq_zero_iff k).2 ((ZMod.intCast_zmod_eq_zero_iff_dvd _ _).1 hk)
  refine hr ?_
  simp [signature, hK, ec.x_zero]

theorem cast_signature_snd : ((signature ec da k z).2 : ZMod ec.n) =
    (k : ZMod ec.n)⁻¹ * (z + (signature ec da k z).1 * da) := by
  simp only [signature]
  rw [ZMod.intCast_mod]
  push_cast [cast_inverseMod_prime, ZMod.intCast_mod]
  rfl

/-- Otherwise the second half is zero when the number that is divided by the nonce is. -/
theorem signature_snd_eq_zero_iff (hr : (signature ec da k z).1 ≠ 0) :
    (signature ec da k z).2 = 0 ↔ (z + (signature ec da k z).1 * da) % ec.n = 0 := by
  have : Fact ec.n.Prime := ⟨ec.n_prime⟩
  have hs : (signature ec da k z).2 = 0 ↔ ((signature ec da k z).2 : ZMod ec.n) = 0 := by
    rw [ZMod.intCast_zmod_eq_zero_iff_dvd, Int.dvd_iff_emod_eq_zero, signature,
      Int.emod_emod_of_dvd _ dvd_rfl]
  have hsum : ((z : ZMod ec.n) + (signature ec da k z).1 * da) = 0 ↔
      (z + (signature ec da k z).1 * da) % ec.n = 0 := by
    have hcast := ZMod.intCast_zmod_eq_zero_iff_dvd (z + (signature ec da k z).1 * da) ec.n
    push_cast at hcast
    rw [hcast, Int.dvd_iff_emod_eq_zero]
  rw [hs, cast_signature_snd, mul_eq_zero, or_iff_right (inv_ne_zero (nonce_ne_zero hr)), hsum]

/-- The deciding point of the signature is the point of the nonce. -/
theorem signaturePoint_signature (hr : (signature ec da k z).1 ≠ 0)
    (hs : (signature ec da k z).2 ≠ 0) {w : ℤ}
    (hw : (w : ZMod ec.n) = ((inverseMod (signature ec da k z).2 ec.n : ℤ) : ZMod ec.n)) :
    (z * w) • ec.G + ((signature ec da k z).1 * w) • (da • ec.G) = k • ec.G := by
  have : Fact ec.n.Prime := ⟨ec.n_prime⟩
  have hk := nonce_ne_zero hr
  have hsum : ((z : ZMod ec.n) + (signature ec da k z).1 * da) ≠ 0 := by
    intro h0
    refine cast_ne_zero (k := (signature ec da k z).2) ?_ ?_ (n := ec.n)
    · have := signature_snd_range hs
      omega
    · rw [cast_signature_snd, h0, mul_zero]
  rw [smul_smul, ← add_smul]
  apply ec.smul_G_congr
  push_cast [hw, cast_inverseMod_prime, cast_signature_snd]
  rw [mul_inv, inv_inv]
  field_simp

/-- The abscissa of the nonce is the first half when it is below the order. -/
theorem x_eq_signature_fst_iff :
    (ec.x (k • ec.G) : ℤ) = (signature ec da k z).1 ↔ ec.x (k • ec.G) < ec.n := by
  simp only [signature]
  have hlt := Int.emod_lt_of_pos (ec.x (k • ec.G) : ℤ) (n_pos ec)
  constructor
  · intro h
    omega
  · intro h
    rw [Int.emod_eq_of_lt (by omega) (by omega)]

/-- What is made this way is valid, also when the abscissa is not below the order. -/
theorem validSignature_signature (hda : ¬ (ec.n : ℤ) ∣ da) (hr : (signature ec da k z).1 ≠ 0)
    (hs : (signature ec da k z).2 ≠ 0) :
    ValidSignature ec (da • ec.G) z (signature ec da k z).1 (signature ec da k z).2 := by
  obtain ⟨hr0, hrn⟩ := signature_fst_range hr
  obtain ⟨hs0, hsn⟩ := signature_snd_range hs
  obtain ⟨w, hw⟩ := exists_inverse ⟨hs0, hsn⟩
  have hpoint : signaturePoint ec (da • ec.G) z (signature ec da k z).1 w = k • ec.G :=
    signaturePoint_signature hr hs (cast_inverse hw)
  refine ⟨mt (ec.smul_G_eq_zero_iff da).1 hda, n_smul_publicKey da, by omega, by omega, w, hw,
    ?_, ?_⟩
  · rw [hpoint]
    intro h0
    refine hr ?_
    simp [signature, h0, ec.x_zero]
  · rw [hpoint]
    exact (Int.mod_modEq _ _).symm

variable [DecidableEq Point] {sha256 : Sha256} {verifyMessage : Point → Bytes → Bytes → Bool}

/-- **The plain program.**  It stops at a guard for a key or a nonce that is a multiple of the
order and for a number that is one; Crypto++ accepts all other signatures, and the check of the
program only those with an abscissa below the order. -/
theorem main_report (hlawful : VerifierLawful ec sha256 verifyMessage) (message : Bytes)
    (da k : ℤ) : main ec sha256 verifyMessage message da k =
      if (ec.n : ℤ) ∣ da then .identity
      else if (ec.x (k • ec.G) % ec.n : ℤ) = 0 then .incorrectR
      else if (mToInt sha256 message (byteCount ec.n) + (ec.x (k • ec.G) % ec.n : ℤ) * da) %
        ec.n = 0 then .incorrectS
      else .checked (ec.x (k • ec.G) < ec.n) true := by
  generalize hz : mToInt sha256 message (byteCount ec.n) = z
  have hfst : (ec.x (k • ec.G) % ec.n : ℤ) = (signature ec da k z).1 := rfl
  rw [hfst]
  simp only [main, hz, ec.smul_G_eq_zero_iff da, n_smul_publicKey da]
  by_cases hda : (ec.n : ℤ) ∣ da
  · rw [if_pos hda, if_pos hda]
  rw [if_neg hda, if_neg hda, if_neg (by simp)]
  by_cases hr : (signature ec da k z).1 = 0
  · rw [if_pos (Or.inl hr.le), if_pos hr]
  have hr' := signature_fst_range hr
  rw [if_neg (by omega), if_neg hr]
  by_cases hs : (signature ec da k z).2 = 0
  · rw [if_pos (Or.inl hs.le), if_pos ((signature_snd_eq_zero_iff hr).1 hs)]
  have hs' := signature_snd_range hs
  rw [if_neg (by omega), if_neg (mt (signature_snd_eq_zero_iff hr).2 hs)]
  -- the deciding point is the nonce
  have hpoint := signaturePoint_signature hr hs rfl
  have hP2 : (z * inverseMod (signature ec da k z).2 ec.n % ec.n) • ec.G +
      ((signature ec da k z).1 * inverseMod (signature ec da k z).2 ec.n % ec.n) • da • ec.G =
        k • ec.G := by
    rw [← hpoint, smul_smul, smul_smul, ← add_smul, ← add_smul]
    apply ec.smul_G_congr
    push_cast [ZMod.intCast_mod]
    rfl
  have hnum : signedNumber ec (sha256 message) = z := hz
  have hvalid := (hlawful (da • ec.G) message _ _ hr' hs').2
    (by rw [hnum]; exact validSignature_signature hda hr hs)
  rw [hP2, hvalid]
  exact congrArg (Report.checked · true) (decide_eq_decide.2 x_eq_signature_fst_iff)

/-! ### A verifier -/

/-- A verifier that reduces the abscissa, as the standard does. -/
def standardVerifier (ec : ECParameters Point) (sha256 : Sha256) (Q : Point) (m sig : Bytes) : Bool :=
  let r := ofBytes (sig.take 32)
  let s := ofBytes (sig.drop 32)
  let P := signaturePoint ec Q (signedNumber ec (sha256 m)) r (inverseMod s ec.n)
  Q ≠ 0 ∧ (ec.n : ℤ) • Q = 0 ∧ 0 < r ∧ r < ec.n ∧ 0 < s ∧ s < ec.n ∧ P ≠ 0 ∧
    (ec.x P : ℤ) % ec.n = r

theorem standardVerifier_lawful (ec : ECParameters Point) (sha256 : Sha256) :
    VerifierLawful ec sha256 (standardVerifier ec sha256) := by
  intro Q m r s hr hs
  obtain ⟨w, hw⟩ := exists_inverse hs
  have hr32 : ofBytes ((encodeSignature r s).take 32) = r := by
    rw [encodeSignature, List.take_left' (length_encode _ _), ofBytes_encode_of_lt ec hr.1.le hr.2]
  have hs32 : ofBytes ((encodeSignature r s).drop 32) = s := by
    rw [encodeSignature, List.drop_left' (length_encode _ _), ofBytes_encode_of_lt ec hs.1.le hs.2]
  have hP : signaturePoint ec Q (signedNumber ec (sha256 m)) r (inverseMod s ec.n) =
      signaturePoint ec Q (signedNumber ec (sha256 m)) r w :=
    (signaturePoint_congr (cast_inverse hw)).symm
  have hmod : r % ec.n = r := Int.emod_eq_of_lt hr.1.le hr.2
  simp only [standardVerifier, hr32, hs32, hP, decide_eq_true_eq]
  constructor
  · rintro ⟨hQ, hnQ, -, -, -, -, hne, hx⟩
    exact ⟨hQ, hnQ, by omega, by omega, w, hw, hne, hx.trans hmod.symm⟩
  · rintro ⟨hQ, hnQ, -, -, w', hw', hne, hx⟩
    rw [signaturePoint_unique hw' hw] at hne hx
    exact ⟨hQ, hnQ, hr.1, hr.2, hs.1, hs.2, hne, hx.eq.trans hmod⟩

/-- `main_report` on the curve over the field with thirteen elements, where the nonce two has
the abscissa eight: the two checks disagree. -/
theorem main_report_curve13 :
    main curve13 (fun _ => Vector.replicate 32 0)
      (standardVerifier curve13 fun _ => Vector.replicate 32 0) [] 3 2 = .checked false true := by
  rw [main_report (standardVerifier_lawful curve13 _) [] 3 2]
  decide

end

end Plain

/-! ## Two parties -/

section
variable {Point : Type} [AddCommGroup Point] [DecidableEq Point]

/-- Which result of `exec` belongs to which report of the plain program, where `half` is the
signature that was made. -/
inductive Agrees (ec : ECParameters Point) (half : ℤ × ℤ) :
    Report → EStateM.Result Exn (S Point × B Point) Unit → Prop
  | incorrectR (st : S Point × B Point) :
    Agrees ec half .incorrectR (.error (.protocolException "r == 0") st)
  | incorrectS (st : S Point × B Point) :
    Agrees ec half .incorrectS (.error (.protocolException "ERR s==0 restart protocol") st)
  | failed (verified : Bool) (st : S Point × B Point) :
    Agrees ec half (.checked false verified)
      (.error (.protocolException "Invalid signature generated!") st)
  | signed (verified : Bool) (st : S Point × B Point) (r_eq : st.1.r = half.1)
      (s_eq : st.1.s = min half.2 (ec.n - half.2)) :
    Agrees ec half (.checked true verified) (.ok () st)

/-- Attempts one after the other.  One that throws leaves the parties as they were when it did. -/
def attempts (ec : ECParameters Point) (calls : List Call) (st : S Point × B Point) :
    S Point × B Point :=
  calls.foldl (fun st c => final (sign ec c st)) st

variable {ec : ECParameters Point} {p q : ℕ} {ds db : ℤ} {c : Call}

omit [DecidableEq Point] in
theorem smul_emod (k : ℤ) : (k % ec.n) • ec.G = k • ec.G := by
  apply ec.smul_G_congr
  rw [ZMod.intCast_mod]

omit [DecidableEq Point] in
/-- The plain signature for the products is the one the parties make. -/
theorem signature_products : Plain.signature ec (ds * db % ec.n) (c.ρ.ks * c.ρ.kb % ec.n) (c.z ec) =
    (c.r ec, c.s0 ec ds db) := by
  have hr : (ec.x ((c.ρ.ks * c.ρ.kb % ec.n) • ec.G) % ec.n : ℤ) = c.r ec := by
    rw [smul_emod, Call.r, Call.K]
  have hs : (Plain.signature ec (ds * db % ec.n) (c.ρ.ks * c.ρ.kb % ec.n) (c.z ec)).2 =
      c.s0 ec ds db := by
    simp only [Plain.signature, hr, Call.s0]
    apply (ZMod.intCast_eq_intCast_iff _ _ ec.n).1
    push_cast [cast_inverseMod_prime, ZMod.intCast_mod]
    ring
  exact Prod.ext hr hs

omit [DecidableEq Point] in
/-- Both programs divide the same number by the nonce. -/
theorem sum_products : (c.z ec + c.r ec * (ds * db % ec.n)) % ec.n =
    (c.z ec + c.r ec * ds * db) % ec.n := by
  have hmod : c.z ec + c.r ec * (ds * db % ec.n) ≡ c.z ec + c.r ec * ds * db [ZMOD ec.n] := by
    rw [mul_assoc]
    exact ((Int.mod_modEq _ _).mul_left _).add_left _
  exact hmod

omit [DecidableEq Point] in
/-- The parties stay ready, whatever the attempt comes to. -/
theorem ready_of_sides {st st' : S Point × B Point} (hst : Ready ec p q ds db st)
    (hs : st'.1.ds = st.1.ds ∧ st'.1.Q = st.1.Q ∧ st'.1.paillier = st.1.paillier)
    (hb : st'.2.db = st.2.db ∧ st'.2.Q = st.2.Q ∧ st'.2.paillier = st.2.paillier) :
    Ready ec p q ds db st' := by
  obtain ⟨hds, hQs, hpail⟩ := hs
  obtain ⟨hdb, hQb, hpail'⟩ := hb
  exact
    { ds_eq := hds.trans hst.ds_eq
      db_eq := hdb.trans hst.db_eq
      Qs_eq := hQs.trans hst.Qs_eq
      Qb_eq := hQb.trans hst.Qb_eq
      owner := hpail.trans hst.owner
      client := hpail' ▸ hst.client }

/-- **One attempt.**  It ends as the plain program does, and the parties are ready again. -/
theorem sign_agrees {sha256 : Sha256} {verifyMessage : Point → Bytes → Bytes → Bool}
    (hlawful : Plain.VerifierLawful ec sha256 verifyMessage)
    (hk : KeyPrimes (S.paillierBits ec) p q) (hds : 1 ≤ ds ∧ ds ≤ ec.n - 1)
    (hdb : 1 ≤ db ∧ db ≤ ec.n - 1) (h : c.Drawn ec (p * q)) (message : Bytes)
    (hdata : sha256 message = c.data) {st : S Point × B Point} (hst : Ready ec p q ds db st) :
    Ready ec p q ds db (final (sign ec c st)) ∧
      Agrees ec (Plain.signature ec (ds * db % ec.n) (c.ρ.ks * c.ρ.kb % ec.n) (c.z ec))
        (Plain.main ec sha256 verifyMessage message (ds * db % ec.n) (c.ρ.ks * c.ρ.kb % ec.n))
        (sign ec c st) := by
  obtain ⟨s, b⟩ := st
  have hkey : ¬ (ec.n : ℤ) ∣ ds * db % ec.n := by
    rw [← ec.smul_G_eq_zero_iff, smul_emod]
    exact publicKey_ne_zero hds hdb
  have hz : mToInt sha256 message (byteCount ec.n) = c.z ec := by rw [mToInt, hdata]; rfl
  have hK : (c.ρ.ks * c.ρ.kb % ec.n) • ec.G = c.K ec := smul_emod _
  have hr' : (ec.x (c.K ec) % ec.n : ℤ) = c.r ec := rfl
  rw [Plain.main_report hlawful, if_neg hkey, hz, hK, hr', sum_products, signature_products]
  by_cases hr : c.r ec = 0
  · obtain ⟨cs, hstart, -⟩ := startSig_ready hk h hds hst
    have hexec := exec_of_error (b := b.setData c.data.toList) rfl hstart
      (contSig_throws hr (b.setData c.data.toList) cs c.data.toList)
    have hsign : sign ec c (s, b) = _ := hexec
    rw [if_pos hr, hsign]
    exact ⟨ready_of_sides hst ⟨rfl, rfl, rfl⟩ ⟨rfl, rfl, rfl⟩, Agrees.incorrectR _⟩
  rw [if_neg hr]
  obtain ⟨cs, cb, hdec, hsign⟩ := sign_eq_finishSig hk h hr hds hst
  rw [hsign, final_onFst]
  by_cases h0 : c.s0 ec ds db = 0
  · have hfinish := finishSig_throws (s := { s.setData c.data.toList with
      ks := c.ρ.ks, Ks := c.ρ.ks • ec.G, cs }) rfl hdec h0
    rw [if_pos ((s0_eq_zero_iff h).1 h0), onFst_of_error hfinish, hfinish]
    exact ⟨ready_of_sides hst ⟨rfl, rfl, rfl⟩ ⟨rfl, rfl, rfl⟩, Agrees.incorrectS _⟩
  rw [if_neg (mt (s0_eq_zero_iff h).2 h0)]
  have hver := verify_halves h hds hdb hr h0 (min_choice (c.s0 ec ds db) (ec.n - c.s0 ec ds db))
  rw [← hst.Qs_eq] at hver
  have hfinish := finishSig_apply (s := { s.setData c.data.toList with
    ks := c.ρ.ks, Ks := c.ρ.ks • ec.G, cs }) rfl rfl hdec h0 hver
  by_cases hx : ec.x (c.K ec) < ec.n
  · rw [throwIf_of_not (by simpa using hx)] at hfinish
    rw [onFst_of_ok hfinish, hfinish, decide_eq_true hx]
    exact ⟨ready_of_sides hst ⟨rfl, rfl, rfl⟩ ⟨rfl, rfl, rfl⟩, Agrees.signed _ _ rfl rfl⟩
  · rw [throwIf_of (by simpa using hx)] at hfinish
    rw [onFst_of_error hfinish, hfinish, decide_eq_false hx]
    exact ⟨ready_of_sides hst ⟨rfl, rfl, rfl⟩ ⟨rfl, rfl, rfl⟩, Agrees.failed _ _⟩

/-- Any number of attempts leaves the parties ready. -/
theorem ready_attempts (hk : KeyPrimes (S.paillierBits ec) p q) (hds : 1 ≤ ds ∧ ds ≤ ec.n - 1)
    (hdb : 1 ≤ db ∧ db ≤ ec.n - 1) {calls : List Call} (hcalls : ∀ c ∈ calls, c.Drawn ec (p * q))
    {st : S Point × B Point} (hst : Ready ec p q ds db st) :
    Ready ec p q ds db (attempts ec calls st) := by
  induction calls generalizing st with
  | nil => exact hst
  | cons c calls ih =>
    -- any message with the hash of the call will do
    have hstep := (sign_agrees (Plain.standardVerifier_lawful ec fun _ => c.data) hk hds hdb
      (hcalls c List.mem_cons_self) [] rfl hst).1
    exact ih (fun d hd => hcalls d (List.mem_cons_of_mem _ hd)) hstep

/-- **Signing together is signing.**  Fresh parties, after any number of attempts that returned
or threw, end the next attempt as the plain program does for the product of their key shares
and the product of their nonces: with its signature, in the lower half, when its own check
passes, and otherwise with the exception that belongs to the guard. -/
theorem attempts_agree {sha256 : Sha256} {verifyMessage : Point → Bytes → Bytes → Bool}
    (hlawful : Plain.VerifierLawful ec sha256 verifyMessage)
    (hk : KeyPrimes (S.paillierBits ec) p q) (hds : 1 ≤ ds ∧ ds ≤ ec.n - 1)
    (hdb : 1 ≤ db ∧ db ≤ ec.n - 1) {calls : List Call}
    (hcalls : ∀ c ∈ calls, c.Drawn ec (p * q)) :
    ∃ fresh st, parties ec p q = .ok fresh ∧ init ec ds db fresh = .ok () st ∧
      ∀ pre c post, calls = pre ++ c :: post → ∀ message, sha256 message = c.data →
        Agrees ec (Plain.signature ec (ds * db % ec.n) (c.ρ.ks * c.ρ.kb % ec.n) (c.z ec))
          (Plain.main ec sha256 verifyMessage message (ds * db % ec.n) (c.ρ.ks * c.ρ.kb % ec.n))
          (sign ec c (attempts ec pre st)) := by
  obtain ⟨st, hinit, hst⟩ := init_ok ec p q ds db
  refine ⟨_, st, parties_ok hk, hinit, ?_⟩
  intro pre c post hsplit message hdata
  subst hsplit
  have hpre := ready_attempts hk hds hdb (fun d hd => hcalls d (List.mem_append_left _ hd)) hst
  exact (sign_agrees hlawful hk hds hdb (hcalls c (by simp)) message hdata hpre).2

end

/-- A call on the curve over the field with thirteen elements whose common nonce has the
abscissa eight. -/
def largeCall : Call :=
  { data := Vector.replicate 32 0
    ρ := { ks := 2, kb := 1, u := 5, encDs := 1, encC1 := 1, encU := 1 } }

theorem drawn_largeCall : largeCall.Drawn curve13 (521 * 523) :=
  { ks := by decide, kb := by decide, u := by decide, encDs := isCoprime_one_left,
    encC1 := isCoprime_one_left, encU := isCoprime_one_left }

theorem keyPrimes_curve13 : KeyPrimes (S.paillierBits curve13) 521 523 := keyPrimes_order7

/-- `attempts_agree` for two such calls on that curve. -/
theorem attempts_agree_curve13 : ∃ fresh st, parties curve13 521 523 = .ok fresh ∧
    init curve13 2 3 fresh = .ok () st ∧
      ∀ pre c post, [largeCall, largeCall] = pre ++ c :: post → ∀ message,
        Vector.replicate 32 0 = c.data →
          Agrees curve13 (Plain.signature curve13 (2 * 3 % 7) (c.ρ.ks * c.ρ.kb % 7) (c.z curve13))
            (Plain.main curve13 (fun _ => Vector.replicate 32 0)
              (Plain.standardVerifier curve13 fun _ => Vector.replicate 32 0) message (2 * 3 % 7)
              (c.ρ.ks * c.ρ.kb % 7))
            (sign curve13 c (attempts curve13 pre st)) :=
  attempts_agree (Plain.standardVerifier_lawful curve13 _) keyPrimes_curve13 (by decide) (by decide)
    (by simpa using drawn_largeCall)

end SellingInformation.SharedSignature
