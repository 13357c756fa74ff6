import SellingInformation.SharedSignature.Signing

/-!
# Which signatures `verify` accepts

`verify` compares the abscissa of the deciding point with `r` as it is, while `B`
reduces the abscissa modulo the order when it makes `r`.  The abscissa lives modulo
the prime of the field, which exceeds the order.

* `ValidSignature` — the definition of a valid signature, with the abscissa reduced;
* `verify_eq_true_iff_point` — what `verify` accepts, in terms of the deciding point;
* `verifyExact_iff` — `verify` is right about all signatures except the valid ones
  whose deciding point has an abscissa from the order on.
-/

namespace SellingInformation.SharedSignature

open CryptoPP Common Fallible

section
variable {Point : Type} [AddCommGroup Point]

/-- The point that decides about a signature, where `w` is an inverse of `s`. -/
def signaturePoint (ec : ECParameters Point) (Q : Point) (z r w : ℤ) : Point :=
  (z * w) • ec.G + (r * w) • Q

/-- `(r, s)` is a signature of the number `z` under the public key `Q`. -/
structure ValidSignature (ec : ECParameters Point) (Q : Point) (z r s : ℤ) : Prop where
  Q_ne : Q ≠ 0
  n_smul : (ec.n : ℤ) • Q = 0
  r_range : 1 ≤ r ∧ r ≤ ec.n - 1
  s_range : 1 ≤ s ∧ s ≤ ec.n - 1
  point : ∃ w, s * w ≡ 1 [ZMOD ec.n] ∧ signaturePoint ec Q z r w ≠ 0 ∧
    (ec.x (signaturePoint ec Q z r w) : ℤ) ≡ r [ZMOD ec.n]

/-- The abscissa of the deciding point is at least the order. -/
def LargeAbscissa (ec : ECParameters Point) (Q : Point) (z r s : ℤ) : Prop :=
  ∃ w, s * w ≡ 1 [ZMOD ec.n] ∧ ec.n ≤ ec.x (signaturePoint ec Q z r w)

/-- The number that is signed: the leftmost bytes of the hash. -/
def signedNumber (ec : ECParameters Point) (hash : Bytes32) : ℤ :=
  ofBytes (hash.toList.take (byteCount ec.n))

/-- `verify` accepts the signature exactly when it is valid. -/
def VerifyExact [DecidableEq Point] (ec : ECParameters Point) (Q : Point) (hash : Bytes32)
    (r s : ℤ) : Prop :=
  verify ec Q hash.toList r s = .ok true ↔ ValidSignature ec Q (signedNumber ec hash) r s

variable {ec : ECParameters Point} {Q : Point} {z r s w w' : ℤ}

/-- Any inverse of `s` gives the same point. -/
theorem signaturePoint_congr (hw : (w : ZMod ec.n) = w') :
    signaturePoint ec Q z r w = signaturePoint ec Q z r w' := by
  obtain ⟨k, rfl⟩ := ec.exists_smul Q
  unfold signaturePoint
  rw [smul_smul, smul_smul, ← add_smul, ← add_smul]
  apply ec.smul_G_congr
  push_cast
  rw [hw]

theorem cast_inverse (hw : s * w ≡ 1 [ZMOD ec.n]) :
    (w : ZMod ec.n) = ((inverseMod s ec.n : ℤ) : ZMod ec.n) := by
  have : Fact ec.n.Prime := ⟨ec.n_prime⟩
  have hmul := (ZMod.intCast_eq_intCast_iff _ _ ec.n).2 hw
  push_cast at hmul
  rw [cast_inverseMod_prime]
  exact (inv_eq_of_mul_eq_one_right hmul).symm

/-- So it does not matter which inverse is named. -/
theorem signaturePoint_unique (hw : s * w ≡ 1 [ZMOD ec.n]) (hw' : s * w' ≡ 1 [ZMOD ec.n]) :
    signaturePoint ec Q z r w = signaturePoint ec Q z r w' :=
  signaturePoint_congr ((cast_inverse hw).trans (cast_inverse hw').symm)

/-- A number between zero and the order has an inverse. -/
theorem exists_inverse (hs : 0 < s ∧ s < ec.n) : ∃ w, s * w ≡ 1 [ZMOD ec.n] := by
  have : Fact ec.n.Prime := ⟨ec.n_prime⟩
  have hne : (s : ZMod ec.n) ≠ 0 := cast_ne_zero ⟨hs.1, by omega⟩
  refine ⟨inverseMod s ec.n, (ZMod.intCast_eq_intCast_iff _ _ ec.n).1 ?_⟩
  push_cast [cast_inverseMod_prime]
  exact mul_inv_cancel₀ hne

variable [DecidableEq Point] {hash : Bytes32}

/-- What `verify` accepts: the abscissa must be `r` itself. -/
theorem verify_eq_true_iff_point (hw : s * w ≡ 1 [ZMOD ec.n]) :
    verify ec Q hash.toList r s = .ok true ↔ Q ≠ 0 ∧ (ec.n : ℤ) • Q = 0 ∧
      (0 < r ∧ r < ec.n) ∧ (0 < s ∧ s < ec.n) ∧
      (ec.x (signaturePoint ec Q (signedNumber ec hash) r w) : ℤ) = r := by
  have hpoint : aTimesBModC (signedNumber ec hash) (inverseMod s ec.n) ec.n • ec.G +
      aTimesBModC r (inverseMod s ec.n) ec.n • Q =
        signaturePoint ec Q (signedNumber ec hash) r w := by
    obtain ⟨k, rfl⟩ := ec.exists_smul Q
    rw [verifyPoint_eq, signaturePoint, smul_smul, ← add_smul]
    apply ec.smul_G_congr
    push_cast
    rw [cast_inverse hw]
    ring
  rw [verify_eq_true_iff]
  simp only [hashMToInt_toList hash ec.byteCount_n, Except.ok.injEq, exists_eq_left']
  rw [← hpoint]
  rfl

/-- `verify` refuses the valid signatures with a large abscissa, and is right about all
others. -/
theorem verifyExact_iff (ec : ECParameters Point) (Q : Point) (hash : Bytes32) (r s : ℤ) :
    VerifyExact ec Q hash r s ↔
      ¬ (ValidSignature ec Q (signedNumber ec hash) r s ∧
        LargeAbscissa ec Q (signedNumber ec hash) r s) := by
  constructor
  · rintro hexact ⟨hvalid, w, hw, hlarge⟩
    obtain ⟨-, -, hr, -, hx⟩ := (verify_eq_true_iff_point hw).1 (hexact.2 hvalid)
    omega
  · intro hsmall
    constructor
    · intro hver
      obtain ⟨_, -, -, -, -, hs, -⟩ := verify_eq_true_iff.1 hver
      obtain ⟨w, hw⟩ := exists_inverse hs
      obtain ⟨hQ, hnQ, hr, -, hx⟩ := (verify_eq_true_iff_point hw).1 hver
      refine ⟨hQ, hnQ, by omega, by omega, w, hw, fun h0 => ?_, by rw [hx]⟩
      rw [h0, ec.x_zero] at hx
      exact hr.1.ne hx
    · intro hvalid
      have hvalid' := hvalid
      obtain ⟨hQ, hnQ, hr, hs, w, hw, -, hx⟩ := hvalid'
      have hlt : ec.x (signaturePoint ec Q (signedNumber ec hash) r w) < ec.n := by
        by_contra hge
        exact hsmall ⟨hvalid, w, hw, not_lt.1 hge⟩
      rw [Int.ModEq, Int.emod_eq_of_lt (by omega) (by exact_mod_cast hlt),
        Int.emod_eq_of_lt (by omega) (by omega)] at hx
      exact (verify_eq_true_iff_point hw).2 ⟨hQ, hnQ, by omega, by omega, hx⟩

end

/-! ### A curve over the field with thirteen elements -/

/-- The curve `y ^ 2 = x ^ 3 + 7` over the field with thirteen elements: its group has
order seven, and its points are the multiples of `(7, 5)`. -/
def curve13 : ECParameters (ZMod 7) :=
  { order7 with
    x := fun P => [0, 7, 8, 11, 11, 8, 7].getD P.val 0
    y := fun P => [0, 5, 5, 8, 5, 8, 8].getD P.val 0
    x_neg := by decide
    x_zero := by decide }

/-- There `(1, 4)` is a signature of zero under the base point: the deciding point has the
abscissa eight, which is one modulo the order. -/
theorem not_verifyExact_curve13 : ¬ VerifyExact curve13 1 (Vector.replicate 32 0) 1 4 := by
  have hinv : (4 : ℤ) * 2 ≡ 1 [ZMOD 7] := by decide
  intro hexact
  have hvalid : ValidSignature curve13 1 (signedNumber curve13 (Vector.replicate 32 0)) 1 4 :=
    { Q_ne := by decide, n_smul := by decide, r_range := by decide, s_range := by decide,
      point := ⟨2, hinv, by decide, by decide⟩ }
  obtain ⟨-, -, -, -, hx⟩ := (verify_eq_true_iff_point hinv).1 (hexact.2 hvalid)
  revert hx
  decide

end SellingInformation.SharedSignature
