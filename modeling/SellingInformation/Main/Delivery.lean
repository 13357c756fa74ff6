import SellingInformation.Main.Factorise
import SellingInformation.Main.OpenInstance
import SellingInformation.Main.Secrecy

/-!
# An honest sale delivers the factors

With the buyer of the source, every check between cut and choose and the payment
passes, and what has been opened by then is enough for `factorise`.

* `gcd_of_roots` — the two numbers that `factorise` computes from the roots of an
  index pass its test exactly when the roots differ, and then they are the factors;
* `Delivering` — what holds over the openings, kept by each of them;
* `deliver_ok` — the part of the run returns, with both ciphertexts of every index
  outside the subset open;
* `Delivering.factorise_ok` — one index that is open and coprime to `n` is enough for the
  factors.
-/

namespace SellingInformation.Main

open CryptoPP Common Fallible SellInformationProtocol

/-! ## The test of `factorise` -/

section
variable {p q : ℕ} {r1 r2 : ℤ}

/-- Two different roots up to `n / 2` give the factors. -/
theorem gcd_of_ne (hp : p.Prime) (hq : q.Prime) (hpq : p ≠ q) (h1 : 0 ≤ r1) (h2 : 0 ≤ r2)
    (hle1 : 2 * r1 ≤ p * q) (hle2 : 2 * r2 ≤ p * q) (hsq : r1 * r1 ≡ r2 * r2 [ZMOD p * q])
    (hne : r1 ≠ r2) :
    (CryptoPP.gcd (p * q + r1 - r2) (p * q) = p ∧ CryptoPP.gcd (r1 + r2) (p * q) = q) ∨
      (CryptoPP.gcd (p * q + r1 - r2) (p * q) = q ∧ CryptoPP.gcd (r1 + r2) (p * q) = p) := by
  have hn : (0 : ℤ) < p * q := by exact_mod_cast Nat.mul_pos hp.pos hq.pos
  exact gcd_of_distinct hp hq hpq h1 (by omega) h2 (by omega) hsq hne (by omega)

/-- One root twice, when it shares a factor with `n`, does not pass the test. -/
theorem not_passes_self (hp : p.Prime) (hq : q.Prime) (h1 : 0 ≤ r1)
    (hdvd : (p : ℤ) ∣ r1 ∨ (q : ℤ) ∣ r1) : ¬ Passes (p * q) r1 r1 := by
  have hn : (0 : ℤ) < p * q := by exact_mod_cast Nat.mul_pos hp.pos hq.pos
  have hcommon : Int.gcd (r1 + r1) (p * q) ≠ 1 := by
    intro hone
    rcases hdvd with hd | hd
    · exact hp.one_lt.ne' (Nat.dvd_one.1 (hone ▸ Int.dvd_gcd (dvd_add hd hd) (dvd_mul_right _ _)))
    · exact hq.one_lt.ne' (Nat.dvd_one.1 (hone ▸ Int.dvd_gcd (dvd_add hd hd) (dvd_mul_left _ _)))
  intro hpass
  obtain ⟨hdiff, hsum⟩ := gcd_of_passes hn h1 h1 hpass
  -- the difference is zero, so the first of the two is all of `n`
  rw [Passes, hdiff, hsum, sub_self, Int.gcd_zero_left, Int.natAbs_of_nonneg hn.le] at hpass
  exact hcommon (by exact_mod_cast mul_left_cancel₀ hn.ne' (hpass.trans (mul_one _).symm))

end

/-! ## The roots of an index -/

section
variable {Point : Type} {msr : ModularSquareRoot} {s : Seller Point} {p q : ℕ} {i : Fin L} {x : ℤ}

/-- What is kept for the square of a number in range: the number itself or its other root. -/
theorem kept_of_rootsFound (hmsr : msr.Lawful) (hs : Sells p q s) (h : RootsFound msr s i)
    (hx : 0 ≤ x ∧ x ≤ s.n / 2) (hsq : x * x % s.n = s.y[i]) :
    (0 ≤ s.r1[i] ∧ 2 * s.r1[i] ≤ p * q) ∧ (0 ≤ s.r2[i] ∧ 2 * s.r2[i] ≤ p * q) ∧
      s.r1[i] * s.r1[i] ≡ s.y[i] [ZMOD p * q] ∧ s.r2[i] * s.r2[i] ≡ s.y[i] [ZMOD p * q] ∧
      (x = s.r1[i] ∨ x = s.r2[i]) := by
  obtain ⟨x0, x1, hfirst, -, -, hor⟩ := firstTwo_of_rootsFound hmsr hs h hsq
  have h0 := hfirst.nonneg
  have hle := hfirst.le
  have htwo := hfirst.two_mul_le
  have hmod : x * x ≡ s.y[i] [ZMOD p * q] := by
    rw [← hsq, hs.n_eq]
    exact (Int.mod_modEq _ _).symm
  have hx2 : 2 * x ≤ p * q := by
    have := hx.2
    rw [hs.n_eq] at this
    omega
  have hmem := hfirst.complete x hx.1 hx2 hmod
  rcases hor with ⟨h1, h2⟩ | ⟨h1, h2⟩
  · rw [h1, h2]
    exact ⟨⟨h0, by omega⟩, ⟨by omega, htwo⟩, hfirst.sq1, hfirst.sq2, hmem⟩
  · rw [h1, h2]
    exact ⟨⟨by omega, htwo⟩, ⟨h0, by omega⟩, hfirst.sq2, hfirst.sq1, hmem.symm⟩

/-- **The test.**  The roots of an index pass only when what is computed from them is the factors;
and they pass when the square is coprime to `n`. -/
theorem gcd_of_roots (hmsr : msr.Lawful) (hs : Sells p q s) (hp2 : p ≠ 2) (hq2 : q ≠ 2)
    (h : RootsFound msr s i) (hx : 0 ≤ x ∧ x < s.n / 2) (hsq : x * x % s.n = s.y[i]) {r1 r2 : ℤ}
    (hr1 : s.r1[i] = r1) (hr2 : s.r2[i] = r2) :
    (Passes (p * q) r1 r2 →
      (CryptoPP.gcd (p * q + r1 - r2) (p * q) = p ∧ CryptoPP.gcd (r1 + r2) (p * q) = q) ∨
        (CryptoPP.gcd (p * q + r1 - r2) (p * q) = q ∧ CryptoPP.gcd (r1 + r2) (p * q) = p)) ∧
      (IsCoprime x (p * q : ℤ) → Passes (p * q) r1 r2) := by
  obtain ⟨⟨h1, hle1⟩, ⟨h2, hle2⟩, hsq1, hsq2, -⟩ :=
    kept_of_rootsFound hmsr hs h ⟨hx.1, hx.2.le⟩ hsq
  obtain ⟨x0, x1, hfirst, -, hdiff, hor⟩ := firstTwo_of_rootsFound hmsr hs h hsq
  have hxy : x * x ≡ s.y[i] [ZMOD p * q] := by
    rw [← hsq, hs.n_eq]
    exact (Int.mod_modEq _ _).symm
  rw [hr1] at h1 hle1 hsq1 hor
  rw [hr2] at h2 hle2 hsq2 hor
  generalize s.y[i] = y at hsq1 hsq2 hxy hdiff
  by_cases heq : r1 = r2
  · -- the roots are equal only where the square shares a factor with `n`
    have hsame : x0 = x1 := by
      rcases hor with ⟨ha, hb⟩ | ⟨ha, hb⟩
      · rw [← ha, ← hb, heq]
      · rw [← ha, ← hb, heq]
    have hdvd : (p : ℤ) ∣ y ∨ (q : ℤ) ∣ y := by
      by_contra hno
      push Not at hno
      exact hdiff hp2 hq2 hno.1 hno.2 hsame
    have hroot : ∀ (r : ℤ) (l : ℕ), l.Prime → (l : ℤ) ∣ p * q → r * r ≡ y [ZMOD p * q] →
        (l : ℤ) ∣ y → (l : ℤ) ∣ r := by
      intro r l hl hln hr hy
      have hrr : (l : ℤ) ∣ r * r := (hr.of_dvd hln).dvd_iff.2 hy
      exact (Int.Prime.dvd_mul' hl hrr).elim id id
    have hno := not_passes_self hs.prime_p hs.prime_q h2 (hdvd.imp
      (hroot _ p hs.prime_p (dvd_mul_right _ _) hsq2)
      (hroot _ q hs.prime_q (dvd_mul_left _ _) hsq2))
    rw [heq]
    refine ⟨fun hpass => absurd hpass hno, fun hcop => ?_⟩
    rcases hdvd with hd | hd
    · have hunit := (hcop.of_mul_right_left).isUnit_of_dvd'
        (hroot x p hs.prime_p (dvd_mul_right _ _) hxy hd) dvd_rfl
      exact absurd (Int.isUnit_iff_natAbs_eq.1 hunit) (by simpa using hs.prime_p.ne_one)
    · have hunit := (hcop.of_mul_right_right).isUnit_of_dvd'
        (hroot x q hs.prime_q (dvd_mul_left _ _) hxy hd) dvd_rfl
      exact absurd (Int.isUnit_iff_natAbs_eq.1 hunit) (by simpa using hs.prime_q.ne_one)
  · have hfactors := gcd_of_ne hs.prime_p hs.prime_q hs.ne h1 h2 hle1 hle2 (hsq1.trans hsq2.symm) heq
    exact ⟨fun _ => hfactors, fun _ => passes_of_gcd hfactors⟩

end

/-! ## The openings -/

variable {Point : Type}

/-- What holds over the openings: the seller has committed to the roots of the buyer's
squares, the buyer holds the hashes, and what it has been opened is what was committed to. -/
structure Delivering (sha256 : Sha256) (aes : Cipher) (msr : ModularSquareRoot) (p q : ℕ)
    (x : Vector ℤ L) (signature : Bytes) (st : Sale Point) : Prop where
  sells : Sells p q st.seller
  committed : RootsCommitted msr aes st.seller
  y_eq : ∀ i : Fin L, x[i] * x[i] % st.seller.n = st.seller.y[i]
  n_eq : st.buyer.n = p * q
  x_eq : st.buyer.x = x
  keys : KeysAgree sha256 signature st.seller.singleSeller st.buyer.singleBuyer
  com1 : ∀ i : Fin L, st.buyer.d1[i].com =
    ShaCommitment.computeSha sha256 st.seller.d1[i].m st.seller.d1[i].seed
  com2 : ∀ i : Fin L, st.buyer.d2[i].com =
    ShaCommitment.computeSha sha256 st.seller.d2[i].m st.seller.d2[i].seed
  opened1 : ∀ i : Fin L, st.buyer.d1[i].m = [] ∨ st.buyer.d1[i].m = st.seller.d1[i].m
  opened2 : ∀ i : Fin L, st.buyer.d2[i].m = [] ∨ st.buyer.d2[i].m = st.seller.d2[i].m

section
variable {sha256 : Sha256} {aes : Cipher} {msr : ModularSquareRoot} {p q : ℕ} {x : Vector ℤ L}
  {signature : Bytes} {st : Sale Point} {i : Fin L}

/-- The log is of no importance. -/
theorem Delivering.of_log (h : Delivering sha256 aes msr p q x signature st) (log : List Event) :
    Delivering sha256 aes msr p q x signature { st with log } :=
  ⟨h.sells, h.committed, h.y_eq, h.n_eq, h.x_eq, h.keys, h.com1, h.com2, h.opened1, h.opened2⟩

/-- The buyer holds the hashes of the key and of the ciphertexts. -/
theorem Delivering.com (h : Delivering sha256 aes msr p q x signature st) (item : Item) (i : Fin L) :
    (item.receiver st.buyer i).com =
      ShaCommitment.computeSha sha256 (item.sender st.seller i).m (item.sender st.seller i).seed := by
  cases item with
  | key => exact h.keys.com i
  | first => exact h.com1 i
  | second => exact h.com2 i

theorem Delivering.openItem_ok (h : Delivering sha256 aes msr p q x signature st) (item : Item)
    (i : Fin L) : openItem sha256 item i st = .ok () (opening item i true st) := by
  unfold openItem
  rw [bind_of_ok (get_apply _), bind_of_ok (record_apply _), onItem_eq_zoom]
  refine zoom_eq_ok.2 ⟨_, ShaCommitment.open_of_com_eq (h.com item i), ?_⟩
  simp only [opening, Item.setSender_sender]

/-- Nothing is open but the committed messages, also once one more commitment is. -/
theorem opened_opening {item item' : Item} {j : Fin L}
    (h : (item'.receiver st.buyer j).m = [] ∨
      (item'.receiver st.buyer j).m = (item'.sender st.seller j).m) :
    (item'.receiver (opening item i true st).buyer j).m = [] ∨
      (item'.receiver (opening item i true st).buyer j).m = (item'.sender st.seller j).m := by
  rw [m_opening]
  by_cases hnew : j = i ∧ item' = item
  · obtain ⟨rfl, rfl⟩ := hnew
    rw [if_pos ⟨rfl, rfl⟩]
    exact Or.inr rfl
  · rw [if_neg hnew]
    exact h

/-- An opening keeps what holds over them. -/
theorem Delivering.opening (h : Delivering sha256 aes msr p q x signature st) (item : Item)
    (i : Fin L) : Delivering sha256 aes msr p q x signature (opening item i true st) where
  sells := h.sells
  committed := h.committed
  y_eq := h.y_eq
  n_eq := by cases item <;> exact h.n_eq
  x_eq := by cases item <;> exact h.x_eq
  keys := ⟨h.keys.key, fun j => (com_opening j .key).trans (h.keys.com j)⟩
  com1 j := (com_opening j .first).trans (h.com1 j)
  com2 j := (com_opening j .second).trans (h.com2 j)
  opened1 j := @opened_opening Point st i item .first j (h.opened1 j)
  opened2 j := @opened_opening Point st i item .second j (h.opened2 j)

/-! ## The rounds -/

variable {ρ : SaleRandom}

/-- The buyer's check passes when the ciphertext is that of its number. -/
theorem verifyRoot_eq_ok (haes : aes.Lawful) {b : Buyer Point} {key c : Bytes} {r : ℤ} (h0 : 0 ≤ r)
    (henc : enc aes key (toBytes r) = .ok c) (hx : b.x[i] = r) :
    b.verifyRoot aes i key c = .ok () := by
  obtain ⟨msg, hdec, hmsg⟩ := dec_root haes h0 henc
  unfold Buyer.verifyRoot
  rw [hdec, except_ok_bind]
  exact refuseIf_of_not (by rw [hmsg, hx]; exact not_not.2 rfl)

theorem verifyRoot_ok (haes : aes.Lawful) {key c : Bytes} {r : ℤ} (h0 : 0 ≤ r)
    (henc : enc aes key (toBytes r) = .ok c) (hx : st.buyer.x[i] = r) :
    onBuyer ((honestSide aes ρ).verifyRoot i key c) st = .ok () st := by
  have hverify := verifyRoot_eq_ok haes h0 henc hx
  refine zoom_eq_ok.2 ⟨st.buyer, ?_, rfl⟩
  show ((get : Proc (Buyer Point) (Buyer Point)) >>= fun b => lift (b.verifyRoot aes i key c))
    st.buyer = _
  rw [bind_of_ok (get_apply _), hverify, lift_ok]

/-- A round over the subset passes, and keeps what holds over the openings. -/
theorem openRoot_ok (haes : aes.Lawful) {c : ℕ}
    (h : Delivering sha256 aes msr p q x signature st) (h0 : 0 ≤ x[i])
    (hc : (c = 1 ∧ x[i] = st.seller.r1[i]) ∨ (c = 2 ∧ x[i] = st.seller.r2[i])) :
    ∃ st', openRoot sha256 (honestSide aes ρ) i c st = .ok () st' ∧ st'.seller = st.seller ∧
      Delivering sha256 aes msr p q x signature st' := by
  have hkey := h.openItem_ok .key i
  have h1 := h.opening .key i
  have hkeym : (Item.key.receiver (opening .key i true st).buyer i).m =
      st.seller.singleSeller.keysCommits[i].m := by
    rw [m_opening, if_pos ⟨rfl, rfl⟩]
    rfl
  rcases hc with ⟨rfl, hval⟩ | ⟨rfl, hval⟩
  · have h2 := h1.opening .first i
    refine ⟨opening .first i true (opening .key i true st),
      (openRoot_of_openings hkey rfl (h1.openItem_ok .first i)).trans ?_, rfl, h2⟩
    rw [hkeym, m_opening, if_pos ⟨rfl, rfl⟩]
    refine verifyRoot_ok haes (hval ▸ h0) (h.committed.enc1 i) ?_
    rw [h2.x_eq, hval]
  · have h2 := h1.opening .second i
    refine ⟨opening .second i true (opening .key i true st),
      (openRoot_of_openings hkey rfl (h1.openItem_ok .second i)).trans ?_, rfl, h2⟩
    rw [hkeym, m_opening, if_pos ⟨rfl, rfl⟩]
    refine verifyRoot_ok haes (hval ▸ h0) (h.committed.enc2 i) ?_
    rw [h2.x_eq, hval]

/-- Both ciphertexts of an index are open. -/
def BothOpen (st : Sale Point) (i : Fin L) : Prop :=
  st.buyer.d1[i].m = st.seller.d1[i].m ∧ st.buyer.d2[i].m = st.seller.d2[i].m

/-- A round over the other indices passes, opens both ciphertexts, and closes no other index. -/
theorem openBoth_ok (h : Delivering sha256 aes msr p q x signature st) :
    ∃ st', openBoth sha256 i st = .ok () st' ∧ Delivering sha256 aes msr p q x signature st' ∧
      BothOpen st' i ∧ ∀ j, BothOpen st j → BothOpen st' j := by
  have h1 := h.opening .first i
  have hm : ∀ (j : Fin L) (item : Item), item ≠ .key → (item.receiver
      (opening .second i true (opening .first i true st)).buyer j).m =
        if j = i then (item.sender st.seller i).m else (item.receiver st.buyer j).m := by
    intro j item hitem
    rw [m_opening, m_opening]
    cases item with
    | key => exact absurd rfl hitem
    | first => simp
    | second => simp [opening]
  refine ⟨opening .second i true (opening .first i true st), ?_, h1.opening .second i, ⟨?_, ?_⟩, ?_⟩
  · rw [openBoth_of_opening (h.openItem_ok .first i)]
    exact h1.openItem_ok .second i
  · exact (hm i .first (by decide)).trans (if_pos rfl)
  · exact (hm i .second (by decide)).trans (if_pos rfl)
  · rintro j ⟨hj1, hj2⟩
    refine ⟨(hm j .first (by decide)).trans ?_, (hm j .second (by decide)).trans ?_⟩
    · by_cases hji : j = i
      · rw [if_pos hji, hji]
        rfl
      · rw [if_neg hji]
        exact hj1
    · by_cases hji : j = i
      · rw [if_pos hji, hji]
        rfl
      · rw [if_neg hji]
        exact hj2

/-! ## The commitments -/

/-- What the parties bring into the sale: the factors, the keys, and nothing opened. -/
structure Ready (sha256 : Sha256) (p q : ℕ) (signature : Bytes) (st : Sale Point) : Prop where
  sells : Sells p q st.seller
  n_eq : st.buyer.n = p * q
  keys : KeysAgree sha256 signature st.seller.singleSeller st.buyer.singleBuyer
  unopened1 : ∀ i : Fin L, st.buyer.d1[i].m = []
  unopened2 : ∀ i : Fin L, st.buyer.d2[i].m = []

/-- The seller has answered the squares. -/
structure Answered (sha256 : Sha256) (aes : Cipher) (msr : ModularSquareRoot) (p q : ℕ)
    (x : Vector ℤ L) (signature : Bytes) (st : Sale Point) : Prop where
  ready : Ready sha256 p q signature st
  committed : RootsCommitted msr aes st.seller
  y_eq : ∀ i : Fin L, x[i] * x[i] % st.seller.n = st.seller.y[i]
  x_eq : st.buyer.x = x

theorem KeysAgree.valid {s : SingleSeller Point} {b : SingleBuyer Point}
    (h : KeysAgree sha256 signature s b) : KeysValid s := by
  intro i
  rw [h.key i, asKey_toList]
  rfl

/-- The buyer holds the hashes of both ciphertexts of an index. -/
def Hashed (sha256 : Sha256) (st : Sale Point) (i : Fin L) : Prop :=
  st.buyer.d1[i].com = ShaCommitment.computeSha sha256 st.seller.d1[i].m st.seller.d1[i].seed ∧
    st.buyer.d2[i].com = ShaCommitment.computeSha sha256 st.seller.d2[i].m st.seller.d2[i].seed

/-- Making the hash commitments of all indices. -/
theorem commitments_ok : Triple (Answered sha256 aes msr p q x signature)
    ((List.finRange L).forM fun i => do
      onD1 i (ShaCommitment.exec sha256 (ρ.seed1 i))
      onD2 i (ShaCommitment.exec sha256 (ρ.seed2 i)))
    (fun _ st => Answered sha256 aes msr p q x signature (st : Sale Point) ∧
      ∀ i ∈ List.finRange L, Hashed sha256 st i) (fun _ _ => False) := by
  refine Triple.forM_each ?_
  intro i _ st hst
  have hcom : ∀ (d : Vector ShaCommitment.Receiver L) (com : Bytes32) (j : Fin L),
      (d.set i { d[i] with com } i.isLt)[j].m = d[j].m := by
    intro d com j
    by_cases hij : i = j
    · subst hij
      simp
    · simp [Fin.ext_iff.not.1 hij]
  refine ⟨⟨⟨?_, hst.ready.n_eq, hst.ready.keys, ?_, ?_⟩, ?_, hst.y_eq, hst.x_eq⟩, ⟨?_, ?_⟩, ?_⟩
  · exact hst.ready.sells.congr rfl rfl
  · exact fun j => (hcom _ _ j).trans (hst.ready.unopened1 j)
  · exact fun j => (hcom _ _ j).trans (hst.ready.unopened2 j)
  · exact hst.committed.congr rfl rfl rfl rfl rfl (fun j => set_exec_m i j _ _)
      fun j => set_exec_m i j _ _
  · simp
  · simp
  · rintro j hji ⟨h1, h2⟩
    have hne : (i : ℕ) ≠ j := fun h => hji (Fin.ext h.symm)
    exact ⟨by simpa [hne] using h1, by simpa [hne] using h2⟩

/-- The seller answers honest squares. -/
theorem answerSquares_ok (swap : Fin L → Bool) :
    Triple (fun st : Sale Point => Ready sha256 p q signature st ∧ st.buyer.x = x)
      (onSeller (Seller.answerSquares msr aes swap (x.map fun xi => xi * xi % (p * q))))
      (fun _ => Answered sha256 aes msr p q x signature) (fun _ _ => False) := by
  rintro st ⟨hst, hx⟩
  have hspec := @answerSquares_spec Point msr aes swap (x.map fun xi => xi * xi % (p * q)) st.seller
    st.seller rfl
  unfold onSeller
  rw [zoom]
  cases hr : Seller.answerSquares msr aes swap (x.map fun xi => xi * xi % (p * q)) st.seller with
  | error e s' =>
    rw [hr] at hspec
    exact absurd hst.keys.valid hspec
  | ok u s' =>
    rw [hr] at hspec
    obtain ⟨herase, hroots⟩ := hspec
    obtain ⟨⟨hn, hroot, hy⟩, hsingle, -, -⟩ := fields_of_erase_eq herase
    refine ⟨⟨hst.sells.congr hn hroot, hst.n_eq, ?_, hst.unopened1, hst.unopened2⟩, hroots, ?_, hx⟩
    · show KeysAgree sha256 signature s'.singleSeller _
      rw [hsingle]
      exact hst.keys
    · intro i
      show x[i] * x[i] % s'.n = s'.y[i]
      rw [hn, hy, hst.sells.n_eq]
      simp

theorem commitRoots_ok : Triple (Ready sha256 p q signature)
    (commitRoots sha256 aes msr (honestSide aes ρ) ρ)
    (fun _ => @Delivering Point sha256 aes msr p q ρ.x signature) (fun _ _ => False) := by
  refine Triple.bind (Q := fun y st => y = (ρ.x.map fun xi => xi * xi % (p * q : ℤ)) ∧
    Ready sha256 p q signature st ∧ st.buyer.x = ρ.x) ?_ fun y => ?_
  · intro st hst
    refine ⟨?_, ⟨hst.sells, hst.n_eq, hst.keys, hst.unopened1, hst.unopened2⟩, rfl⟩
    rw [← hst.n_eq]
    rfl
  refine Triple.bind (Q := fun _ st => y = (ρ.x.map fun xi => xi * xi % (p * q : ℤ)) ∧
    Ready sha256 p q signature st ∧ st.buyer.x = ρ.x) (Triple.modify ?_) fun _ => ?_
  · rintro st ⟨hy, hst, hx⟩
    exact ⟨hy, ⟨hst.sells, hst.n_eq, hst.keys, hst.unopened1, hst.unopened2⟩, hx⟩
  rintro st ⟨rfl, hst⟩
  have hrun := Triple.bind (@answerSquares_ok Point sha256 aes msr p q ρ.x signature ρ.swap) fun _ =>
    @commitments_ok Point sha256 aes msr p q ρ.x signature ρ
  refine hrun.conseq (fun _ h => h) ?_ (fun _ _ h => h) st hst
  rintro _ st' ⟨h, hashed⟩
  exact ⟨h.ready.sells, h.committed, h.y_eq, h.ready.n_eq, h.x_eq, h.ready.keys,
    fun i => (hashed i (List.mem_finRange i)).1, fun i => (hashed i (List.mem_finRange i)).2,
    fun i => Or.inl (h.ready.unopened1 i), fun i => Or.inl (h.ready.unopened2 i)⟩

/-! ## The openings of an honest run -/

/-- Which of the two commitments the seller opens for the buyer's number. -/
def chosen (s : Seller Point) (x : Vector ℤ L) (i : Fin L) : ℕ := if x[i] = s.r2[i] then 2 else 1

theorem zip_map_self {α β : Type} (l : List α) (f : α → β) :
    l.zip (l.map f) = l.map fun a => (a, f a) := by
  simpa using @List.zip_map' _ _ _ id f l

section
variable (hmsr : msr.Lawful) (hx : ∀ i : Fin L, 0 ≤ x[i] ∧ x[i] ≤ (p * q : ℤ) / 2)
  (h : Delivering sha256 aes msr p q x signature st)
include hmsr hx h

theorem chosen_root (i : Fin L) : (chosen st.seller x i = 1 ∧ x[i] = st.seller.r1[i]) ∨
    (chosen st.seller x i = 2 ∧ x[i] = st.seller.r2[i]) := by
  have hrange : 0 ≤ x[i] ∧ x[i] ≤ st.seller.n / 2 := by
    rw [h.sells.n_eq]
    exact hx i
  obtain ⟨-, -, -, -, hkept⟩ :=
    kept_of_rootsFound hmsr h.sells (h.committed.found i) hrange (h.y_eq i)
  by_cases h2 : x[i] = st.seller.r2[i]
  · exact Or.inr ⟨if_pos h2, h2⟩
  · exact Or.inl ⟨if_neg h2, hkept.resolve_right h2⟩

/-- The buyer's own numbers are accepted when they are below `n / 2`. -/
theorem acceptSubset_ok {subset : Vector (Fin L) (L / 2)}
    (hsub : ∀ i ∈ subset.toList, x[i] < (p * q : ℤ) / 2) :
    st.seller.acceptSubset (subset.toList.zip (subset.map fun i => x[i]).toList) =
      .ok (subset.toList.map (chosen st.seller x)) := by
  have hround : ∀ e ∈ subset.toList.map fun i => (i, x[i]),
      st.seller.acceptRoot e.1 e.2 = .ok (chosen st.seller x e.1) := by
    intro e he
    obtain ⟨i, hi, rfl⟩ := List.mem_map.1 he
    refine acceptRoot_eq_ok.2 ⟨?_, h.y_eq i, ?_⟩
    · rw [h.sells.n_eq]
      exact hsub i hi
    · unfold chosen
      rcases chosen_root hmsr hx h i with ⟨hc, hroot⟩ | ⟨-, hroot⟩
      · have h2 : x[i] ≠ st.seller.r2[i] := by
          intro hc2
          unfold chosen at hc
          rw [if_pos hc2] at hc
          exact absurd hc (by decide)
        rw [if_neg h2, if_neg h2, if_pos hroot]
      · rw [if_pos hroot, if_pos hroot]
  rw [Vector.toList_map, zip_map_self, Seller.acceptSubset, mapM_of_ok hround, List.map_map]
  rfl

/-- The two loops of openings. -/
theorem openLoops_ok (haes : aes.Lawful) (inds : List (Fin L)) :
    Triple (fun st' : Sale Point => st'.seller = st.seller ∧
        Delivering sha256 aes msr p q x signature st')
      ((inds.zip (inds.map (chosen st.seller x))).forM
          (fun e => openRoot sha256 (honestSide aes ρ) e.1 e.2) >>= fun _ =>
        (List.finRange L).forM fun ind => if ind ∈ inds then pure () else openBoth sha256 ind)
      (fun _ st' => Delivering sha256 aes msr p q x signature st' ∧
        ∀ i ∈ List.finRange L, i ∉ inds → BothOpen st' i) (fun _ _ => False) := by
  refine Triple.bind (Q := fun _ st' => st'.seller = st.seller ∧
    Delivering sha256 aes msr p q x signature st') (Triple.forM_invariant ?_) fun _ => ?_
  · rintro e he st' ⟨hseller, hst'⟩
    rw [zip_map_self] at he
    obtain ⟨i, -, rfl⟩ := List.mem_map.1 he
    have hc := chosen_root hmsr hx h i
    rw [← hseller] at hc
    obtain ⟨st'', hrun, hseller', hst''⟩ := openRoot_ok haes hst' (hx i).1 hc
    rw [← hseller, hrun]
    exact ⟨hseller', hst''⟩
  · refine Triple.conseq (Triple.forM_each (I := Delivering sha256 aes msr p q x signature)
      (R := fun i st' => i ∉ inds → BothOpen st' i) ?_) (fun _ h => h.2) (fun _ _ h => h)
      (fun _ _ h => h)
    intro i _ st' hst'
    by_cases hi : i ∈ inds
    · rw [if_pos hi]
      exact ⟨hst', fun hno => absurd hi hno, fun _ _ h => h⟩
    · rw [if_neg hi]
      obtain ⟨st'', hrun, hst'', hopen, hothers⟩ := openBoth_ok hst' (i := i)
      rw [hrun]
      exact ⟨hst'', fun _ => hopen, fun j _ hj hno => hothers j (hj hno)⟩

end

/-- The openings pass, and leave both ciphertexts of every index outside the subset open. -/
theorem openRoots_ok (haes : aes.Lawful) (hmsr : msr.Lawful) (hsubset : ρ.subset.toList.Nodup)
    (hx : ∀ i : Fin L, 0 ≤ ρ.x[i] ∧ ρ.x[i] ≤ (p * q : ℤ) / 2)
    (hsub : ∀ i ∈ ρ.subset.toList, ρ.x[i] < (p * q : ℤ) / 2) :
    Triple (Delivering sha256 aes msr p q ρ.x signature) (openRoots sha256 (honestSide aes ρ))
      (fun _ st => Delivering sha256 aes msr p q ρ.x signature (st : Sale Point) ∧
        ∀ i, i ∉ ρ.subset.toList → BothOpen st i) (fun _ _ => False) := by
  have hcheck : checkIndices (ρ.subset.map fun i => i.val) = .ok ρ.subset.toList :=
    checkIndices_eq_ok.2 ⟨hsubset, by rw [Vector.toList_map]⟩
  refine Triple.bind (Q := fun sent st => sent = (ρ.subset.map fun i => i.val,
    ρ.subset.map fun i => ρ.x[i]) ∧ Delivering sha256 aes msr p q ρ.x signature st) ?_ ?_
  · rintro st h
    refine ⟨?_, h.sells, h.committed, h.y_eq, h.n_eq, h.x_eq, h.keys, h.com1, h.com2, h.opened1,
      h.opened2⟩
    rw [← h.x_eq]
    rfl
  rintro ⟨indices, values⟩
  refine Triple.bind (Q := fun _ st => (indices, values) = (ρ.subset.map fun i => i.val,
    ρ.subset.map fun i => ρ.x[i]) ∧ Delivering sha256 aes msr p q ρ.x signature st)
    (Triple.modify fun st h => ⟨h.1, h.2.of_log _⟩) fun _ => ?_
  rintro st ⟨heq, h⟩
  cases heq
  rw [hcheck, bind_of_ok (lift_ok _ _), bind_of_ok (get_apply _), acceptSubset_ok hmsr hx h hsub,
    bind_of_ok (lift_ok _ _)]
  exact (openLoops_ok hmsr hx h haes ρ.subset.toList).conseq (fun _ h => h)
    (fun _ _ h => ⟨h.1, fun i => h.2 i (List.mem_finRange i)⟩) (fun _ _ h => h) st ⟨rfl, h⟩

/-- **Completeness of the delivery.**  With honest parties no check fails. -/
theorem deliver_ok (haes : aes.Lawful) (hmsr : msr.Lawful) (hsubset : ρ.subset.toList.Nodup)
    (hx : ∀ i : Fin L, 0 ≤ ρ.x[i] ∧ ρ.x[i] < (p * q : ℤ) / 2)
    (h : Ready sha256 p q signature st) :
    ∃ st', deliver sha256 aes msr (honestSide aes ρ) ρ st = .ok () st' ∧
      Delivering sha256 aes msr p q ρ.x signature st' ∧
        ∀ i, i ∉ ρ.subset.toList → BothOpen st' i := by
  obtain ⟨_, st', hrun, hst'⟩ := (Triple.bind commitRoots_ok fun _ =>
    @openRoots_ok Point sha256 aes msr p q signature ρ haes hmsr hsubset
      (fun i => ⟨(hx i).1, (hx i).2.le⟩) fun i _ => (hx i).2).returns h
  exact ⟨st', hrun, hst'⟩

/-! ## Factoring -/

/-- The keys of the signature decrypt what the seller has committed to. -/
theorem Delivering.dec (h : Delivering sha256 aes msr p q x signature st) (haes : aes.Lawful)
    (i : Fin L) : aes.dec (genKeys sha256 signature)[i] st.seller.d1[i].m =
      .ok (toBytes st.seller.r1[i]) ∧
    aes.dec (genKeys sha256 signature)[i] st.seller.d2[i].m = .ok (toBytes st.seller.r2[i]) := by
  have h1 := dec_of_enc haes (h.committed.enc1 i)
  have h2 := dec_of_enc haes (h.committed.enc2 i)
  rw [h.keys.key, dec_toList] at h1 h2
  exact ⟨h1, h2⟩

/-- A commitment is never to the empty message, so an opened index is not skipped. -/
theorem Delivering.ne_nil (h : Delivering sha256 aes msr p q x signature st) (haes : aes.Lawful)
    (i : Fin L) : st.seller.d1[i].m ≠ [] ∧ st.seller.d2[i].m ≠ [] := by
  have h1 := h.committed.enc1 i
  have h2 := h.committed.enc2 i
  rw [h.keys.key, enc_toList, Except.ok.injEq] at h1 h2
  rw [← h1, ← h2]
  exact ⟨haes.enc_ne_nil _ _, haes.enc_ne_nil _ _⟩

/-- What is open at an index decrypts to its roots. -/
theorem Delivering.decrypts (h : Delivering sha256 aes msr p q x signature st) (haes : aes.Lawful)
    (hmsr : msr.Lawful) {i : Fin L} (hx : 0 ≤ x[i] ∧ x[i] < (p * q : ℤ) / 2)
    (h1 : st.buyer.d1[i].m ≠ []) (h2 : st.buyer.d2[i].m ≠ []) :
    Decrypts aes (genKeys sha256 signature) st.buyer i st.seller.r1[i] st.seller.r2[i] := by
  rw [← h.sells.n_eq] at hx
  obtain ⟨⟨hr1, -⟩, ⟨hr2, -⟩, -⟩ :=
    kept_of_rootsFound hmsr h.sells (h.committed.found i) ⟨hx.1, hx.2.le⟩ (h.y_eq i)
  obtain ⟨hdec1, hdec2⟩ := h.dec haes i
  rw [← (h.opened1 i).resolve_left h1] at hdec1
  rw [← (h.opened2 i).resolve_left h2] at hdec2
  exact ⟨h1, h2, _, _, hdec1, hdec2, (ofBytes_toBytes_of_nonneg hr1).symm,
    (ofBytes_toBytes_of_nonneg hr2).symm⟩

/-- One index that is open and coprime to `n` is enough: every index that passes gives the
factors. -/
theorem Delivering.factorise_ok (haes : aes.Lawful) (hmsr : msr.Lawful) (hp2 : p ≠ 2) (hq2 : q ≠ 2)
    (hx : ∀ i : Fin L, 0 ≤ x[i] ∧ x[i] < (p * q : ℤ) / 2)
    (h : Delivering sha256 aes msr p q x signature st) (hsig : st.buyer.signature = signature)
    {good : Fin L} (hopen : BothOpen st good) (hcop : IsCoprime x[good] (p * q : ℤ)) :
    ∃ b', Buyer.factorise sha256 aes st.buyer = .ok () b' ∧
      ((b'.p = p ∧ b'.q = q) ∨ (b'.p = q ∧ b'.q = p)) := by
  have hn := h.n_eq
  have htest := fun i => gcd_of_roots hmsr h.sells hp2 hq2 (h.committed.found i)
    (by rw [h.sells.n_eq]; exact hx i) (h.y_eq i) rfl rfl
  have hund : ∀ j, ¬ Undecryptable aes (genKeys sha256 st.buyer.signature) st.buyer j := by
    rintro j ⟨h1, h2, hno⟩
    rw [hsig] at hno
    exact hno _ _ (h.decrypts haes hmsr (hx j) h1 h2)
  obtain ⟨hne1, hne2⟩ := h.ne_nil haes good
  rw [← hopen.1] at hne1
  rw [← hopen.2] at hne2
  have hdec := h.decrypts haes hmsr (hx good) hne1 hne2
  rw [← hsig] at hdec
  obtain ⟨k, s1, s2, hdec', hpass, hrun⟩ := factorise_of_passes hund hdec
    (by rw [hn]; exact (htest good).2 hcop)
  -- the pair that is kept comes from the seller's roots at that index
  rw [hsig] at hdec'
  obtain ⟨rfl, rfl⟩ := hdec'.unique (h.decrypts haes hmsr (hx k) hdec'.1 hdec'.2.1)
  rw [hn] at hpass
  refine ⟨_, hrun, ?_⟩
  simp only [Buyer.keep, hn]
  exact (htest k).1 hpass

/-- **An honest sale delivers the factors.**  From parties that are ready, with numbers in
range and any subset of different indices that leaves out one coprime to `n`, the run up to
the payment returns, and with the signature of the keys `factorise` finds the factors. -/
theorem factors_delivered (haes : aes.Lawful) (hmsr : msr.Lawful) (hp2 : p ≠ 2) (hq2 : q ≠ 2)
    (hready : Ready sha256 p q signature st) (hsubset : ρ.subset.toList.Nodup)
    (hx : ∀ i : Fin L, 0 ≤ ρ.x[i] ∧ ρ.x[i] < (p * q : ℤ) / 2)
    (hgood : ∃ i : Fin L, i ∉ ρ.subset.toList ∧ IsCoprime ρ.x[i] (p * q : ℤ)) :
    ∃ st' b', deliver sha256 aes msr (honestSide aes ρ) ρ st = .ok () st' ∧
      Buyer.factorise sha256 aes { st'.buyer with signature } = .ok () b' ∧
      ((b'.p = p ∧ b'.q = q) ∨ (b'.p = q ∧ b'.q = p)) := by
  obtain ⟨st', hrun, h, hopen⟩ := deliver_ok haes hmsr hsubset hx hready
  obtain ⟨good, hnot, hcop⟩ := hgood
  have hsigned : Delivering sha256 aes msr p q ρ.x signature
      { st' with buyer := { st'.buyer with signature } } :=
    ⟨h.sells, h.committed, h.y_eq, h.n_eq, h.x_eq, h.keys, h.com1, h.com2, h.opened1, h.opened2⟩
  obtain ⟨b', hfactorise, hb'⟩ :=
    hsigned.factorise_ok haes hmsr hp2 hq2 hx rfl (hopen good hnot) hcop
  exact ⟨st', b', hrun, hfactorise, hb'⟩

theorem ready_readySale : Ready (fun _ => Vector.replicate 32 0) 3 5 [] readySale := by
  refine ⟨⟨Nat.prime_three, Nat.prime_five, by decide, rfl, rfl⟩, rfl, ⟨?_, ?_⟩, ?_, ?_⟩
  · intro i
    simp [readySale, Seller.new]
  · intro i
    simp [readySale, Seller.new, Buyer.new]
  · intro i
    simp [readySale, Buyer.new, ShaCommitment.Receiver.new]
  · intro i
    simp [readySale, Buyer.new, ShaCommitment.Receiver.new]

/-- `factors_delivered` for fifteen, where every number of the buyer is one. -/
theorem factors_delivered_fifteen : ∃ st' b',
    deliver (fun _ => Vector.replicate 32 0) Cipher.padding searchRoot
        (honestSide Cipher.padding fifteenRandom) fifteenRandom readySale = .ok () st' ∧
      Buyer.factorise (fun _ => Vector.replicate 32 0) Cipher.padding
        { st'.buyer with signature := [] } = .ok () b' ∧
      ((b'.p = (3 : ℕ) ∧ b'.q = (5 : ℕ)) ∨ (b'.p = (5 : ℕ) ∧ b'.q = (3 : ℕ))) := by
  refine factors_delivered Cipher.lawful_padding lawful_searchRoot (by decide) (by decide)
    ready_readySale (by decide) ?_ ⟨⟨5, by decide⟩, by decide, ?_⟩
  · intro i
    simp [fifteenRandom]
  · simp only [fifteenRandom, getElem_val, Vector.getElem_replicate]
    exact isCoprime_one_left

end

end SellingInformation.Main
