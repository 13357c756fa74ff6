import SellingInformation.Main.SellInformation

/-!
# What `factorise` makes of the opened ciphertexts

`factorise` goes through the indices.  An index is skipped when one of its ciphertexts
was not opened, or when the two numbers computed from its roots fail the test; a
ciphertext that does not decrypt ends the loop with an exception, and the first index
that passes the test ends it with a pair.

The seller chose the ciphertexts.  The test is that the product of two greatest common
divisors is `n`, which `n` and one also pass.

* `factorise_eq_ok`, `factorise_ok_iff` — when the loop returns, and with what;
* `factored_iff` — which pairs that pass the test are factors;
* `factorise_factored_iff` — when every return is a factorisation;
* `factorise_of_good_iff` — when one good index is enough.
-/

namespace SellingInformation.Main

open CryptoPP Common Fallible

/-! ## The test -/

/-- The test on the two roots of an index. -/
def Passes (n r1 r2 : ℤ) : Prop := CryptoPP.gcd (n + r1 - r2) n * CryptoPP.gcd (r1 + r2) n = n

instance instDecidablePasses (n r1 r2 : ℤ) : Decidable (Passes n r1 r2) :=
  inferInstanceAs (Decidable (_ = _))

/-- `p` and `q` are a pair of proper factors of `n`. -/
def Factored (n p q : ℤ) : Prop := (1 < p ∧ p < n) ∧ (1 < q ∧ q < n) ∧ p * q = n

/-- What passes the test is a pair of greatest common divisors, also where the first
argument is negative. -/
theorem gcd_of_passes {n r1 r2 : ℤ} (hn : 0 < n) (h1 : 0 ≤ r1) (h2 : 0 ≤ r2)
    (h : Passes n r1 r2) : CryptoPP.gcd (n + r1 - r2) n = Int.gcd (r1 - r2) n ∧
      CryptoPP.gcd (r1 + r2) n = Int.gcd (r1 + r2) n := by
  have hsum := gcd_eq (add_nonneg h1 h2) hn.le
  refine ⟨?_, hsum⟩
  have hpos : 0 < CryptoPP.gcd (n + r1 - r2) n := by
    have hmul : 0 < CryptoPP.gcd (n + r1 - r2) n * CryptoPP.gcd (r1 + r2) n := by
      rw [show _ * _ = n from h]
      exact hn
    rw [hsum] at hmul
    by_contra hle
    exact absurd hmul (mul_nonpos_of_nonpos_of_nonneg (not_lt.1 hle) (Int.natCast_nonneg _)).not_gt
  have habs : (CryptoPP.gcd (n + r1 - r2) n).natAbs = Int.gcd (r1 - r2) n := by
    rw [CryptoPP.gcd, euclid_natAbs, Int.gcd_comm, show n + r1 - r2 = r1 - r2 + n by ring,
      Int.gcd_add_self_left]
  rw [← habs, Int.natAbs_of_nonneg hpos.le]

/-- **The test lets trivial pairs through.**  A pair that passes is one of proper factors
exactly when `n` divides neither the difference nor the sum of the roots. -/
theorem factored_iff {n r1 r2 : ℤ} (hn : 1 < n) (h1 : 0 ≤ r1) (h2 : 0 ≤ r2) (h : Passes n r1 r2) :
    Factored n (CryptoPP.gcd (n + r1 - r2) n) (CryptoPP.gcd (r1 + r2) n) ↔
      ¬ n ∣ r1 - r2 ∧ ¬ n ∣ r1 + r2 := by
  obtain ⟨hdiff, hsum⟩ := gcd_of_passes (by omega) h1 h2 h
  have hfull : ∀ a : ℤ, n ∣ a ↔ (Int.gcd a n : ℤ) = n :=
    fun a => (Int.gcd_eq_right_iff_dvd (by omega)).symm
  have hpos : ∀ a : ℤ, 1 ≤ (Int.gcd a n : ℤ) := fun a => by
    exact_mod_cast Int.gcd_pos_of_ne_zero_right a (by omega)
  have hmul : (Int.gcd (r1 - r2) n : ℤ) * Int.gcd (r1 + r2) n = n := by
    rw [← hdiff, ← hsum]
    exact h
  rw [hfull, hfull, hdiff, hsum]
  have ha := hpos (r1 - r2)
  have hb := hpos (r1 + r2)
  generalize (Int.gcd (r1 - r2) n : ℤ) = a at hmul ha ⊢
  generalize (Int.gcd (r1 + r2) n : ℤ) = b at hmul hb ⊢
  constructor
  · rintro ⟨⟨-, han⟩, ⟨-, hbn⟩, -⟩
    exact ⟨han.ne, hbn.ne⟩
  · rintro ⟨han, hbn⟩
    -- one of the two is one exactly when the other one is `n`
    have ha1 : a ≠ 1 := by
      rintro rfl
      exact hbn (by rwa [one_mul] at hmul)
    have hb1 : b ≠ 1 := by
      rintro rfl
      exact han (by rwa [mul_one] at hmul)
    have hale : a ≤ n := hmul ▸ le_mul_of_one_le_right (by omega) hb
    have hble : b ≤ n := hmul ▸ le_mul_of_one_le_left (by omega) ha
    exact ⟨⟨by omega, by omega⟩, ⟨by omega, by omega⟩, hmul⟩

section
variable {p q : ℕ} {r1 r2 : ℤ}

/-- Numbers in range that are neither equal nor opposite have no multiple of `n` for their
difference or their sum. -/
theorem not_dvd_of_ne (h1 : 0 ≤ r1) (hlt1 : r1 < p * q) (h2 : 0 ≤ r2) (hlt2 : r2 < p * q)
    (hne : r1 ≠ r2) (hsum : r1 + r2 ≠ p * q) :
    ¬ (p * q : ℤ) ∣ r1 - r2 ∧ ¬ (p * q : ℤ) ∣ r1 + r2 := by
  have hn : (0 : ℤ) < p * q := by omega
  constructor
  · intro hdvd
    have := Int.eq_zero_of_abs_lt_dvd hdvd (abs_lt.2 ⟨by omega, by omega⟩)
    omega
  · -- the sum is below twice `n`, and not zero since the roots differ
    rintro ⟨k, hk⟩
    have hk0 : 0 < k := by
      by_contra hle
      have := mul_nonpos_of_nonneg_of_nonpos hn.le (not_lt.1 hle)
      omega
    have hk2 : k < 2 := by
      by_contra hle
      have := mul_le_mul_of_nonneg_left (not_lt.1 hle) hn.le
      omega
    obtain rfl : k = 1 := by omega
    exact hsum (by rw [hk, mul_one])

/-- Two square roots of one number in range that are neither equal nor opposite give the
factors. -/
theorem gcd_of_distinct (hp : p.Prime) (hq : q.Prime) (hpq : p ≠ q) (h1 : 0 ≤ r1)
    (hlt1 : r1 < p * q) (h2 : 0 ≤ r2) (hlt2 : r2 < p * q) (hsq : r1 * r1 ≡ r2 * r2 [ZMOD p * q])
    (hne : r1 ≠ r2) (hsum : r1 + r2 ≠ p * q) :
    (CryptoPP.gcd (p * q + r1 - r2) (p * q) = p ∧ CryptoPP.gcd (r1 + r2) (p * q) = q) ∨
      (CryptoPP.gcd (p * q + r1 - r2) (p * q) = q ∧ CryptoPP.gcd (r1 + r2) (p * q) = p) := by
  obtain ⟨hsub, hadd⟩ := not_dvd_of_ne h1 hlt1 h2 hlt2 hne hsum
  have hn : (0 : ℤ) ≤ p * q := by omega
  have hdiff : CryptoPP.gcd (p * q + r1 - r2) (p * q) = Int.gcd (r1 - r2) (p * q) := by
    rw [gcd_eq (by omega) hn, show (p * q + r1 - r2 : ℤ) = r1 - r2 + p * q by ring,
      Int.gcd_add_self_left]
  rw [hdiff, gcd_eq (by omega) hn]
  rcases TwoPrimes.gcd_eq_of_sq_modEq hp hq hpq hsq hsub hadd with ⟨ha, hb⟩ | ⟨ha, hb⟩
  · exact Or.inl ⟨by rw [ha], by rw [hb]⟩
  · exact Or.inr ⟨by rw [ha], by rw [hb]⟩

/-- The factors pass. -/
theorem passes_of_gcd
    (h : (CryptoPP.gcd (p * q + r1 - r2) (p * q) = p ∧ CryptoPP.gcd (r1 + r2) (p * q) = q) ∨
      (CryptoPP.gcd (p * q + r1 - r2) (p * q) = q ∧ CryptoPP.gcd (r1 + r2) (p * q) = p)) :
    Passes (p * q) r1 r2 := by
  unfold Passes
  rcases h with ⟨ha, hb⟩ | ⟨ha, hb⟩
  · rw [ha, hb]
  · rw [ha, hb, mul_comm]

end

/-! ## The loop -/

section
variable {Point : Type} (aes : Cipher) (keys : Vector Bytes32 L) (b : Buyer Point) (i : Fin L)

/-- Both ciphertexts of the index are open, and decrypt to the roots `r1` and `r2`. -/
def Decrypts (r1 r2 : ℤ) : Prop :=
  b.d1[i].m ≠ [] ∧ b.d2[i].m ≠ [] ∧ ∃ r1Bytes r2Bytes, aes.dec keys[i] b.d1[i].m = .ok r1Bytes ∧
    aes.dec keys[i] b.d2[i].m = .ok r2Bytes ∧ r1 = ofBytes r1Bytes ∧ r2 = ofBytes r2Bytes

/-- Both are open, and one of them does not decrypt. -/
def Undecryptable : Prop :=
  b.d1[i].m ≠ [] ∧ b.d2[i].m ≠ [] ∧ ∀ r1 r2, ¬ Decrypts aes keys b i r1 r2

/-- The loop goes on to the next index. -/
def Skipped : Prop :=
  b.d1[i].m = [] ∨ b.d2[i].m = [] ∨ ∃ r1 r2, Decrypts aes keys b i r1 r2 ∧ ¬ Passes b.n r1 r2

/-- The loop comes to this index. -/
def Reached : Prop := ∀ j < i, Skipped aes keys b j

/-- The roots of the index pass the test, but their difference or their sum is a multiple of `n`. -/
def PassesTrivially : Prop :=
  ∃ r1 r2, Decrypts aes keys b i r1 r2 ∧ Passes b.n r1 r2 ∧ (b.n ∣ r1 - r2 ∨ b.n ∣ r1 + r2)

variable {aes keys b i} {r1 r2 : ℤ}

theorem Decrypts.nonneg (h : Decrypts aes keys b i r1 r2) : 0 ≤ r1 ∧ 0 ≤ r2 := by
  obtain ⟨-, -, x1, x2, -, -, rfl, rfl⟩ := h
  exact ⟨Int.natCast_nonneg _, Int.natCast_nonneg _⟩

theorem Decrypts.unique {r1' r2' : ℤ} (h : Decrypts aes keys b i r1 r2)
    (h' : Decrypts aes keys b i r1' r2') : r1 = r1' ∧ r2 = r2' := by
  obtain ⟨-, -, x1, x2, hx1, hx2, rfl, rfl⟩ := h
  obtain ⟨-, -, x1', x2', hx1', hx2', rfl, rfl⟩ := h'
  cases hx1.symm.trans hx1'
  cases hx2.symm.trans hx2'
  exact ⟨rfl, rfl⟩

/-- What an index can be. -/
theorem index_cases (aes : Cipher) (keys : Vector Bytes32 L) (b : Buyer Point) (i : Fin L) :
    Skipped aes keys b i ∨ (∃ r1 r2, Decrypts aes keys b i r1 r2 ∧ Passes b.n r1 r2) ∨
      Undecryptable aes keys b i := by
  by_cases h1 : b.d1[i].m = []
  · exact Or.inl (Or.inl h1)
  by_cases h2 : b.d2[i].m = []
  · exact Or.inl (Or.inr (Or.inl h2))
  by_cases hdec : ∃ r1 r2, Decrypts aes keys b i r1 r2
  · obtain ⟨r1, r2, hdec⟩ := hdec
    by_cases hpass : Passes b.n r1 r2
    · exact Or.inr (Or.inl ⟨r1, r2, hdec, hpass⟩)
    · exact Or.inl (Or.inr (Or.inr ⟨r1, r2, hdec, hpass⟩))
  · exact Or.inr (Or.inr ⟨h1, h2, fun r1 r2 h => hdec ⟨r1, r2, h⟩⟩)

theorem Skipped.not_passes (h : Skipped aes keys b i) (hdec : Decrypts aes keys b i r1 r2) :
    ¬ Passes b.n r1 r2 := by
  rcases h with h | h | ⟨r1', r2', hdec', hpass⟩
  · exact absurd h hdec.1
  · exact absurd h hdec.2.1
  · obtain ⟨rfl, rfl⟩ := hdec.unique hdec'
    exact hpass

theorem Skipped.not_undecryptable (h : Skipped aes keys b i) : ¬ Undecryptable aes keys b i := by
  rintro ⟨h1, h2, hno⟩
  rcases h with h | h | ⟨r1, r2, hdec, -⟩
  · exact h1 h
  · exact h2 h
  · exact hno r1 r2 hdec

/-- The two numbers that the buyer keeps. -/
def Buyer.keep (b : Buyer Point) (r1 r2 : ℤ) : Buyer Point :=
  { b with p := CryptoPP.gcd (b.n + r1 - r2) b.n, q := CryptoPP.gcd (r1 + r2) b.n }

variable {l : List (Fin L)}

theorem factoriseLoop_of_decrypts (h : Decrypts aes keys b i r1 r2) :
    Buyer.factoriseLoop aes keys (i :: l) b =
      if Passes b.n r1 r2 then .ok () (b.keep r1 r2) else Buyer.factoriseLoop aes keys l b := by
  obtain ⟨h1, h2, x1, x2, hx1, hx2, rfl, rfl⟩ := h
  rw [Buyer.factoriseLoop, bind_of_ok (get_apply _), if_neg (not_or.2 ⟨h1, h2⟩), hx1, hx2,
    bind_of_ok (lift_ok _ _), bind_of_ok (lift_ok _ _)]
  by_cases hpass : Passes b.n (ofBytes x1) (ofBytes x2)
  · rw [if_pos hpass]
    exact congrFun (if_pos hpass) b
  · rw [if_neg hpass]
    exact congrFun (if_neg hpass) b

theorem factoriseLoop_of_skipped (h : Skipped aes keys b i) :
    Buyer.factoriseLoop aes keys (i :: l) b = Buyer.factoriseLoop aes keys l b := by
  rcases h with h | h | ⟨r1, r2, hdec, hpass⟩
  · rw [Buyer.factoriseLoop, bind_of_ok (get_apply _), if_pos (Or.inl h)]
  · rw [Buyer.factoriseLoop, bind_of_ok (get_apply _), if_pos (Or.inr h)]
  · rw [factoriseLoop_of_decrypts hdec, if_neg hpass]

theorem factoriseLoop_of_undecryptable (h : Undecryptable aes keys b i) :
    ∃ e, Buyer.factoriseLoop aes keys (i :: l) b = .error e b := by
  obtain ⟨h1, h2, hno⟩ := h
  rw [Buyer.factoriseLoop, bind_of_ok (get_apply _), if_neg (not_or.2 ⟨h1, h2⟩)]
  cases hx1 : aes.dec keys[i] b.d1[i].m with
  | error e => exact ⟨e, bind_of_error (lift_error _ _)⟩
  | ok x1 =>
    rw [bind_of_ok (lift_ok _ _)]
    cases hx2 : aes.dec keys[i] b.d2[i].m with
    | error e => exact ⟨e, bind_of_error (lift_error _ _)⟩
    | ok x2 => exact absurd ⟨h1, h2, x1, x2, hx1, hx2, rfl, rfl⟩ (hno _ _)

/-- The loop returns at the first index that it does not skip, if that one passes. -/
theorem factoriseLoop_eq_ok {b' : Buyer Point} :
    Buyer.factoriseLoop aes keys l b = .ok () b' ↔ ∃ pre i post, l = pre ++ i :: post ∧
      (∀ j ∈ pre, Skipped aes keys b j) ∧ ∃ r1 r2, Decrypts aes keys b i r1 r2 ∧
        Passes b.n r1 r2 ∧ b' = b.keep r1 r2 := by
  induction l with
  | nil =>
    constructor
    · intro h
      cases h
    · rintro ⟨pre, i, post, h, -⟩
      simp at h
  | cons i l ih =>
    rcases index_cases aes keys b i with hskip | ⟨r1, r2, hdec, hpass⟩ | hund
    · rw [factoriseLoop_of_skipped hskip, ih]
      constructor
      · rintro ⟨pre, k, post, rfl, hpre, hk⟩
        exact ⟨i :: pre, k, post, rfl, by simpa using ⟨hskip, hpre⟩, hk⟩
      · rintro ⟨pre, k, post, hl, hpre, hk⟩
        cases pre with
        | nil =>
          obtain ⟨rfl, -⟩ := List.cons.inj hl
          obtain ⟨r1, r2, hdec, hpass, -⟩ := hk
          exact absurd hpass (hskip.not_passes hdec)
        | cons j pre =>
          exact ⟨pre, k, post, (List.cons.inj hl).2, fun j hj => hpre j (List.mem_cons_of_mem _ hj), hk⟩
    · rw [factoriseLoop_of_decrypts hdec, if_pos hpass]
      constructor
      · intro h
        cases h
        exact ⟨[], i, l, rfl, by simp, r1, r2, hdec, hpass, rfl⟩
      · rintro ⟨pre, k, post, hl, hpre, r1', r2', hdec', -, rfl⟩
        cases pre with
        | nil =>
          obtain ⟨rfl, -⟩ := List.cons.inj hl
          obtain ⟨rfl, rfl⟩ := hdec.unique hdec'
          rfl
        | cons j pre =>
          obtain ⟨rfl, -⟩ := List.cons.inj hl
          exact absurd hpass ((hpre i List.mem_cons_self).not_passes hdec)
    · obtain ⟨e, he⟩ := factoriseLoop_of_undecryptable (l := l) hund
      rw [he]
      constructor
      · intro h
        cases h
      · rintro ⟨pre, k, post, hl, hpre, r1, r2, hdec, -⟩
        cases pre with
        | nil =>
          obtain ⟨rfl, -⟩ := List.cons.inj hl
          exact absurd hdec (hund.2.2 r1 r2)
        | cons j pre =>
          obtain ⟨rfl, -⟩ := List.cons.inj hl
          exact absurd hund (hpre i List.mem_cons_self).not_undecryptable

/-- The first index that is not skipped is one that the loop comes to. -/
theorem exists_reached_not_skipped (h : ¬ Skipped aes keys b i) :
    ∃ k, Reached aes keys b k ∧ ¬ Skipped aes keys b k := by
  obtain ⟨k, hk, hmin⟩ := wellFounded_lt.has_min { k | ¬ Skipped aes keys b k } ⟨i, h⟩
  exact ⟨k, fun j hj => not_not.1 fun hns => hmin j hns hj, hk⟩

variable {sha256 : Sha256}

theorem factorise_eq_ok {b' : Buyer Point} : Buyer.factorise sha256 aes b = .ok () b' ↔
    ∃ i r1 r2, Reached aes (genKeys sha256 b.signature) b i ∧
      Decrypts aes (genKeys sha256 b.signature) b i r1 r2 ∧ Passes b.n r1 r2 ∧ b' = b.keep r1 r2 := by
  unfold Buyer.factorise
  rw [bind_of_ok (get_apply _), factoriseLoop_eq_ok]
  constructor
  · rintro ⟨pre, i, post, hl, hpre, r1, r2, h⟩
    exact ⟨i, r1, r2, fun j hj => hpre j (((finRange_split hl).1 j).2 hj), h⟩
  · rintro ⟨i, r1, r2, hreach, h⟩
    obtain ⟨pre, post, hl⟩ := List.append_of_mem (List.mem_finRange i)
    exact ⟨pre, i, post, hl, fun j hj => hreach j (((finRange_split hl).1 j).1 hj), r1, r2, h⟩

/-- The factorisation changes the two factors alone, also when it fails. -/
theorem keeps_factorise {γ : Type} {f : Buyer Point → γ} (h : ∀ b p q, f { b with p, q } = f b) :
    Keeps f (Buyer.factorise sha256 aes) := by
  have hloop : ∀ (keys : Vector Bytes32 L) (l : List (Fin L)),
      Keeps f (Buyer.factoriseLoop aes keys l) := by
    intro keys l
    induction l with
    | nil => exact Keeps.throw
    | cons i l ih =>
      refine Keeps.bind Keeps.get fun b => ?_
      by_cases hopen : b.d1[i].m = [] ∨ b.d2[i].m = []
      · rw [if_pos hopen]
        exact ih
      rw [if_neg hopen]
      refine Keeps.bind Keeps.lift fun r1Bytes => ?_
      refine Keeps.bind Keeps.lift fun r2Bytes => ?_
      dsimp only
      split
      · exact Keeps.modify fun _ => h _ _ _
      · exact ih
  exact Keeps.bind Keeps.get fun _ => hloop _ _

/-- Where everything that is open decrypts, one index that passes makes the loop return, with a
pair that passes. -/
theorem factorise_of_passes (hund : ∀ j, ¬ Undecryptable aes (genKeys sha256 b.signature) b j)
    (hdec : Decrypts aes (genKeys sha256 b.signature) b i r1 r2) (hpass : Passes b.n r1 r2) :
    ∃ k s1 s2, Decrypts aes (genKeys sha256 b.signature) b k s1 s2 ∧ Passes b.n s1 s2 ∧
      Buyer.factorise sha256 aes b = .ok () (b.keep s1 s2) := by
  obtain ⟨k, hreach, hk⟩ := exists_reached_not_skipped
    fun hskip : Skipped aes (genKeys sha256 b.signature) b i => hskip.not_passes hdec hpass
  rcases index_cases aes (genKeys sha256 b.signature) b k with hskip | ⟨s1, s2, hdec', hpass'⟩ | hno
  · exact absurd hskip hk
  · exact ⟨k, s1, s2, hdec', hpass', factorise_eq_ok.2 ⟨k, s1, s2, hreach, hdec', hpass', rfl⟩⟩
  · exact absurd hno (hund k)

/-- Some index that the loop comes to decrypts to roots that pass. -/
def FindsPair (sha256 : Sha256) (aes : Cipher) (b : Buyer Point) : Prop :=
  ∃ i r1 r2, Reached aes (genKeys sha256 b.signature) b i ∧
    Decrypts aes (genKeys sha256 b.signature) b i r1 r2 ∧ Passes b.n r1 r2

theorem factorise_ok_iff :
    (∃ b', Buyer.factorise sha256 aes b = .ok () b') ↔ FindsPair sha256 aes b := by
  constructor
  · rintro ⟨b', h⟩
    obtain ⟨i, r1, r2, hreach, hdec, hpass, -⟩ := factorise_eq_ok.1 h
    exact ⟨i, r1, r2, hreach, hdec, hpass⟩
  · rintro ⟨i, r1, r2, hreach, hdec, hpass⟩
    exact ⟨_, factorise_eq_ok.2 ⟨i, r1, r2, hreach, hdec, hpass, rfl⟩⟩

end

/-! ## When it is a factorisation -/

section
variable {Point : Type} {sha256 : Sha256} {aes : Cipher} {b : Buyer Point}

/-- What is kept of an index is a factorisation unless it passes trivially. -/
theorem factored_keep_iff (hn : 1 < b.n) {keys : Vector Bytes32 L} {i : Fin L} {r1 r2 : ℤ}
    (hdec : Decrypts aes keys b i r1 r2) (hpass : Passes b.n r1 r2) :
    Factored b.n (b.keep r1 r2).p (b.keep r1 r2).q ↔ ¬ PassesTrivially aes keys b i := by
  rw [show Factored b.n (b.keep r1 r2).p (b.keep r1 r2).q ↔ _ from
    factored_iff hn hdec.nonneg.1 hdec.nonneg.2 hpass, ← not_or, not_iff_not]
  constructor
  · exact fun h => ⟨r1, r2, hdec, hpass, h⟩
  · rintro ⟨r1', r2', hdec', -, h⟩
    obtain ⟨rfl, rfl⟩ := hdec.unique hdec'
    exact h

/-- **Every return is a factorisation** exactly when no index that the loop comes to passes
the test trivially. -/
theorem factorise_factored_iff (hn : 1 < b.n) :
    (∀ b', Buyer.factorise sha256 aes b = .ok () b' → Factored b.n b'.p b'.q) ↔
      ∀ i, Reached aes (genKeys sha256 b.signature) b i →
        ¬ PassesTrivially aes (genKeys sha256 b.signature) b i := by
  constructor
  · intro h i hreach htriv
    obtain ⟨r1, r2, hdec, hpass, -⟩ := id htriv
    exact (factored_keep_iff hn hdec hpass).1
      (h _ (factorise_eq_ok.2 ⟨i, r1, r2, hreach, hdec, hpass, rfl⟩)) htriv
  · intro h b' hrun
    obtain ⟨i, r1, r2, hreach, hdec, hpass, rfl⟩ := factorise_eq_ok.1 hrun
    exact (factored_keep_iff hn hdec hpass).2 (h i hreach)

/-- An index whose ciphertexts are open and decrypt to roots of one number modulo `n`,
neither equal nor opposite. -/
def GoodIndex (aes : Cipher) (keys : Vector Bytes32 L) (b : Buyer Point) (i : Fin L) : Prop :=
  ∃ r1 r2, Decrypts aes keys b i r1 r2 ∧ r1 < b.n ∧ r2 < b.n ∧ r1 * r1 ≡ r2 * r2 [ZMOD b.n] ∧
    r1 ≠ r2 ∧ r1 + r2 ≠ b.n

/-- **One good index is enough** exactly when each index that the loop comes to decrypts, and
none of them passes the test trivially. -/
theorem factorise_of_good_iff {p q : ℕ} (hp : p.Prime) (hq : q.Prime) (hpq : p ≠ q)
    (hn : b.n = p * q) {good : Fin L}
    (hgood : GoodIndex aes (genKeys sha256 b.signature) b good) :
    (∃ b', Buyer.factorise sha256 aes b = .ok () b' ∧ Factored b.n b'.p b'.q) ↔
      ∀ i, Reached aes (genKeys sha256 b.signature) b i →
        ¬ Undecryptable aes (genKeys sha256 b.signature) b i ∧
          ¬ PassesTrivially aes (genKeys sha256 b.signature) b i := by
  have hn1 : 1 < b.n := by
    rw [hn]
    exact_mod_cast Nat.one_lt_mul_iff.2 ⟨hp.pos, hq.pos, Or.inl hp.one_lt⟩
  constructor
  · rintro ⟨b', hrun, hfactored⟩ i hreach
    obtain ⟨k, r1, r2, hreachk, hdec, hpass, rfl⟩ := factorise_eq_ok.1 hrun
    have htriv := (factored_keep_iff hn1 hdec hpass).1 hfactored
    rcases lt_trichotomy i k with hik | rfl | hik
    · have hskip := hreachk i hik
      exact ⟨hskip.not_undecryptable, fun ⟨_, _, hdeci, hpassi, _⟩ => hskip.not_passes hdeci hpassi⟩
    · exact ⟨fun hund => hund.2.2 r1 r2 hdec, htriv⟩
    · exact absurd hpass ((hreach k hik).not_passes hdec)
  · intro h
    obtain ⟨r1, r2, hdec, hlt1, hlt2, hsq, hne, hsum⟩ := hgood
    have hpass : Passes b.n r1 r2 := by
      rw [hn] at hlt1 hlt2 hsq hsum ⊢
      exact passes_of_gcd
        (gcd_of_distinct hp hq hpq hdec.nonneg.1 hlt1 hdec.nonneg.2 hlt2 hsq hne hsum)
    obtain ⟨i, hreach, hi⟩ := exists_reached_not_skipped
      fun hskip : Skipped aes (genKeys sha256 b.signature) b good => hskip.not_passes hdec hpass
    obtain ⟨hdecrypts, htriv⟩ := h i hreach
    rcases index_cases aes (genKeys sha256 b.signature) b i with hskip | ⟨s1, s2, hdeci, hpassi⟩ | hund
    · exact absurd hskip hi
    · exact ⟨_, factorise_eq_ok.2 ⟨i, s1, s2, hreach, hdeci, hpassi, rfl⟩,
        (factored_keep_iff hn1 hdeci hpassi).2 htriv⟩
    · exact absurd hund hdecrypts

end

/-! ## Fifteen -/

/-- A buyer of the factors of fifteen, for whom these ciphertexts were opened. -/
def fifteenBuyer (c1 c2 : Fin L → Bytes) : Buyer (ZMod 7) :=
  { Buyer.new 15 20000 (SingleBuyer.new (SharedSignature.B.ofPaillier
      (SharedSignature.Paillier.ofKey (521 * 523) (521 * 523 + 1)))) with
    d1 := Vector.ofFn fun i => { ShaCommitment.Receiver.new with m := c1 i }
    d2 := Vector.ofFn fun i => { ShaCommitment.Receiver.new with m := c2 i } }

/-- The ciphertext of a one-byte root at an index, and nothing at the others. -/
def onlyAt (i : Fin L) (r : UInt8) (j : Fin L) : Bytes :=
  if j = i then Cipher.blocks.enc (Vector.replicate 32 0) [r] else []

section
variable {c1 c2 : Fin L → Bytes} {keys : Vector Bytes32 L} {i : Fin L}

theorem decrypts_of_enc {r1 r2 : UInt8} (h1 : c1 i = Cipher.blocks.enc keys[i] [r1])
    (h2 : c2 i = Cipher.blocks.enc keys[i] [r2]) :
    Decrypts Cipher.blocks keys (fifteenBuyer c1 c2) i r1.toNat r2.toNat := by
  have hd1 : (fifteenBuyer c1 c2).d1[i].m = Cipher.blocks.enc keys[i] [r1] := by
    simp [fifteenBuyer, h1]
  have hd2 : (fifteenBuyer c1 c2).d2[i].m = Cipher.blocks.enc keys[i] [r2] := by
    simp [fifteenBuyer, h2]
  have hval : ∀ r : UInt8, (r.toNat : ℤ) = ofBytes [r] := fun r => by simp [ofBytes, Radix.ofBytes]
  refine ⟨?_, ?_, [r1], [r2], ?_, ?_, hval r1, hval r2⟩
  · rw [hd1]
    exact Cipher.lawful_blocks.enc_ne_nil _ _
  · rw [hd2]
    exact Cipher.lawful_blocks.enc_ne_nil _ _
  · rw [hd1]
    exact Cipher.lawful_blocks.dec_enc _ _
  · rw [hd2]
    exact Cipher.lawful_blocks.dec_enc _ _

theorem decrypts_onlyAt (keys : Vector Bytes32 L) (i : Fin L) (r1 r2 : UInt8) :
    Decrypts Cipher.blocks keys (fifteenBuyer (onlyAt i r1) (onlyAt i r2)) i r1.toNat r2.toNat :=
  decrypts_of_enc (if_pos rfl) (if_pos rfl)

/-- At the other indices nothing is open. -/
theorem not_decrypts_onlyAt {j : Fin L} (hj : j ≠ i) {r : UInt8} {r1 r2 : ℤ} :
    ¬ Decrypts Cipher.blocks keys (fifteenBuyer (onlyAt i r) c2) j r1 r2 := by
  rintro ⟨h, -⟩
  exact h (by simp [fifteenBuyer, onlyAt, hj])

theorem undecryptable_oneByte (h1 : c1 i = [0]) (h2 : c2 i = [0]) :
    Undecryptable Cipher.blocks keys (fifteenBuyer c1 c2) i := by
  have hd1 : (fifteenBuyer c1 c2).d1[i].m = [0] := by simp [fifteenBuyer, h1]
  have hd2 : (fifteenBuyer c1 c2).d2[i].m = [0] := by simp [fifteenBuyer, h2]
  refine ⟨by rw [hd1]; decide, by rw [hd2]; decide, ?_⟩
  rintro r1 r2 ⟨-, -, x1, -, hx1, -⟩
  rw [hd1] at hx1
  exact absurd hx1 (by simp [Cipher.blocks])

end

theorem zero_lt_L : 0 < L := by decide

/-- The first index. -/
def firstIndex : Fin L := ⟨0, zero_lt_L⟩

theorem reached_firstIndex {Point : Type} {aes : Cipher} {keys : Vector Bytes32 L}
    {b : Buyer Point} : Reached aes keys b firstIndex :=
  fun _ hj => absurd (Fin.lt_def.1 hj) (Nat.not_lt_zero _)

/-- One and four are neither equal nor opposite modulo fifteen. -/
theorem no_trivial_one_four (keys : Vector Bytes32 L) (i : Fin L) : ¬ PassesTrivially Cipher.blocks
    keys (fifteenBuyer (onlyAt firstIndex 1) (onlyAt firstIndex 4)) i := by
  rintro ⟨r1, r2, hdec, -, hdvd⟩
  by_cases hi : i = firstIndex
  · subst hi
    obtain ⟨rfl, rfl⟩ := hdec.unique (decrypts_onlyAt keys firstIndex 1 4)
    revert hdvd
    decide
  · exact not_decrypts_onlyAt hi hdec

theorem goodIndex_one_four {c1 c2 : Fin L → Bytes} {keys : Vector Bytes32 L} {i : Fin L}
    (h : Decrypts Cipher.blocks keys (fifteenBuyer c1 c2) i 1 4) :
    GoodIndex Cipher.blocks keys (fifteenBuyer c1 c2) i := by
  have hn : (fifteenBuyer c1 c2).n = 15 := rfl
  refine ⟨1, 4, h, ?_⟩
  rw [hn]
  decide

/-- With one index open, whose roots are one and four, every return is a factorisation. -/
theorem factorise_factored_one_four :
    (∀ i, Reached Cipher.blocks (genKeys (fun _ => Vector.replicate 32 0) [])
        (fifteenBuyer (onlyAt firstIndex 1) (onlyAt firstIndex 4)) i →
      ¬ PassesTrivially Cipher.blocks (genKeys (fun _ => Vector.replicate 32 0) [])
        (fifteenBuyer (onlyAt firstIndex 1) (onlyAt firstIndex 4)) i) ∧
    ∀ b', Buyer.factorise (fun _ => Vector.replicate 32 0) Cipher.blocks
        (fifteenBuyer (onlyAt firstIndex 1) (onlyAt firstIndex 4)) = .ok () b' →
      Factored 15 b'.p b'.q := by
  have htriv := no_trivial_one_four (genKeys (fun _ => Vector.replicate 32 0) [])
  exact ⟨fun i _ => htriv i, (factorise_factored_iff (by decide)).2 fun i _ => htriv i⟩

/-- Equal roots pass: the run returns with fifteen and one. -/
theorem not_factored_one_one : (15 : ℤ) = (3 : ℕ) * (5 : ℕ) ∧ Nat.Prime 3 ∧ Nat.Prime 5 ∧
    ∃ b', Buyer.factorise (fun _ => Vector.replicate 32 0) Cipher.blocks
        (fifteenBuyer (onlyAt firstIndex 1) (onlyAt firstIndex 1)) = .ok () b' ∧
      b'.p = 15 ∧ b'.q = 1 ∧ ¬ Factored 15 b'.p b'.q := by
  have hp : CryptoPP.gcd (15 + 1 - 1) 15 = 15 := gcd_eq (by decide) (by decide)
  have hq : CryptoPP.gcd (1 + 1) 15 = 1 := gcd_eq (by decide) (by decide)
  have hpass : Passes 15 1 1 := by rw [Passes, hp, hq, mul_one]
  refine ⟨by norm_num, Nat.prime_three, Nat.prime_five, _, factorise_eq_ok.2 ⟨firstIndex, _, _,
    reached_firstIndex, decrypts_onlyAt _ firstIndex 1 1, hpass, rfl⟩, hp, hq, ?_⟩
  exact fun h => absurd (hp ▸ h.1.2) (lt_irrefl _)

/-- With the first index alone open, and good, the buyer factors fifteen. -/
theorem factorise_of_good_one_four : Nat.Prime 3 ∧ Nat.Prime 5 ∧
    GoodIndex Cipher.blocks (genKeys (fun _ => Vector.replicate 32 0) [])
      (fifteenBuyer (onlyAt firstIndex 1) (onlyAt firstIndex 4)) firstIndex ∧
    ∃ b', Buyer.factorise (fun _ => Vector.replicate 32 0) Cipher.blocks
        (fifteenBuyer (onlyAt firstIndex 1) (onlyAt firstIndex 4)) = .ok () b' ∧
      Factored 15 b'.p b'.q := by
  have hgood := goodIndex_one_four (decrypts_onlyAt (genKeys (fun _ => Vector.replicate 32 0) [])
    firstIndex 1 4)
  have hn : (fifteenBuyer (onlyAt firstIndex 1) (onlyAt firstIndex 4)).n = (3 : ℕ) * (5 : ℕ) := by
    decide
  refine ⟨Nat.prime_three, Nat.prime_five, hgood, (factorise_of_good_iff Nat.prime_three
    Nat.prime_five (by decide) hn hgood).2 fun i _ => ⟨fun hund => ?_, no_trivial_one_four _ i⟩⟩
  by_cases hi : i = firstIndex
  · subst hi
    exact hund.2.2 1 4 (decrypts_onlyAt _ firstIndex 1 4)
  · exact hund.1 (by simp [fifteenBuyer, onlyAt, hi])

theorem one_lt_L : 1 < L := by decide

/-- The second index. -/
def secondIndex : Fin L := ⟨1, one_lt_L⟩

/-- One byte at the first index, which is no whole block, and the ciphertext of a root at the
second one. -/
def afterOneByte (r : UInt8) (j : Fin L) : Bytes :=
  if j = firstIndex then [0] else onlyAt secondIndex r j

/-- The second index is good, and the loop does not come to it. -/
theorem not_factorise_afterOneByte :
    GoodIndex Cipher.blocks (genKeys (fun _ => Vector.replicate 32 0) [])
      (fifteenBuyer (afterOneByte 1) (afterOneByte 4)) secondIndex ∧
    ¬ ∃ b', Buyer.factorise (fun _ => Vector.replicate 32 0) Cipher.blocks
        (fifteenBuyer (afterOneByte 1) (afterOneByte 4)) = .ok () b' ∧
      Factored 15 b'.p b'.q := by
  have hsecond : ∀ r, afterOneByte r secondIndex =
      Cipher.blocks.enc (genKeys (fun _ => Vector.replicate 32 0) [])[secondIndex] [r] := by
    intro r
    rw [afterOneByte, if_neg (by decide), onlyAt, if_pos rfl]
    rfl
  refine ⟨goodIndex_one_four (decrypts_of_enc (hsecond 1) (hsecond 4)), ?_⟩
  rintro ⟨b', hrun, -⟩
  obtain ⟨i, r1, r2, hreach, hdec, -⟩ := factorise_eq_ok.1 hrun
  have hund : Undecryptable Cipher.blocks (genKeys (fun _ => Vector.replicate 32 0) [])
      (fifteenBuyer (afterOneByte 1) (afterOneByte 4)) firstIndex := undecryptable_oneByte rfl rfl
  by_cases hi : i = firstIndex
  · subst hi
    exact hund.2.2 r1 r2 hdec
  · have hlt : firstIndex < i := Fin.lt_def.2 (Nat.pos_of_ne_zero fun h => hi (Fin.ext h))
    exact (hreach firstIndex hlt).not_undecryptable hund

end SellingInformation.Main
