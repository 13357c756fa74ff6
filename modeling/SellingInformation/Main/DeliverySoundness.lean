import SellingInformation.Lib.Guessing
import SellingInformation.Main.PreparedSeller

/-!
# What the delivery is worth against any seller

The seller commits to two ciphertexts for each index before it learns which half of the indices
the buyer looks at, and which of the two roots of each square the buyer knows.

* `Delivered.decrypts` — when both roots of an index could have been checked, and both of its
  ciphertexts are opened, the buyer can read both roots;
* `deliverWith_spoiled` — a seller that spoils one ciphertext passes for half of the buyer's draws,
  and `factorise` fails;
* `deliverWith_sound` — no seller does so for more of them.
-/

namespace SellingInformation.Main

open CryptoPP Common Fallible SellInformationProtocol Receivers

variable {Point σ : Type}

/-! ## The draws of the buyer -/

/-- The positions of the shuffled indices that the buyer keeps. -/
def firstHalf : Finset (Fin L) := Finset.univ.filter fun k => k.val < L / 2

/-- The draws of the buyer, when it has one of two roots for each square, and shuffles the
indices. -/
def SaleRandom.drawing (ρ : SaleRandom) (root : Fin L → Bool → ℤ) (d : Guessing.Draw (Fin L)) :
    SaleRandom :=
  { ρ with
    x := Vector.ofFn fun i => root i (d.1 i)
    subset := Vector.ofFn fun k : Fin (L / 2) => d.2 (k.castLE (Nat.div_le_self L 2)) }

section
variable {ρ : SaleRandom} {root : Fin L → Bool → ℤ} {d : Guessing.Draw (Fin L)} {i : Fin L}

theorem drawing_x : (ρ.drawing root d).x[i] = root i (d.1 i) := by
  simp [SaleRandom.drawing]

theorem mem_drawing_subset :
    i ∈ (ρ.drawing root d).subset.toList ↔ i ∈ Guessing.chosen firstHalf d.2 := by
  rw [Guessing.mem_chosen, firstHalf, Finset.mem_filter]
  simp only [SaleRandom.drawing, Vector.toList_ofFn, List.mem_ofFn, Finset.mem_univ, true_and]
  constructor
  · rintro ⟨k, rfl⟩
    rw [Equiv.symm_apply_apply]
    exact k.isLt
  · intro h
    refine ⟨⟨(d.2.symm i).val, h⟩, ?_⟩
    exact d.2.apply_symm_apply i

end

/-- Two different roots of one square, up to half of `n`. -/
structure TwoRoots (n : ℤ) (root : Bool → ℤ) : Prop where
  nonneg : ∀ bit, 0 ≤ root bit
  le : ∀ bit, 2 * root bit ≤ n
  sq : root false * root false % n = root true * root true % n
  ne : root false ≠ root true

/-- What is settled before the buyer draws: two roots for each square, and the hashes of the keys
that belong to the signature. -/
structure Offer (sha256 : Sha256) (signature : Bytes) (n : ℤ) (root : Fin L → Bool → ℤ)
    (keySeed : Fin L → Bytes32) (b : Buyer Point) : Prop where
  n_eq : b.n = n
  roots : ∀ i, TwoRoots n (root i)
  fresh : ∀ i : Fin L, b.d1[i].m = [] ∧ b.d2[i].m = []
  keys : ∀ i : Fin L, b.singleBuyer.keysCommits[i].com =
    ShaCommitment.computeSha sha256 (genKeys sha256 signature)[i].toList (keySeed i)

/-- With these draws the buyer lets the delivery pass, and holds `b'` after it. -/
def Delivered (sha256 : Sha256) (aes : Cipher) (seller : SellerSide σ) (ρ : SaleRandom)
    (root : Fin L → Bool → ℤ) (p : σ × Buyer Point) (d : Guessing.Draw (Fin L))
    (b' : Buyer Point) : Prop :=
  ∃ s', deliverWith sha256 seller (honestSide aes (ρ.drawing root d)) p = .ok () (s', b')

/-- The string that an opening is hashed from. -/
def preimage (r : ShaCommitment.Receiver) : Bytes := concatenate r.m r.seed.toList

/-- The strings that the keys are committed with, and those of the openings that the buyer has
accepted, whatever it drew. -/
def revealed (sha256 : Sha256) (aes : Cipher) (seller : SellerSide σ) (ρ : SaleRandom)
    (root : Fin L → Bool → ℤ) (signature : Bytes) (keySeed : Fin L → Bytes32)
    (p : σ × Buyer Point) : Set Bytes :=
  { m | (∃ i : Fin L, m = concatenate (genKeys sha256 signature)[i].toList (keySeed i).toList) ∨
    ∃ d b', Delivered sha256 aes seller ρ root p d b' ∧ ∃ (i : Fin L) (r : ShaCommitment.Receiver),
      (r = (b'.receivers i).key ∨ r = (b'.receivers i).d1 ∨ r = (b'.receivers i).d2) ∧
        Shown sha256 r ∧ m = preimage r }

section
variable {sha256 : Sha256} {aes : Cipher} {seller : SellerSide σ} {ρ : SaleRandom}
  {root : Fin L → Bool → ℤ} {signature : Bytes} {keySeed : Fin L → Bytes32} {n : ℤ}
  {p : σ × Buyer Point} {d d' : Guessing.Draw (Fin L)} {b b' : Buyer Point} {i : Fin L}

/-- **Binding.**  Without a collision, a hash is opened in one way only. -/
theorem Receivers.Shown.m_eq {r r' : ShaCommitment.Receiver} {S : Set Bytes} (h : Shown sha256 r)
    (h' : Shown sha256 r') (hinj : Set.InjOn sha256 S) (hr : preimage r ∈ S) (hr' : preimage r' ∈ S)
    (hcom : r'.com = r.com) : r'.m = r.m := by
  have hsha : sha256 (preimage r') = sha256 (preimage r) := by
    rw [h.com_eq, h'.com_eq] at hcom
    exact hcom
  exact (ShaCommitment.concatenate_seed_inj (hinj hr' hr hsha)).1

/-- What a delivery has shown of an index of the subset, and of another one. -/
structure Outcome (sha256 : Sha256) (aes : Cipher) (keys : Vector Bytes32 L)
    (root : Fin L → Bool → ℤ) (d : Guessing.Draw (Fin L)) (b : Buyer Point) : Prop where
  checked : ∀ i ∈ Guessing.chosen firstHalf d.2,
    (Shown sha256 (b.receivers i).d1 ∧ (b.receivers i).d2.m = [] ∧
      Reads aes keys[i].toList (b.receivers i).d1.m (root i (d.1 i))) ∨
    (Shown sha256 (b.receivers i).d2 ∧ (b.receivers i).d1.m = [] ∧
      Reads aes keys[i].toList (b.receivers i).d2.m (root i (d.1 i)))
  opened : ∀ i ∉ Guessing.chosen firstHalf d.2,
    Shown sha256 (b.receivers i).d1 ∧ Shown sha256 (b.receivers i).d2

theorem Delivered.outcome (h : Delivered sha256 aes seller ρ root p d b)
    (hoffer : Offer sha256 signature n root keySeed p.2)
    (hinj : Set.InjOn sha256 (revealed sha256 aes seller ρ root signature keySeed p)) :
    b.n = n ∧ Outcome sha256 aes (genKeys sha256 signature) root d b := by
  obtain ⟨s', hrun⟩ := id h
  obtain ⟨hn, hkey, hchecked, hopened⟩ := deliverWith_eq_ok hrun hoffer.fresh
  refine ⟨hn.trans hoffer.n_eq, fun i hi => ?_, fun i hi => ?_⟩
  · obtain ⟨t, ⟨ht1, ht2⟩, hcheck⟩ := hchecked i (mem_drawing_subset.2 hi)
    -- the key that has been opened is the one of the signature
    have hm : (b.receivers i).key.m = (genKeys sha256 signature)[i].toList := by
      have hsha : sha256 (preimage (b.receivers i).key) =
          sha256 (concatenate (genKeys sha256 signature)[i].toList (keySeed i).toList) := by
        have hcom := (hkey i).trans (hoffer.keys i)
        rw [hcheck.key.com_eq] at hcom
        exact hcom
      have hmem : preimage (b.receivers i).key ∈
          revealed sha256 aes seller ρ root signature keySeed p :=
        Or.inr ⟨d, b, h, i, _, Or.inl rfl, hcheck.key, rfl⟩
      exact (ShaCommitment.concatenate_seed_inj (hinj hmem (Or.inl ⟨i, rfl⟩) hsha)).1
    rw [← hm, ← @drawing_x ρ root d i]
    rcases hcheck.root with ⟨hshown, hother, hreads⟩ | ⟨hshown, hother, hreads⟩
    · exact Or.inl ⟨hshown, hother ▸ ht2, hreads⟩
    · exact Or.inr ⟨hshown, hother ▸ ht1, hreads⟩
  · exact hopened i fun hmem => hi (mem_drawing_subset.1 hmem)

theorem Delivered.sameComs (h : Delivered sha256 aes seller ρ root p d b)
    (h' : Delivered sha256 aes seller ρ root p d' b')
    (hoffer : Offer sha256 signature n root keySeed p.2) (i : Fin L) :
    SameComs (b.receivers i) (b'.receivers i) := by
  obtain ⟨_, hrun⟩ := h
  obtain ⟨_, hrun'⟩ := h'
  have hsq : ∀ (i : Fin L) bit, root i bit * root i bit % n = root i false * root i false % n := by
    intro i bit
    cases bit with
    | false => rfl
    | true => exact (hoffer.roots i).sq.symm
  refine coms_eq hrun hrun' (fun j => ?_) i
  rw [drawing_x, drawing_x, hoffer.n_eq, hsq j (d'.1 j), hsq j (d.1 j)]

theorem Receivers.Reads.unique {key c : Bytes} {x y : ℤ} (h : Reads aes key c x)
    (h' : Reads aes key c y) : x = y := by
  obtain ⟨bytes, hdec, rfl⟩ := h
  obtain ⟨bytes', hdec', rfl⟩ := h'
  cases hdec.symm.trans hdec'
  rfl

/-- What the keys read off the two ciphertexts of an index. -/
theorem decrypts_of_reads {keys : Vector Bytes32 L} {r1 r2 : ℤ}
    (hnil : ∀ key bytes, aes.dec key [] ≠ .ok bytes)
    (h1 : Reads aes keys[i].toList (b.receivers i).d1.m r1)
    (h2 : Reads aes keys[i].toList (b.receivers i).d2.m r2) : Decrypts aes keys b i r1 r2 := by
  obtain ⟨bytes1, hdec1, hr1⟩ := h1
  obtain ⟨bytes2, hdec2, hr2⟩ := h2
  rw [dec_toList] at hdec1 hdec2
  refine ⟨fun hempty => ?_, fun hempty => ?_, bytes1, bytes2, hdec1, hdec2, hr1.symm, hr2.symm⟩
  · have hm : (b.receivers i).d1.m = [] := hempty
    exact hnil _ _ (hm ▸ hdec1)
  · have hm : (b.receivers i).d2.m = [] := hempty
    exact hnil _ _ (hm ▸ hdec2)

/-- Both roots of the index can be checked, for some draws. -/
def Good (sha256 : Sha256) (aes : Cipher) (seller : SellerSide σ) (ρ : SaleRandom)
    (root : Fin L → Bool → ℤ) (p : σ × Buyer Point) (i : Fin L) : Prop :=
  ∀ bit, ∃ d b, Delivered sha256 aes seller ρ root p d b ∧ i ∈ Guessing.chosen firstHalf d.2 ∧
    d.1 i = bit

/-- **Extraction.**  When both roots of an index could have been checked, its two ciphertexts are
those of the two roots; and a delivery that opens both of them lets the buyer read both. -/
theorem Delivered.decrypts (h : Delivered sha256 aes seller ρ root p d b)
    (hoffer : Offer sha256 signature n root keySeed p.2)
    (hnil : ∀ key bytes, aes.dec key [] ≠ .ok bytes)
    (hinj : Set.InjOn sha256 (revealed sha256 aes seller ρ root signature keySeed p))
    (hi : i ∉ Guessing.chosen firstHalf d.2) (hgood : Good sha256 aes seller ρ root p i) :
    ∃ bit, Decrypts aes (genKeys sha256 signature) b i (root i bit) (root i !bit) := by
  obtain ⟨hshown1, hshown2⟩ := (h.outcome hoffer hinj).2.opened i hi
  obtain ⟨dA, bA, hA, hiA, hbitA⟩ := hgood false
  obtain ⟨dB, bB, hB, hiB, hbitB⟩ := hgood true
  have hcheckA := (hA.outcome hoffer hinj).2.checked i hiA
  have hcheckB := (hB.outcome hoffer hinj).2.checked i hiB
  rw [hbitA] at hcheckA
  rw [hbitB] at hcheckB
  have hcomA := h.sameComs hA hoffer i
  have hcomB := h.sameComs hB hoffer i
  have hne := (hoffer.roots i).ne
  -- every opening of one hash is the one that this delivery has seen
  have hm1 : ∀ {d' b'}, Delivered sha256 aes seller ρ root p d' b' →
      Shown sha256 (b'.receivers i).d1 → SameComs (b.receivers i) (b'.receivers i) →
        (b'.receivers i).d1.m = (b.receivers i).d1.m :=
    fun h' hs hcom => hshown1.m_eq hs hinj
      (Or.inr ⟨d, b, h, i, _, Or.inr (Or.inl rfl), hshown1, rfl⟩)
      (Or.inr ⟨_, _, h', i, _, Or.inr (Or.inl rfl), hs, rfl⟩) hcom.d1
  have hm2 : ∀ {d' b'}, Delivered sha256 aes seller ρ root p d' b' →
      Shown sha256 (b'.receivers i).d2 → SameComs (b.receivers i) (b'.receivers i) →
        (b'.receivers i).d2.m = (b.receivers i).d2.m :=
    fun h' hs hcom => hshown2.m_eq hs hinj
      (Or.inr ⟨d, b, h, i, _, Or.inr (Or.inr rfl), hshown2, rfl⟩)
      (Or.inr ⟨_, _, h', i, _, Or.inr (Or.inr rfl), hs, rfl⟩) hcom.d2
  rcases hcheckA with ⟨hsA, -, hrA⟩ | ⟨hsA, -, hrA⟩
  · rw [hm1 hA hsA hcomA] at hrA
    rcases hcheckB with ⟨hsB, -, hrB⟩ | ⟨hsB, -, hrB⟩
    · rw [hm1 hB hsB hcomB] at hrB
      exact absurd (hrA.unique hrB) hne
    · rw [hm2 hB hsB hcomB] at hrB
      exact ⟨false, decrypts_of_reads hnil hrA hrB⟩
  · rw [hm2 hA hsA hcomA] at hrA
    rcases hcheckB with ⟨hsB, -, hrB⟩ | ⟨hsB, -, hrB⟩
    · rw [hm1 hB hsB hcomB] at hrB
      exact ⟨true, decrypts_of_reads hnil hrB hrA⟩
    · rw [hm2 hB hsB hcomB] at hrB
      exact absurd (hrA.unique hrB) hne

/-- Where only one root of an index can be checked, it is the one that the buyer had. -/
theorem Delivered.eq_of_not_good (h : Delivered sha256 aes seller ρ root p d b)
    (h' : Delivered sha256 aes seller ρ root p d' b') (hi : i ∈ Guessing.chosen firstHalf d.2)
    (hi' : i ∈ Guessing.chosen firstHalf d'.2) (hgood : ¬ Good sha256 aes seller ρ root p i) :
    d'.1 i = d.1 i := by
  by_contra hne
  refine hgood fun bit => ?_
  by_cases hbit : d.1 i = bit
  · exact ⟨d, b, h, hi, hbit⟩
  · refine ⟨d', b', h', hi', ?_⟩
    rw [Bool.eq_not_of_ne hne, Bool.eq_not_of_ne (Ne.symm hbit)]

/-- **What the seller has settled**, before the buyer draws: the indices that are good, and for each
of the others the one root that can be checked. -/
theorem exists_settled (sha256 : Sha256) (aes : Cipher) (seller : SellerSide σ) (ρ : SaleRandom)
    (root : Fin L → Bool → ℤ) (p : σ × Buyer Point) : ∃ (good : Finset (Fin L)) (bit : Fin L → Bool),
      (∀ i, i ∈ good ↔ Good sha256 aes seller ρ root p i) ∧
        ∀ d b, Delivered sha256 aes seller ρ root p d b →
          ∀ i ∈ Guessing.chosen firstHalf d.2 \ good, d.1 i = bit i := by
  classical
  refine ⟨Finset.univ.filter fun i => Good sha256 aes seller ρ root p i,
    fun i => decide (∃ d b, Delivered sha256 aes seller ρ root p d b ∧
      i ∈ Guessing.chosen firstHalf d.2 ∧ d.1 i = true), fun i => by simp, ?_⟩
  intro d b h i hi
  simp only [Finset.mem_sdiff, Finset.mem_filter, Finset.mem_univ, true_and] at hi
  obtain ⟨hi, hnot⟩ := hi
  by_cases htrue : ∃ d b, Delivered sha256 aes seller ρ root p d b ∧
      i ∈ Guessing.chosen firstHalf d.2 ∧ d.1 i = true
  · obtain ⟨d', b', h', hi', hd'⟩ := id htrue
    rw [h'.eq_of_not_good h hi' hi hnot, hd']
    exact (decide_eq_true htrue).symm
  · have hfalse : d.1 i = false := by
      by_contra hne
      exact htrue ⟨d, b, h, hi, by simpa using hne⟩
    rw [hfalse]
    exact (decide_eq_false htrue).symm

end

/-! ## What the buyer gets -/

/-- `p` and `q`, in either order. -/
def AreFactors (p q : ℕ) (a b : ℤ) : Prop := (a = p ∧ b = q) ∨ (a = q ∧ b = p)

/-- With the signature, `factorise` returns and leaves the factors. -/
def GetsFactors (sha256 : Sha256) (aes : Cipher) (signature : Bytes) (p q : ℕ) (b : Buyer Point) :
    Prop :=
  ∃ b', Buyer.factorise sha256 aes { b with signature } = .ok () b' ∧ AreFactors p q b'.p b'.q

/-- With the keys, the factors can be computed from the two ciphertexts of some index. -/
def HoldsFactors (aes : Cipher) (keys : Vector Bytes32 L) (p q : ℕ) (b : Buyer Point) : Prop :=
  ∃ i r1 r2, Decrypts aes keys b i r1 r2 ∧
    AreFactors p q (CryptoPP.gcd (b.n + r1 - r2) b.n) (CryptoPP.gcd (r1 + r2) b.n)

theorem TwoRoots.areFactors {p q : ℕ} {root : Bool → ℤ} (h : TwoRoots (p * q) root)
    (hp : p.Prime) (hq : q.Prime) (hpq : p ≠ q) (bit : Bool) :
    AreFactors p q (CryptoPP.gcd (p * q + root bit - root !bit) (p * q))
      (CryptoPP.gcd (root bit + root !bit) (p * q)) := by
  have hsq : root bit * root bit ≡ root (!bit) * root (!bit) [ZMOD p * q] := by
    cases bit with
    | false => exact h.sq
    | true => exact h.sq.symm
  have hne : root bit ≠ root !bit := by
    cases bit with
    | false => exact h.ne
    | true => exact h.ne.symm
  exact gcd_of_ne hp hq hpq (h.nonneg _) (h.nonneg _) (h.le _) (h.le _) hsq hne

/-! ## A seller that spoils a ciphertext -/

/-- For each index the ciphertexts of its two roots under its key, where the second one of the
first index is `bad`. -/
def spoiled (aes : Cipher) (keys : Vector Bytes32 L) (keySeed : Fin L → Bytes32)
    (root : Fin L → Bool → ℤ) (bad : Bytes) : Prepared where
  key i := { ShaCommitment.Sender.new with m := keys[i].toList, seed := keySeed i }
  d1 i := { ShaCommitment.Sender.new with m := aes.enc keys[i] (toBytes (root i false)) }
  d2 i := { ShaCommitment.Sender.new with
    m := if i = firstIndex then bad else aes.enc keys[i] (toBytes (root i true)) }
  answer i x := if x = root i false then 1 else 2

section
variable {sha256 : Sha256} {aes : Cipher} {ρ : SaleRandom} {root : Fin L → Bool → ℤ}
  {signature : Bytes} {keySeed : Fin L → Bytes32} {keys : Vector Bytes32 L} {bad : Bytes} {n : ℤ}
  {p q : ℕ} {b b' : Buyer Point} {d : Guessing.Draw (Fin L)} {i : Fin L}

theorem drawing_subset_nodup : (ρ.drawing root d).subset.toList.Nodup := by
  simp only [SaleRandom.drawing, Vector.toList_ofFn, List.nodup_ofFn]
  exact d.2.injective.comp (Fin.castLE_injective _)

theorem reads_enc (haes : aes.Lawful) {key : Bytes32} {x : ℤ} (hx : 0 ≤ x) :
    Reads aes key.toList (aes.enc key (toBytes x)) x :=
  dec_root haes hx (enc_toList _ _ _)

/-- What has not been spoiled can be checked. -/
theorem spoiled_answers (haes : aes.Lawful) (hroots : TwoRoots n (root i)) (hi : i ≠ firstIndex)
    (bit : Bool) : (spoiled aes keys keySeed root bad).Answers aes i (root i bit) := by
  cases bit with
  | false => exact Or.inl ⟨if_pos rfl, reads_enc haes (hroots.nonneg false)⟩
  | true =>
    refine Or.inr ⟨if_neg hroots.ne.symm, ?_⟩
    have hm : ((spoiled aes keys keySeed root bad).d2 i).m =
        aes.enc keys[i] (toBytes (root i true)) := if_neg hi
    rw [hm]
    exact reads_enc haes (hroots.nonneg true)

/-- What has not been spoiled can be read, when both ciphertexts are open. -/
theorem spoiled_decrypts (haes : aes.Lawful) (hroots : TwoRoots n (root i)) (hi : i ≠ firstIndex)
    (h1 : (b.receivers i).d1.m = ((spoiled aes keys keySeed root bad).d1 i).m)
    (h2 : (b.receivers i).d2.m = ((spoiled aes keys keySeed root bad).d2 i).m) :
    Decrypts aes keys b i (root i false) (root i true) := by
  have hm1 : b.d1[i].m = aes.enc keys[i] (toBytes (root i false)) := h1
  have hm2 : b.d2[i].m = aes.enc keys[i] (toBytes (root i true)) := h2.trans (if_neg hi)
  refine ⟨?_, ?_, _, _, ?_, ?_, (ofBytes_toBytes_of_nonneg (hroots.nonneg false)).symm,
    (ofBytes_toBytes_of_nonneg (hroots.nonneg true)).symm⟩
  · rw [hm1]
    exact haes.enc_ne_nil _ _
  · rw [hm2]
    exact haes.enc_ne_nil _ _
  · rw [hm1]
    exact haes.dec_enc _ _
  · rw [hm2]
    exact haes.dec_enc _ _

/-- Where the first index is open and does not decrypt, `factorise` does not return. -/
theorem not_getsFactors (hund : Undecryptable aes (genKeys sha256 signature) b firstIndex) :
    ¬ GetsFactors sha256 aes signature p q b := by
  rintro ⟨b', hrun, -⟩
  obtain ⟨i, r1, r2, hreach, hdec, -⟩ := factorise_eq_ok.1 hrun
  by_cases hi : i = firstIndex
  · subst hi
    exact hund.2.2 r1 r2 hdec
  · have hlt : firstIndex < i := Fin.lt_def.2 (Nat.pos_of_ne_zero fun h => hi (Fin.ext h))
    exact (hreach firstIndex hlt).not_undecryptable hund

/-- Some index other than the first one is not looked at. -/
theorem exists_not_chosen (d : Guessing.Draw (Fin L)) :
    ∃ i ∉ Guessing.chosen firstHalf d.2, i ≠ firstIndex := by
  have hcard : 1 < (Guessing.chosen firstHalf d.2)ᶜ.card := by
    rw [Finset.card_compl, Guessing.card_chosen, Fintype.card_fin]
    decide
  obtain ⟨i, hi, hne⟩ := Finset.exists_mem_ne hcard firstIndex
  exact ⟨i, Finset.mem_compl.1 hi, hne⟩

/-- **The bound is attained.**  A seller that has spoiled one ciphertext passes for half of the
buyer's draws with that index not looked at; the buyer holds the factors, and `factorise` fails. -/
theorem deliverWith_spoiled (haes : aes.Lawful) (hp : p.Prime) (hq : q.Prime) (hpq : p ≠ q)
    (hoffer : Offer sha256 signature (p * q) root keySeed b) (hbad : bad ≠ [])
    (hdec : ∀ bytes, aes.dec (genKeys sha256 signature)[firstIndex] bad ≠ .ok bytes) :
    Fintype.card (Guessing.Draw (Fin L)) ≤ 2 * { d | ∃ b', Delivered sha256 aes
      ((spoiled aes (genKeys sha256 signature) keySeed root bad).side sha256) ρ root ((), b) d b' ∧
        HoldsFactors aes (genKeys sha256 signature) p q b' ∧
          ¬ GetsFactors sha256 aes signature p q b' }.ncard := by
  have hhalf : 2 * firstHalf.card = Fintype.card (Fin L) := by decide
  refine Guessing.card_draw_le_of_left_out hhalf firstIndex fun d hd => ?_
  have hans : ∀ i ∈ (ρ.drawing root d).subset.toList,
      (spoiled aes (genKeys sha256 signature) keySeed root bad).Answers aes i
        (ρ.drawing root d).x[i] := by
    intro i hi
    rw [drawing_x]
    refine spoiled_answers haes (hoffer.roots i) ?_ _
    rintro rfl
    exact hd (mem_drawing_subset.1 hi)
  have hkey : ∀ i, (b.receivers i).key.com = hashOf sha256
      ((spoiled aes (genKeys sha256 signature) keySeed root bad).key i) := hoffer.keys
  obtain ⟨⟨s', b'⟩, hrun, hopened⟩ := exists_deliverWith drawing_subset_nodup hkey hans
  have hm : ∀ i ∉ Guessing.chosen firstHalf d.2,
      (b'.receivers i).d1.m = ((spoiled aes (genKeys sha256 signature) keySeed root bad).d1 i).m ∧
        (b'.receivers i).d2.m =
          ((spoiled aes (genKeys sha256 signature) keySeed root bad).d2 i).m :=
    fun i hi => hopened i fun hmem => hi (mem_drawing_subset.1 hmem)
  obtain ⟨hn, -⟩ := deliverWith_eq_ok hrun hoffer.fresh
  refine ⟨b', ⟨s', hrun⟩, ?_, not_getsFactors ?_⟩
  · obtain ⟨i, hi, hne⟩ := exists_not_chosen d
    have hnb : b'.n = p * q := hn.trans hoffer.n_eq
    refine ⟨i, _, _, spoiled_decrypts haes (hoffer.roots i) hne (hm i hi).1 (hm i hi).2, ?_⟩
    rw [hnb]
    exact (hoffer.roots i).areFactors hp hq hpq false
  · have hspoiled : ((spoiled aes (genKeys sha256 signature) keySeed root bad).d2 firstIndex).m =
        bad := by simp [spoiled]
    have hm1 : b'.d1[firstIndex].m = aes.enc (genKeys sha256 signature)[firstIndex]
        (toBytes (root firstIndex false)) := (hm firstIndex hd).1
    have hm2 : b'.d2[firstIndex].m = bad := (hm firstIndex hd).2.trans hspoiled
    refine ⟨?_, ?_, ?_⟩
    · rw [hm1]
      exact haes.enc_ne_nil _ _
    · rw [hm2]
      exact hbad
    · rintro r1 r2 ⟨-, -, _, bytes, -, hbytes, -⟩
      rw [hm2] at hbytes
      exact hdec bytes hbytes

end

/-- A buyer of fifteen, with the hashes of the keys of the empty signature. -/
def offeredBuyer (sha256 : Sha256) : Buyer (ZMod 7) :=
  Buyer.new 15 20000 { smallParties.2 with
    keysCommits := (genKeys sha256 []).map fun key => { ShaCommitment.Receiver.new with
      com := ShaCommitment.computeSha sha256 key.toList (Vector.replicate 32 0) } }

/-- Two roots of one, modulo fifteen. -/
def oneOrFour (bit : Bool) : ℤ := if bit then 4 else 1

theorem offer_fifteen (sha256 : Sha256) : Offer sha256 [] ((3 : ℕ) * (5 : ℕ)) (fun _ => oneOrFour)
    (fun _ => Vector.replicate 32 0) (offeredBuyer sha256) := by
  refine ⟨rfl, fun i => ⟨by decide, by decide, by decide, by decide⟩, fun i => ?_, fun i => ?_⟩
  · simp [offeredBuyer, Buyer.new, ShaCommitment.Receiver.new]
  · simp [offeredBuyer, Buyer.new, ShaCommitment.computeSha]

/-- The seller that spoils the ciphertext of a four with one byte, which is no whole block. -/
def spoiledFifteen (sha256 : Sha256) : SellerSide Unit :=
  (spoiled Cipher.blocks (genKeys sha256 []) (fun _ => Vector.replicate 32 0) (fun _ => oneOrFour)
    [0]).side sha256

/-- A hash that tells the strings of a list apart from each other and from all others. -/
def listHash (l : List Bytes) : Sha256 := fun m =>
  Vector.replicate 32 (if m ∈ l then UInt8.ofNat (l.idxOf m + 1) else 0)

theorem listHash_of_notMem {l : List Bytes} {m : Bytes} (h : m ∉ l) :
    listHash l m = Vector.replicate 32 0 := by
  rw [listHash, if_neg h]

theorem listHash_inj {l : List Bytes} (hl : l.length < 255) {m m' : Bytes} (hm' : m' ∈ l)
    (h : listHash l m = listHash l m') : m = m' := by
  have hbyte : (if m ∈ l then UInt8.ofNat (l.idxOf m + 1) else 0) = UInt8.ofNat (l.idxOf m' + 1) := by
    have h0 := congrArg (fun v : Bytes32 => v[0]) h
    simpa [listHash, hm'] using h0
  have hlt' := List.idxOf_lt_length_of_mem hm'
  have hnat := congrArg UInt8.toNat hbyte
  rw [UInt8.toNat_ofNat', Nat.mod_eq_of_lt (by omega)] at hnat
  by_cases hm : m ∈ l
  · have hlt := List.idxOf_lt_length_of_mem hm
    rw [if_pos hm, UInt8.toNat_ofNat', Nat.mod_eq_of_lt (by omega)] at hnat
    exact (List.idxOf_inj hm).1 (by omega)
  · rw [if_neg hm] at hnat
    exact absurd hnat (by simp)

/-- What the seller of fifteen commits to, with the keys. -/
def spoiledStrings : List Bytes :=
  let zeros : Bytes32 := Vector.replicate 32 0
  [zeros.toList, Cipher.blocks.enc zeros (toBytes 1), Cipher.blocks.enc zeros (toBytes 4), [0]].map
    fun m => concatenate m zeros.toList

/-- `deliverWith_spoiled` with this hash. -/
theorem deliverWith_spoiled_fifteen :
    Fintype.card (Guessing.Draw (Fin L)) ≤ 2 * { d | ∃ b', Delivered (listHash spoiledStrings)
      Cipher.blocks (spoiledFifteen (listHash spoiledStrings)) fifteenRandom (fun _ => oneOrFour)
        ((), offeredBuyer (listHash spoiledStrings)) d b' ∧
      HoldsFactors Cipher.blocks (genKeys (listHash spoiledStrings) []) 3 5 b' ∧
        ¬ GetsFactors (listHash spoiledStrings) Cipher.blocks [] 3 5 b' }.ncard := by
  refine deliverWith_spoiled Cipher.lawful_blocks Nat.prime_three Nat.prime_five (by decide)
    (offer_fifteen _) (by decide) fun bytes hbytes => ?_
  exact absurd hbytes (by simp [Cipher.blocks])

section
variable {sha256 : Sha256} {aes : Cipher} {s : Prepared} {ρ : SaleRandom} {root : Fin L → Bool → ℤ}
  {signature : Bytes} {keySeed : Fin L → Bytes32} {b : Buyer Point} {S : Set Bytes}

/-- A prepared seller reveals what is prepared, where nothing else has the same hash. -/
theorem revealed_subset
    (hkey : ∀ i, (b.receivers i).key.com = hashOf sha256 (s.key i))
    (honly : ∀ m' ∈ S, ∀ m, sha256 m = sha256 m' → m = m')
    (hsign : ∀ i : Fin L, concatenate (genKeys sha256 signature)[i].toList (keySeed i).toList ∈ S)
    (hprepared : ∀ i, ∀ snd ∈ [s.key i, s.d1 i, s.d2 i], concatenate snd.m snd.seed.toList ∈ S) :
    revealed sha256 aes (s.side sha256) ρ root signature keySeed ((), b) ⊆ S := by
  rintro m (⟨i, rfl⟩ | ⟨d, b', ⟨s', hrun⟩, i, r, hr, hshown, rfl⟩)
  · exact hsign i
  have hheld := held_of_deliverWith hkey hrun
  obtain ⟨snd, hmem, hcom⟩ : ∃ snd ∈ [s.key i, s.d1 i, s.d2 i], r.com = hashOf sha256 snd := by
    rcases hr with rfl | rfl | rfl
    · exact ⟨_, by simp, hheld.key i⟩
    · exact ⟨_, by simp, hheld.d1 i⟩
    · exact ⟨_, by simp, hheld.d2 i⟩
  have hsha : sha256 (preimage r) = sha256 (concatenate snd.m snd.seed.toList) := by
    rw [hshown.com_eq] at hcom
    exact hcom
  rw [honly _ (hprepared i snd hmem) _ hsha]
  exact hprepared i snd hmem

end

/-- The keys of the empty signature are all the same. -/
theorem genKeys_listHash :
    genKeys (listHash spoiledStrings) [] = Vector.replicate L (Vector.replicate 32 0) := by
  refine Vector.ext fun i hi => ?_
  rw [Vector.getElem_replicate, genKeys, Vector.getElem_ofFn]
  refine listHash_of_notMem fun hmem => ?_
  -- one byte is shorter than a seed
  obtain ⟨m, -, heq⟩ := List.mem_map.1 hmem
  have hlong := congrArg List.length heq
  have hbytes : byteCount (i : ℕ) ≤ 1 := by
    refine Radix.byteLength_le_iff.2 ?_
    have hlt : i < 10 := hi
    rw [Int.natAbs_natCast]
    omega
  simp [concatenate, toBytes, encode, minEncodedSize] at hlong
  omega

theorem revealed_spoiledFifteen : revealed (listHash spoiledStrings) Cipher.blocks
    (spoiledFifteen (listHash spoiledStrings)) fifteenRandom (fun _ => oneOrFour) []
      (fun _ => Vector.replicate 32 0) ((), offeredBuyer (listHash spoiledStrings)) ⊆
        { m | m ∈ spoiledStrings } := by
  refine revealed_subset (offer_fifteen _).keys
    (fun m' hm' m h => listHash_inj (by decide) hm' h) ?_ ?_
  · intro i
    rw [genKeys_listHash]
    simp [spoiledStrings]
  · intro i snd hsnd
    rw [genKeys_listHash] at hsnd
    simp only [spoiled, oneOrFour, ShaCommitment.Sender.new, List.mem_cons, List.not_mem_nil,
      or_false] at hsnd
    rcases hsnd with rfl | rfl | rfl
    · simp [spoiledStrings]
    · simp [spoiledStrings]
    · by_cases hi : i = firstIndex
      · simp [spoiledStrings, hi]
      · simp [spoiledStrings, hi]

/-! ## Soundness -/

section
variable {sha256 : Sha256} {aes : Cipher} {seller : SellerSide σ} {ρ : SaleRandom}
  {root : Fin L → Bool → ℤ} {signature : Bytes} {keySeed : Fin L → Bytes32} {p q : ℕ}
  {st : σ × Buyer Point} {d : Guessing.Draw (Fin L)} {b : Buyer Point} {i : Fin L}

/-- An index of the subset is skipped: one of its ciphertexts is not open. -/
theorem Outcome.skipped {keys : Vector Bytes32 L} (h : Outcome sha256 aes keys root d b)
    (hi : i ∈ Guessing.chosen firstHalf d.2) : Skipped aes keys b i := by
  rcases h.checked i hi with ⟨-, hother, -⟩ | ⟨-, hother, -⟩
  · exact Or.inr (Or.inl hother)
  · exact Or.inl hother

/-- When every index outside the subset gives the factors, `factorise` finds them. -/
theorem getsFactors_of_forall (hout : Outcome sha256 aes (genKeys sha256 signature) root d b)
    (hall : ∀ i ∉ Guessing.chosen firstHalf d.2, ∃ r1 r2,
      Decrypts aes (genKeys sha256 signature) b i r1 r2 ∧ b.n = p * q ∧
        AreFactors p q (CryptoPP.gcd (p * q + r1 - r2) (p * q)) (CryptoPP.gcd (r1 + r2) (p * q))) :
    GetsFactors sha256 aes signature p q b := by
  -- the subset is not all of the indices
  have hex : ∃ i : Fin L, i ∉ Guessing.chosen firstHalf d.2 := by
    by_contra hno
    push Not at hno
    have hcard : (Guessing.chosen firstHalf d.2).card = L := by
      rw [Finset.eq_univ_of_forall hno, Finset.card_univ, Fintype.card_fin]
    rw [Guessing.card_chosen] at hcard
    exact absurd hcard (by decide)
  obtain ⟨i, hi, hmin⟩ := wellFounded_lt.has_min { i : Fin L | i ∉ Guessing.chosen firstHalf d.2 } hex
  obtain ⟨r1, r2, hdec, hn, hfactors⟩ := hall i hi
  have hreached : Reached aes (genKeys sha256 signature) b i := by
    intro j hj
    refine hout.skipped ?_
    by_contra hno
    exact hmin j hno hj
  have hpass : Passes b.n r1 r2 := by
    rw [hn]
    exact passes_of_gcd hfactors
  refine ⟨Buyer.keep { b with signature } r1 r2,
    factorise_eq_ok.2 ⟨i, r1, r2, hreached, hdec, hpass, rfl⟩, ?_⟩
  show AreFactors p q (CryptoPP.gcd (b.n + r1 - r2) b.n) (CryptoPP.gcd (r1 + r2) b.n)
  rwa [hn]

/-- **Soundness of the delivery.**  Whatever the seller does, as long as it finds no collision: it
passes for at most half of the buyer's draws without leaving the factors to `factorise`, and for
at most one in thirty-two without leaving them to the buyer at all. -/
theorem deliverWith_sound (hp : p.Prime) (hq : q.Prime) (hpq : p ≠ q)
    (hoffer : Offer sha256 signature (p * q) root keySeed st.2)
    (hnil : ∀ key bytes, aes.dec key [] ≠ .ok bytes)
    (hinj : Set.InjOn sha256 (revealed sha256 aes seller ρ root signature keySeed st)) :
    2 * { d | ∃ b, Delivered sha256 aes seller ρ root st d b ∧
      ¬ GetsFactors sha256 aes signature p q b }.ncard ≤ Fintype.card (Guessing.Draw (Fin L)) ∧
    2 ^ (L / 2) * { d | ∃ b, Delivered sha256 aes seller ρ root st d b ∧
      ¬ HoldsFactors aes (genKeys sha256 signature) p q b }.ncard ≤
        Fintype.card (Guessing.Draw (Fin L)) := by
  obtain ⟨good, bit, hmem, hbit⟩ := exists_settled sha256 aes seller ρ root st
  -- an index that is good and not in the subset gives the factors
  have hfactors : ∀ {d b i}, Delivered sha256 aes seller ρ root st d b →
      i ∉ Guessing.chosen firstHalf d.2 → i ∈ good → ∃ r1 r2,
        Decrypts aes (genKeys sha256 signature) b i r1 r2 ∧ b.n = p * q ∧
          AreFactors p q (CryptoPP.gcd (p * q + r1 - r2) (p * q)) (CryptoPP.gcd (r1 + r2) (p * q)) := by
    intro d b i h hi hgood
    obtain ⟨bit, hdec⟩ := h.decrypts hoffer hnil hinj hi ((hmem i).1 hgood)
    exact ⟨_, _, hdec, (h.outcome hoffer hinj).1, (hoffer.roots i).areFactors hp hq hpq bit⟩
  constructor
  · have hrev : ∀ k : Fin L, Fin.revPerm k ∈ firstHalf ↔ k ∉ firstHalf := by decide
    refine Guessing.mul_ncard_le (Guessing.card_missed_mul_le Fin.revPerm hrev good bit) ?_
    rintro d ⟨b, h, hfail⟩
    refine ⟨fun hall => hfail ?_, hbit d b h⟩
    refine getsFactors_of_forall (h.outcome hoffer hinj).2 fun i hi => hfactors h hi ?_
    by_contra hnot
    exact hi (hall (Finset.mem_compl.2 hnot))
  · have hhalf : firstHalf.card = L / 2 := by decide
    have hle : 2 * firstHalf.card ≤ Fintype.card (Fin L) := by decide
    have hbound := Guessing.card_hidden_mul_le hle good bit
    rw [hhalf] at hbound
    refine Guessing.mul_ncard_le hbound ?_
    rintro d ⟨b, h, hfail⟩
    refine ⟨fun i hgood => ?_, hbit d b h⟩
    by_contra hi
    obtain ⟨r1, r2, hdec, hn, hareFactors⟩ := hfactors h hi hgood
    exact hfail ⟨i, r1, r2, hdec, hn ▸ hareFactors⟩

end

/-- `deliverWith_sound` with the seller that spoils one ciphertext, and a hash without a collision. -/
theorem deliverWith_sound_fifteen :
    Set.InjOn (listHash spoiledStrings) (revealed (listHash spoiledStrings) Cipher.blocks
      (spoiledFifteen (listHash spoiledStrings)) fifteenRandom (fun _ => oneOrFour) []
        (fun _ => Vector.replicate 32 0) ((), offeredBuyer (listHash spoiledStrings))) ∧
    2 * { d | ∃ b, Delivered (listHash spoiledStrings) Cipher.blocks
      (spoiledFifteen (listHash spoiledStrings)) fifteenRandom (fun _ => oneOrFour)
        ((), offeredBuyer (listHash spoiledStrings)) d b ∧
      ¬ GetsFactors (listHash spoiledStrings) Cipher.blocks [] 3 5 b }.ncard ≤
        Fintype.card (Guessing.Draw (Fin L)) ∧
    2 ^ (L / 2) * { d | ∃ b, Delivered (listHash spoiledStrings) Cipher.blocks
      (spoiledFifteen (listHash spoiledStrings)) fifteenRandom (fun _ => oneOrFour)
        ((), offeredBuyer (listHash spoiledStrings)) d b ∧
      ¬ HoldsFactors Cipher.blocks (genKeys (listHash spoiledStrings) []) 3 5 b }.ncard ≤
        Fintype.card (Guessing.Draw (Fin L)) := by
  have hinj : Set.InjOn (listHash spoiledStrings) { m | m ∈ spoiledStrings } :=
    fun m _ m' hm' h => listHash_inj (by decide) hm' h
  have hrevealed := hinj.mono revealed_spoiledFifteen
  exact ⟨hrevealed, deliverWith_sound Nat.prime_three Nat.prime_five (by decide) (offer_fifteen _)
    (fun key bytes h => absurd h (by simp [Cipher.blocks, Cipher.padding])) hrevealed⟩

end SellingInformation.Main
