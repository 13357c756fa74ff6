import SellingInformation.Main.SellInformation
import SellingInformation.Main.TimeLock

/-!
# The seller's roots

What the loops of the seller establish, one invariant for each, and what it means
that `acceptSubset` lets a value pass.

* `findRoots_spec` — the two roots of each square are the first two entries of
  `all_square_roots`, in some order;
* `encryptRoots_spec` — the ciphertexts are theirs under the keys of the instance,
  unless a key has the wrong length;
* `answerSquares_spec` — the two together, with the commitments made of them;
* `acceptRoot_eq_ok` — the commitment chosen for a value that passes;
* `root_nonneg`, `dec_root` — a root that passes is not negative, so nothing is lost in
  its encoding.
-/

namespace SellingInformation.Main

open CryptoPP Common Fallible

variable {Point : Type} {msr : ModularSquareRoot} {aes : Cipher}

/-! ## Finding -/

/-- The roots kept for an index are the first two entries for its square, in some order. -/
def RootsFound (msr : ModularSquareRoot) (s : Seller Point) (i : Fin L) : Prop :=
  ∃ x0 x1 x2 x3, s.squareRoot.allSquareRoots msr s.y[i] = .ok [x0, x1, x2, x3] ∧
    ((s.r1[i] = x0 ∧ s.r2[i] = x1) ∨ (s.r1[i] = x1 ∧ s.r2[i] = x0))

/-- The seller without its roots. -/
def Seller.eraseRoots (s : Seller Point) : Seller Point :=
  { s with r1 := Vector.replicate L 0, r2 := Vector.replicate L 0 }

theorem findRoots_spec (swap : Fin L → Bool) (s₀ : Seller Point) :
    Triple (fun s => s.eraseRoots = s₀) (Seller.findRoots msr swap)
      (fun _ s => s.eraseRoots = s₀ ∧ ∀ i ∈ List.finRange L, RootsFound msr s i)
      (fun _ _ => False) := by
  refine Triple.forM_each ?_
  intro i _ s hs
  obtain ⟨x0, x1, x2, x3, hroots⟩ := @allSquareRoots_ok msr s.squareRoot s.y[i]
  have h0 : elemAt [x0, x1, x2, x3] 0 = .ok x0 := rfl
  have h1 : elemAt [x0, x1, x2, x3] 1 = .ok x1 := rfl
  simp only [bind_apply, get_apply, hroots, h0, h1, lift_ok, modify_apply]
  refine ⟨hs, ⟨x0, x1, x2, x3, hroots, ?_⟩, ?_⟩
  · cases swap i with
    | true => exact Or.inr (by simp)
    | false => exact Or.inl (by simp)
  · rintro j hji ⟨z0, z1, z2, z3, hz, hz'⟩
    have hne : (i : ℕ) ≠ j := fun h => hji (Fin.ext h.symm)
    refine ⟨z0, z1, z2, z3, hz, ?_⟩
    simpa [Vector.getElem_set, hne] using hz'

/-! ## Encrypting -/

/-- The ciphertexts kept for an index are those of its roots, under its key. -/
def RootsEncrypted (aes : Cipher) (s : Seller Point) (i : Fin L) : Prop :=
  enc aes s.singleSeller.keysCommits[i].m (toBytes s.r1[i]) = .ok s.c1[i] ∧
    enc aes s.singleSeller.keysCommits[i].m (toBytes s.r2[i]) = .ok s.c2[i]

/-- The seller without its ciphertexts. -/
def Seller.eraseCiphertexts (s : Seller Point) : Seller Point :=
  { s with c1 := Vector.replicate L [], c2 := Vector.replicate L [] }

/-- Every key has the length of one. -/
def KeysValid (s : SingleSeller Point) : Prop := ∀ i : Fin L, (asKey s.keysCommits[i].m).isSome

/-- Encryption under a key of the instance fails only when some key is not valid. -/
theorem not_keysValid_of_error {s : SingleSeller Point} {i : Fin L} {msg : Bytes} {e : Exn}
    (h : enc aes s.keysCommits[i].m msg = .error e) : ¬ KeysValid s := by
  intro hvalid
  obtain ⟨k, hk⟩ := Option.isSome_iff_exists.1 (hvalid i)
  unfold enc at h
  rw [hk] at h
  cases h

theorem encryptRoots_spec (s₀ : Seller Point) :
    Triple (fun s => s.eraseCiphertexts = s₀) (Seller.encryptRoots aes)
      (fun _ s => s.eraseCiphertexts = s₀ ∧ ∀ i ∈ List.finRange L, RootsEncrypted aes s i)
      (fun _ _ => ¬ KeysValid s₀.singleSeller) := by
  refine Triple.forM_each ?_
  intro i _ s hs
  have hsingle : s₀.singleSeller = s.singleSeller := by
    rw [← hs]
    rfl
  rw [hsingle]
  simp only [bind_apply, get_apply]
  cases h1 : enc aes s.singleSeller.keysCommits[i].m (toBytes s.r1[i]) with
  | error e => exact not_keysValid_of_error h1
  | ok c1 =>
    simp only [lift_ok, modify_apply]
    cases h2 : enc aes s.singleSeller.keysCommits[i].m (toBytes s.r2[i]) with
    | error e => exact not_keysValid_of_error h2
    | ok c2 =>
      simp only [lift_ok]
      refine ⟨hs, ⟨by simpa using h1, by simpa using h2⟩, ?_⟩
      rintro j hji ⟨hz1, hz2⟩
      have hne : (i : ℕ) ≠ j := fun h => hji (Fin.ext h.symm)
      exact ⟨by simpa [Vector.getElem_set, hne] using hz1,
        by simpa [Vector.getElem_set, hne] using hz2⟩

/-! ## Answering the squares -/

/-- The roots are found, and the messages of the commitments are their ciphertexts under the
keys of the instance. -/
structure RootsCommitted (msr : ModularSquareRoot) (aes : Cipher) (s : Seller Point) : Prop where
  found : ∀ i, RootsFound msr s i
  enc1 : ∀ i : Fin L, enc aes s.singleSeller.keysCommits[i].m (toBytes s.r1[i]) = .ok s.d1[i].m
  enc2 : ∀ i : Fin L, enc aes s.singleSeller.keysCommits[i].m (toBytes s.r2[i]) = .ok s.d2[i].m

/-- Only the messages of the commitments matter. -/
theorem RootsCommitted.congr {s s' : Seller Point} (h : RootsCommitted msr aes s)
    (hroot : s'.squareRoot = s.squareRoot) (hy : s'.y = s.y) (h1 : s'.r1 = s.r1) (h2 : s'.r2 = s.r2)
    (hsingle : s'.singleSeller = s.singleSeller) (hd1 : ∀ i : Fin L, s'.d1[i].m = s.d1[i].m)
    (hd2 : ∀ i : Fin L, s'.d2[i].m = s.d2[i].m) : RootsCommitted msr aes s' := by
  refine ⟨?_, ?_, ?_⟩
  · intro i
    simpa only [RootsFound, hroot, hy, h1, h2] using h.found i
  · intro i
    rw [hsingle, h1, hd1]
    exact h.enc1 i
  · intro i
    rw [hsingle, h2, hd2]
    exact h.enc2 i

/-- The seller without what it makes of the squares. -/
def Seller.erase (s : Seller Point) : Seller Point :=
  { s.eraseRoots.eraseCiphertexts with
    d1 := Vector.replicate L ShaCommitment.Sender.new
    d2 := Vector.replicate L ShaCommitment.Sender.new }

/-- What is left after that is the same. -/
theorem fields_of_erase_eq {s s' : Seller Point} (h : s'.erase = s.erase) :
    (s'.n = s.n ∧ s'.squareRoot = s.squareRoot ∧ s'.y = s.y) ∧ s'.singleSeller = s.singleSeller ∧
      s'.price = s.price ∧ s'.cheat = s.cheat := by
  simp only [Seller.erase, Seller.eraseRoots, Seller.eraseCiphertexts, Seller.mk.injEq] at h
  tauto

theorem answerSquares_spec (swap : Fin L → Bool) (y : Vector ℤ L) (s₀ : Seller Point) :
    Triple (fun s => s = s₀) (Seller.answerSquares msr aes swap y)
      (fun _ s => s.erase = { s₀ with y }.erase ∧ RootsCommitted msr aes s)
      (fun _ _ => ¬ KeysValid s₀.singleSeller) := by
  refine Triple.bind (Q := fun _ s => s.eraseRoots = { s₀ with y }.eraseRoots) ?_ fun _ => ?_
  · exact Triple.modify fun s hs => by rw [hs]
  refine Triple.bind ((findRoots_spec swap _).conseq (fun _ h => h) (fun _ _ h => h)
    (fun _ _ h => h.elim)) fun _ => ?_
  rintro s ⟨hs, hfound⟩
  have hkeys : s.singleSeller = s₀.singleSeller := by
    simpa [Seller.eraseRoots] using congrArg Seller.singleSeller hs
  have henc : Triple (fun t => t.eraseCiphertexts = s.eraseCiphertexts)
      (Seller.encryptRoots aes >>= fun _ => modify Seller.setupCommit)
      (fun _ t => t.erase = { s₀ with y }.erase ∧ RootsCommitted msr aes t)
      (fun _ _ => ¬ KeysValid s₀.singleSeller) := by
    refine Triple.bind ((encryptRoots_spec _).conseq (fun _ h => h) (fun _ _ h => h) ?_) fun _ =>
      Triple.modify ?_
    · intro _ _ h
      rw [← hkeys]
      exact h
    rintro t ⟨ht, hencs⟩
    refine ⟨?_, ?_, ?_, ?_⟩
    · have h1 : t.erase = s.erase := congrArg
        (fun u : Seller Point => { u.eraseRoots with
          d1 := Vector.replicate L ShaCommitment.Sender.new
          d2 := Vector.replicate L ShaCommitment.Sender.new }) ht
      have h2 : s.erase = { s₀ with y }.erase := congrArg
        (fun u : Seller Point => { u.eraseCiphertexts with
          d1 := Vector.replicate L ShaCommitment.Sender.new
          d2 := Vector.replicate L ShaCommitment.Sender.new }) hs
      exact h1.trans h2
    · intro i
      have hfields : (t.squareRoot = s.squareRoot ∧ t.y = s.y) ∧ t.r1 = s.r1 ∧ t.r2 = s.r2 := by
        simp only [Seller.eraseCiphertexts, Seller.mk.injEq] at ht
        tauto
      obtain ⟨x0, x1, x2, x3, hx, hor⟩ := hfound i (List.mem_finRange i)
      refine ⟨x0, x1, x2, x3, ?_, ?_⟩
      · simpa [Seller.setupCommit, hfields.1.1, hfields.1.2] using hx
      · simpa [Seller.setupCommit, hfields.2.1, hfields.2.2] using hor
    · intro i
      simpa [Seller.setupCommit] using (hencs i (List.mem_finRange i)).1
    · intro i
      simpa [Seller.setupCommit] using (hencs i (List.mem_finRange i)).2
  exact henc s rfl

/-! ## Accepting -/

/-- The seller sells the factors of the product of two primes. -/
structure Sells (p q : ℕ) (s : Seller Point) : Prop where
  prime_p : p.Prime
  prime_q : q.Prime
  ne : p ≠ q
  n_eq : s.n = p * q
  squareRoot_eq : s.squareRoot = SquareRoot.new p q

theorem Sells.congr {s s' : Seller Point} {p q : ℕ} (h : Sells p q s) (hn : s'.n = s.n)
    (hroot : s'.squareRoot = s.squareRoot) : Sells p q s' :=
  ⟨h.prime_p, h.prime_q, h.ne, hn.trans h.n_eq, hroot.trans h.squareRoot_eq⟩

section
variable {s : Seller Point} {p q : ℕ} {i : Fin L} {val : ℤ}

theorem acceptRoot_eq_ok {c : ℕ} : s.acceptRoot i val = .ok c ↔
    val < s.n / 2 ∧ val * val % s.n = s.y[i] ∧
      c = if val = s.r2[i] then 2 else if val = s.r1[i] then 1 else 5 := by
  simp only [Seller.acceptRoot, except_bind_eq_ok, refuseIf_eq_ok, not_not, ge_iff_le, not_le,
    Except.ok.injEq, exists_const, ne_eq]
  exact and_congr_right fun _ => and_congr_right fun _ => eq_comm

/-- For a square in range the two kept roots are the first two entries, in some order. -/
theorem firstTwo_of_rootsFound (hmsr : msr.Lawful) (hs : Sells p q s) (h : RootsFound msr s i)
    (hval : val * val % s.n = s.y[i]) : ∃ x0 x1, FirstTwo (p * q) s.y[i] x0 x1 ∧
      ((p : ℤ) ∣ s.y[i] ∨ (q : ℤ) ∣ s.y[i] → x0 = x1) ∧
      (p ≠ 2 → q ≠ 2 → ¬ (p : ℤ) ∣ s.y[i] → ¬ (q : ℤ) ∣ s.y[i] → x0 ≠ x1) ∧
      ((s.r1[i] = x0 ∧ s.r2[i] = x1) ∨ (s.r1[i] = x1 ∧ s.r2[i] = x0)) := by
  have hn : (0 : ℤ) < p * q := by exact_mod_cast Nat.mul_pos hs.prime_p.pos hs.prime_q.pos
  rw [hs.n_eq] at hval
  have hsq : val * val ≡ s.y[i] [ZMOD p * q] := by
    rw [← hval]
    exact (Int.mod_modEq _ _).symm
  have h0 : 0 ≤ s.y[i] := by
    rw [← hval]
    exact Int.emod_nonneg _ hn.ne'
  have hlt : s.y[i] < p * q := by
    rw [← hval]
    exact Int.emod_lt_of_pos _ hn
  obtain ⟨z0, z1, hz, hfirst, hdvd, hnot⟩ :=
    firstTwo_of_square hmsr hs.prime_p hs.prime_q hs.ne hsq h0 hlt
  obtain ⟨x0, x1, x2, x3, hx, hroots⟩ := h
  rw [hs.squareRoot_eq, hz] at hx
  cases hx
  exact ⟨z0, z1, hfirst, hdvd, hnot, hroots⟩

/-- A value that passes the checks and is one of the kept roots is not negative. -/
theorem root_nonneg (hmsr : msr.Lawful) (hs : Sells p q s) (h : RootsFound msr s i)
    (hval : val * val % s.n = s.y[i]) (hroot : val = s.r1[i] ∨ val = s.r2[i]) : 0 ≤ val := by
  obtain ⟨x0, x1, hfirst, -, -, hor⟩ := firstTwo_of_rootsFound hmsr hs h hval
  have h0 := hfirst.nonneg
  have h1 := hfirst.le
  rcases hor with ⟨ha, hb⟩ | ⟨ha, hb⟩ <;> rcases hroot with hr | hr <;> omega

/-- What decrypts the ciphertext of a kept root that passed is the value itself. -/
theorem dec_root (haes : aes.Lawful) {key c : Bytes} (hval : 0 ≤ val)
    (henc : enc aes key (toBytes val) = .ok c) :
    ∃ x, dec aes key c = .ok x ∧ ofBytes x = val :=
  ⟨toBytes val, dec_of_enc haes henc, ofBytes_toBytes_of_nonneg hval⟩

end

/-! ## The subset -/

section
variable {s : Seller Point} {indices : Vector ℕ (L / 2)} {values : Vector ℤ (L / 2)}
  {inds : List (Fin L)} {commitInds : List ℕ}

/-- The checks let through exactly the lists of different indices. -/
theorem checkIndices_eq_ok : SellInformationProtocol.checkIndices indices = .ok inds ↔
    inds.Nodup ∧ inds.map Fin.val = indices.toList := by
  have hlen : indices.toList.length = L / 2 := Vector.length_toList
  have hmap : (indices.toList.mapM fun ind => if h : ind < L then Except.ok (⟨ind, h⟩ : Fin L)
      else .error (Exn.protocolException "invalid commitment_indices value")) = .ok inds ↔
        inds.map Fin.val = indices.toList := by
    have hround : ∀ (ind : ℕ) (i : Fin L), (if h : ind < L then Except.ok (⟨ind, h⟩ : Fin L)
        else .error (Exn.protocolException "invalid commitment_indices value")) = .ok i ↔
          ind = i.val := by
      intro ind i
      by_cases h : ind < L
      · rw [dif_pos h]
        simp [Fin.ext_iff]
      · rw [dif_neg h]
        constructor
        · intro hbad
          cases hbad
        · intro hval
          exact absurd (hval ▸ i.isLt) h
    rw [mapM_eq_ok_iff]
    simp only [hround]
    rw [← List.forall₂_map_right_iff (f := Fin.val) (R := fun a b => a = b), List.forall₂_eq_eq_eq]
    exact eq_comm
  unfold SellInformationProtocol.checkIndices
  rw [except_bind_eq_ok]
  simp only [refuseIf_eq_ok, not_not, hmap, ne_eq]
  constructor
  · rintro ⟨_, hdedup, hval⟩
    have hself : indices.toList.dedup = indices.toList :=
      (List.dedup_sublist _).eq_of_length (by rw [hdedup, hlen])
    refine ⟨List.Nodup.of_map Fin.val ?_, hval⟩
    rw [hval, ← hself]
    exact List.nodup_dedup _
  · rintro ⟨hnodup, hval⟩
    refine ⟨(), ?_, hval⟩
    have hnodup' : indices.toList.Nodup := by
      rw [← hval]
      exact hnodup.map Fin.val_injective
    rw [hnodup'.dedup, hlen]

/-- An entry of the chosen commitments belongs to an index and a value that were sent. -/
theorem acceptRoot_of_mem_zip (hinds : inds.map Fin.val = indices.toList)
    (haccept : s.acceptSubset (inds.zip values.toList) = .ok commitInds) {ind : Fin L} {c : ℕ}
    (hmem : (ind, c) ∈ inds.zip commitInds) :
    ∃ k : Fin (L / 2), indices[k] = ind ∧ s.acceptRoot ind values[k] = .ok c := by
  obtain ⟨k, hk, hget⟩ := List.mem_iff_getElem.1 hmem
  rw [List.length_zip] at hk
  rw [List.getElem_zip, Prod.mk.injEq] at hget
  obtain ⟨hlen, hall⟩ := List.forall₂_iff_get.1 (mapM_eq_ok_iff.1 haccept)
  have hlenInds : inds.length = L / 2 := by
    have := congrArg List.length hinds
    rwa [List.length_map, Vector.length_toList] at this
  have hkL : k < L / 2 := by omega
  have hzip : k < (inds.zip values.toList).length := by
    rw [List.length_zip, Vector.length_toList]
    omega
  have hround := hall k hzip (by omega)
  simp only [List.get_eq_getElem, List.getElem_zip, hget.1, hget.2] at hround
  refine ⟨⟨k, hkL⟩, ?_, ?_⟩
  · have hval : (inds.map Fin.val)[k]? = indices.toList[k]? := by rw [hinds]
    rw [List.getElem?_map, List.getElem?_eq_getElem (by omega), hget.1, Option.map_some,
      List.getElem?_eq_getElem (by simpa using hkL)] at hval
    simpa using (Option.some.inj hval).symm
  · simpa using hround

/-- Different indices have one chosen commitment each. -/
theorem eq_of_mem_zip {α β : Type} {l : List α} {l' : List β} (hl : l.Nodup) {a : α} {b b' : β}
    (h : (a, b) ∈ l.zip l') (h' : (a, b') ∈ l.zip l') : b = b' := by
  obtain ⟨i, hi, hget⟩ := List.mem_iff_getElem.1 h
  obtain ⟨j, hj, hget'⟩ := List.mem_iff_getElem.1 h'
  rw [List.length_zip] at hi hj
  rw [List.getElem_zip, Prod.mk.injEq] at hget hget'
  have hij : i = j := (List.Nodup.getElem_inj_iff hl).1 (hget.1.trans hget'.1.symm)
  subst hij
  exact hget.2.symm.trans hget'.2

end

/-! ## Selling the factors of fifteen -/

/-- The buyer's numbers are all one, and its subset is the first half of the indices. -/
def fifteenRandom : SaleRandom :=
  { paillierP := 521, paillierQ := 523, lockP := 7, lockQ := 11, r := 0
    instances := fun _ => smallRandom
    x := Vector.replicate L 1
    swap := fun _ => false
    seed1 := fun _ => Vector.replicate 32 0
    seed2 := fun _ => Vector.replicate 32 0
    subset := Vector.ofFn fun k => ⟨k, by have := k.isLt; simp only [L] at *; omega⟩ }

/-- The parties of such a sale, at any price. -/
def fifteenSale (price : UInt32) : Sale (ZMod 7) :=
  { seller := Seller.new 3 5 price false smallParties.1
    buyer := Buyer.new 15 price smallParties.2
    log := [] }

theorem sells_fifteen (price : UInt32) : Sells 3 5 (fifteenSale price).seller :=
  ⟨Nat.prime_three, Nat.prime_five, by decide, rfl, rfl⟩

/-- The parties of a sale of fifteen, with the keys of the empty signature. -/
def readySale : Sale (ZMod 7) :=
  let sha256 : Sha256 := fun _ => Vector.replicate 32 0
  let keys := genKeys sha256 []
  { seller := Seller.new 3 5 20000 false { smallParties.1 with
      keysCommits := keys.map fun key => { ShaCommitment.Sender.new with m := key.toList } }
    buyer := Buyer.new 15 20000 { smallParties.2 with
      keysCommits := keys.map fun key => { ShaCommitment.Receiver.new with
        com := ShaCommitment.computeSha sha256 key.toList ShaCommitment.Sender.new.seed } }
    log := [] }

end SellingInformation.Main
