import Mathlib.Data.List.Sort
import SellingInformation.Common.Common

/-!
# Square roots modulo a product of two primes

`SquareRoot` finds roots modulo `n = p * q` from roots modulo `p` and `q`.
`squareRoot` joins one root of each by the Chinese remainder formula and returns
`-1` when the result is not a root; `allSquareRoots` does so for the four
combinations of signs and sorts the results.

The formula sends opposite roots to opposite roots exactly, not only modulo `n`
(`crt_neg`), so the four values are `A`, `n - A`, `B` and `n - B` for two roots
`A` and `B`.  `allSquareRoots_eq` turns that into the sorted array, from which
everything else is read off:

* `firstTwo_of_square` — the first two entries of a square are roots up to
  `n / 2`, every such root is one of them, and they are equal exactly when the
  number shares a factor with `n`;
* `allSquareRoots_of_not_square` — the entries of any other number are `-1`;
* `allSquareRoots_spec` — what all four entries are, for every number.
-/

namespace SellingInformation.Common

open CryptoPP Fallible

/-- The members of the class `SquareRoot`. -/
structure SquareRoot where
  p : ℤ
  q : ℤ
  n : ℤ
  u : ℤ
  deriving DecidableEq, Repr

namespace SquareRoot

/-- The constructor. -/
def new (p q : ℤ) : SquareRoot := { p, q, n := p * q, u := inverseMod p q }

@[simp] theorem new_p (p q : ℤ) : (new p q).p = p := rfl

@[simp] theorem new_q (p q : ℤ) : (new p q).q = q := rfl

@[simp] theorem new_n (p q : ℤ) : (new p q).n = p * q := rfl

@[simp] theorem new_u (p q : ℤ) : (new p q).u = inverseMod p q := rfl

/-- `square_root`. -/
def squareRoot (msr : ModularSquareRoot) (sr : SquareRoot) (a signX signY : ℤ) :
    Except Exn ℤ := do
  refuseIf (signY ≠ -1 ∧ signY ≠ 1) .stdException
  refuseIf (signX ≠ -1 ∧ signX ≠ 1) .stdException
  let xp := msr a sr.p
  let xq := msr a sr.q
  let xp := if signX = -1 then sr.p - xp else xp
  let xq := if signY = -1 then sr.q - xq else xq
  let root := crt xp sr.p xq sr.q sr.u
  if root * root % sr.n ≠ a then .ok (-1) else .ok root

/-- `all_square_roots`. -/
def allSquareRoots (msr : ModularSquareRoot) (sr : SquareRoot) (a : ℤ) : Except Exn (List ℤ) := do
  let r1 ← sr.squareRoot msr a (-1) (-1)
  let r2 ← sr.squareRoot msr a 1 (-1)
  let r3 ← sr.squareRoot msr a (-1) 1
  let r4 ← sr.squareRoot msr a 1 1
  .ok ([r1, r2, r3, r4].insertionSort (· ≤ ·))

end SquareRoot

/-! ## The Chinese remainder formula -/

theorem crt_modEq_left (xp p xq q u : ℤ) : crt xp p xq q u ≡ xp [ZMOD p] :=
  Int.modEq_iff_dvd.2 ⟨-(u * (xq - xp) % q), by unfold crt; ring⟩

theorem crt_modEq_right {xp p xq q u : ℤ} (hu : p * u ≡ 1 [ZMOD q]) :
    crt xp p xq q u ≡ xq [ZMOD q] := by
  have h1 : p * (u * (xq - xp) % q) ≡ xq - xp [ZMOD q] :=
    calc p * (u * (xq - xp) % q) ≡ p * (u * (xq - xp)) [ZMOD q] := (Int.mod_modEq _ _).mul_left _
      _ = p * u * (xq - xp) := by ring
      _ ≡ 1 * (xq - xp) [ZMOD q] := hu.mul_right _
      _ = xq - xp := one_mul _
  calc crt xp p xq q u ≡ xq - xp + xp [ZMOD q] := h1.add_right xp
    _ = xq := by ring

/-- The formula sends opposite roots to opposite roots, exactly. -/
theorem crt_neg {xp p xq q u : ℤ} (hq : 0 < q) (hu : p * u ≡ 1 [ZMOD q]) :
    crt (p - xp) p (q - xq) q u = p * q - crt xp p xq q u := by
  set k := u * (xq - xp) % q with hk
  have hk0 : 0 ≤ k := Int.emod_nonneg _ hq.ne'
  have hkq : k < q := Int.emod_lt_of_pos _ hq
  have hmod : u * (q - xq - (p - xp)) ≡ q - 1 - k [ZMOD q] := by
    have h1 : u * (xq - xp) ≡ k [ZMOD q] := (Int.mod_modEq _ _).symm
    have h2 : u * (q - xq - (p - xp)) = u * q - p * u - u * (xq - xp) := by ring
    have h3 : u * q ≡ q [ZMOD q] := Int.modEq_iff_dvd.2 ⟨1 - u, by ring⟩
    rw [h2]
    exact (h3.sub hu).sub h1
  have hval : u * (q - xq - (p - xp)) % q = q - 1 - k := by
    rw [hmod.eq, Int.emod_eq_of_lt (by omega) (by omega)]
  have hcrt : crt xp p xq q u = p * k + xp := rfl
  rw [hcrt, crt, hval]
  ring

theorem crt_nonneg {xp p xq q u : ℤ} (hp : 0 < p) (hq : 0 < q) (h : 0 ≤ xp) :
    0 ≤ crt xp p xq q u :=
  add_nonneg (mul_nonneg hp.le (Int.emod_nonneg _ hq.ne')) h

theorem crt_le {xp p xq q u : ℤ} (hp : 0 < p) (hq : 0 < q) (h : xp ≤ p) :
    crt xp p xq q u ≤ p * q := by
  have hk : u * (xq - xp) % q ≤ q - 1 := Int.le_sub_one_of_lt (Int.emod_lt_of_pos _ hq)
  calc crt xp p xq q u ≤ p * (q - 1) + p := add_le_add (mul_le_mul_of_nonneg_left hk hp.le) h
    _ = p * q := by ring

/-! ## The sorted array -/

/-- The smaller of a number and its reflection in `n`. -/
def low (n a : ℤ) : ℤ := min a (n - a)

theorem low_nonneg {n a : ℤ} (h0 : 0 ≤ a) (hn : a ≤ n) : 0 ≤ low n a :=
  le_min h0 (by omega)

theorem two_mul_low_le (n a : ℤ) : 2 * low n a ≤ n := by
  unfold low
  omega

theorem low_modEq (n a : ℤ) : low n a ≡ a [ZMOD n] ∨ low n a ≡ -a [ZMOD n] := by
  rcases le_total a (n - a) with h | h
  · exact Or.inl (by rw [low, min_eq_left h])
  · apply Or.inr
    unfold low
    rw [min_eq_right h]
    exact Int.modEq_iff_dvd.2 ⟨-1, by ring⟩

/-- A number up to `n / 2` that is `a` or `-a` modulo `n` is `low n a`. -/
theorem eq_low_of_modEq {n a x : ℤ} (hn : 0 < n) (h0 : 0 ≤ a) (han : a ≤ n) (hx0 : 0 ≤ x)
    (hxn : 2 * x ≤ n) (h : x ≡ a [ZMOD n] ∨ x ≡ -a [ZMOD n]) : x = low n a := by
  unfold low
  rcases h with h | h
  · obtain ⟨k, hk⟩ := h.dvd
    have hk0 : 0 ≤ k := by
      by_contra hc
      nlinarith
    have hk1 : k ≤ 1 := by
      by_contra hc
      nlinarith
    obtain rfl | rfl : k = 0 ∨ k = 1 := by omega
    · omega
    · omega
  · obtain ⟨k, hk⟩ := h.dvd
    have hk0 : -1 ≤ k := by
      by_contra hc
      nlinarith
    have hk1 : k ≤ 0 := by
      by_contra hc
      nlinarith
    obtain rfl | rfl : k = -1 ∨ k = 0 := by omega
    · omega
    · omega

theorem low_sq {n a y : ℤ} (h : y * y ≡ a [ZMOD n]) : low n y * low n y ≡ a [ZMOD n] := by
  rcases low_modEq n y with hy | hy
  · exact (hy.mul hy).trans h
  · exact (hy.mul hy).trans (by rwa [neg_mul_neg])

/-- Numbers up to `n` have one lower half exactly when they are equal or opposite. -/
theorem low_eq_low_iff {n a b : ℤ} (hn : 0 < n) (ha : 0 ≤ a ∧ a ≤ n) (hb : 0 ≤ b ∧ b ≤ n) :
    low n a = low n b ↔ a ≡ b [ZMOD n] ∨ a ≡ -b [ZMOD n] := by
  have hlowa := low_modEq n a
  have hlowb := low_modEq n b
  constructor
  · intro heq
    rw [heq] at hlowa
    rcases hlowa with h | h <;> rcases hlowb with h' | h'
    · exact Or.inl (h.symm.trans h')
    · exact Or.inr (h.symm.trans h')
    · exact Or.inr (by simpa using (h.symm.trans h').neg)
    · exact Or.inl (by simpa using (h.symm.trans h').neg)
  · intro hab
    apply eq_low_of_modEq hn hb.1 hb.2 (low_nonneg ha.1 ha.2) (two_mul_low_le n a)
    rcases hlowa with h | h <;> rcases hab with h' | h'
    · exact Or.inl (h.trans h')
    · exact Or.inr (h.trans h')
    · exact Or.inr (h.trans h'.neg)
    · exact Or.inl (h.trans (by simpa using h'.neg))

/-- Sorting two numbers and their reflections in `n`. -/
theorem insertionSort_reflections (n a b : ℤ) :
    [n - a, n - b, b, a].insertionSort (· ≤ ·) =
      [min (low n a) (low n b), max (low n a) (low n b),
        n - max (low n a) (low n b), n - min (low n a) (low n b)] := by
  have hperm : [n - a, n - b, b, a].Perm
      [min (low n a) (low n b), max (low n a) (low n b),
        n - max (low n a) (low n b), n - min (low n a) (low n b)] := by
    rw [List.perm_iff_count]
    intro z
    simp only [low, List.count_cons, List.count_nil, beq_iff_eq]
    rcases le_total a (n - a) with ha | ha <;> rcases le_total b (n - b) with hb | hb <;>
      simp only [min_eq_left ha, min_eq_right ha, min_eq_left hb, min_eq_right hb] <;>
      [rcases le_total a b with h | h; rcases le_total a (n - b) with h | h;
        rcases le_total (n - a) b with h | h; rcases le_total (n - a) (n - b) with h | h] <;>
      simp only [min_eq_left h, min_eq_right h, max_eq_left h, max_eq_right h, sub_sub_cancel] <;>
      omega
  have hsorted : [min (low n a) (low n b), max (low n a) (low n b),
      n - max (low n a) (low n b), n - min (low n a) (low n b)].Pairwise (· ≤ ·) := by
    have ha := two_mul_low_le n a
    have hb := two_mul_low_le n b
    simp only [List.pairwise_cons, List.mem_cons, List.not_mem_nil, or_false, forall_eq_or_imp,
      forall_eq, List.Pairwise.nil, IsEmpty.forall_iff, implies_true, and_true]
    omega
  exact List.Perm.eq_of_pairwise (fun x y _ _ h1 h2 => le_antisymm h1 h2)
    (List.pairwise_insertionSort (· ≤ ·) _) hsorted ((List.perm_insertionSort _ _).trans hperm)

/-! ## The roots of a square -/

section
variable {msr : ModularSquareRoot} {p q : ℕ}

theorem mul_new_u_modEq (hp : p.Prime) (hq : q.Prime) (hpq : p ≠ q) :
    (p : ℤ) * (SquareRoot.new p q).u ≡ 1 [ZMOD q] := by
  apply mul_inverseMod_modEq
  rw [Int.gcd_natCast_natCast]
  exact (Nat.coprime_primes hp hq).2 hpq

/-- The two signs `allSquareRoots` passes are accepted, so a root is checked and returned. -/
theorem squareRoot_of_sign {sr : SquareRoot} {a signX signY : ℤ} (hx : signX = -1 ∨ signX = 1)
    (hy : signY = -1 ∨ signY = 1) {root : ℤ}
    (hroot : crt (if signX = -1 then sr.p - msr a sr.p else msr a sr.p) sr.p
      (if signY = -1 then sr.q - msr a sr.q else msr a sr.q) sr.q sr.u = root) :
    sr.squareRoot msr a signX signY = .ok (if root * root % sr.n ≠ a then -1 else root) := by
  have hsx : ¬ (signX ≠ -1 ∧ signX ≠ 1) := by tauto
  have hsy : ¬ (signY ≠ -1 ∧ signY ≠ 1) := by tauto
  unfold SquareRoot.squareRoot
  rw [refuseIf_of_not hsy, refuseIf_of_not hsx]
  simp only [except_ok_bind, hroot]
  split <;> rfl

theorem squareRoot_of_root {sr : SquareRoot} {a signX signY root : ℤ}
    (hx : signX = -1 ∨ signX = 1) (hy : signY = -1 ∨ signY = 1)
    (hroot : crt (if signX = -1 then sr.p - msr a sr.p else msr a sr.p) sr.p
      (if signY = -1 then sr.q - msr a sr.q else msr a sr.q) sr.q sr.u = root)
    (hsq : root * root % sr.n = a) : sr.squareRoot msr a signX signY = .ok root := by
  rw [squareRoot_of_sign hx hy hroot, if_neg (not_not.2 hsq)]

/-- A number that is no square, or no residue, has the four entries `-1`. -/
theorem allSquareRoots_of_not_square {sr : SquareRoot} {a : ℤ} (h : ∀ r : ℤ, r * r % sr.n ≠ a) :
    sr.allSquareRoots msr a = .ok [-1, -1, -1, -1] := by
  unfold SquareRoot.allSquareRoots
  rw [squareRoot_of_sign (Or.inl rfl) (Or.inl rfl) rfl,
    squareRoot_of_sign (Or.inr rfl) (Or.inl rfl) rfl,
    squareRoot_of_sign (Or.inl rfl) (Or.inr rfl) rfl,
    squareRoot_of_sign (Or.inr rfl) (Or.inr rfl) rfl]
  simp only [h, ne_eq, not_false_eq_true, if_true, except_ok_bind]
  rfl

/-- The array has four entries, whatever the root function returns. -/
theorem allSquareRoots_ok (sr : SquareRoot) (a : ℤ) :
    ∃ x0 x1 x2 x3, sr.allSquareRoots msr a = .ok [x0, x1, x2, x3] := by
  have hlen : ∀ l : List ℤ, l.length = 4 → ∃ x0 x1 x2 x3, l = [x0, x1, x2, x3] := by
    intro l hl
    match l, hl with
    | [x0, x1, x2, x3], _ => exact ⟨x0, x1, x2, x3, rfl⟩
  unfold SquareRoot.allSquareRoots
  rw [squareRoot_of_sign (Or.inl rfl) (Or.inl rfl) rfl,
    squareRoot_of_sign (Or.inr rfl) (Or.inl rfl) rfl,
    squareRoot_of_sign (Or.inl rfl) (Or.inr rfl) rfl,
    squareRoot_of_sign (Or.inr rfl) (Or.inr rfl) rfl]
  simp only [except_ok_bind]
  have hsorted : ∀ a b c d : ℤ, ∃ x0 x1 x2 x3,
      [a, b, c, d].insertionSort (· ≤ ·) = [x0, x1, x2, x3] := by
    intro a b c d
    exact hlen _ (List.length_insertionSort _ _)
  obtain ⟨x0, x1, x2, x3, hx⟩ := hsorted _ _ _ _
  exact ⟨x0, x1, x2, x3, congrArg Except.ok hx⟩

/-- What the first two entries are for a square `a` in `[0, n)`. -/
structure FirstTwo (n a r1 r2 : ℤ) : Prop where
  nonneg : 0 ≤ r1
  le : r1 ≤ r2
  two_mul_le : 2 * r2 ≤ n
  sq1 : r1 * r1 ≡ a [ZMOD n]
  sq2 : r2 * r2 ≡ a [ZMOD n]
  /-- Every root up to `n / 2` is one of the two. -/
  complete : ∀ x : ℤ, 0 ≤ x → 2 * x ≤ n → x * x ≡ a [ZMOD n] → x = r1 ∨ x = r2

/-- The two numbers whose reflections are the four values `allSquareRoots` sorts. -/
theorem allSquareRoots_eq (hmsr : msr.Lawful) (hp : p.Prime) (hq : q.Prime) (hpq : p ≠ q)
    {a x : ℤ} (hx : x * x ≡ a [ZMOD p * q]) (ha0 : 0 ≤ a) (han : a < p * q) :
    ∃ A B : ℤ, (SquareRoot.new p q).allSquareRoots msr a =
        .ok [min (low (p * q) A) (low (p * q) B), max (low (p * q) A) (low (p * q) B),
          p * q - max (low (p * q) A) (low (p * q) B),
          p * q - min (low (p * q) A) (low (p * q) B)] ∧
      (0 ≤ A ∧ A ≤ p * q) ∧ (0 ≤ B ∧ B ≤ p * q) ∧ TwoPrimes.SquareRoots p q a A B := by
  obtain ⟨hxp, hxq⟩ := (TwoPrimes.modEq_mul_iff hp hq hpq).1 hx
  obtain ⟨hp0, hplt, hpsq⟩ := hmsr p a x hp hxp
  obtain ⟨hq0, hqlt, hqsq⟩ := hmsr q a x hq hxq
  have hppos : (0 : ℤ) < p := by exact_mod_cast hp.pos
  have hqpos : (0 : ℤ) < q := by exact_mod_cast hq.pos
  have hu : (p : ℤ) * inverseMod p q ≡ 1 [ZMOD q] := mul_new_u_modEq hp hq hpq
  set xp := msr a p with hxpdef
  set xq := msr a q with hxqdef
  set A := crt xp p xq q (inverseMod p q) with hA
  set B := crt (p - xp) p xq q (inverseMod p q) with hB
  have hBp : B ≡ -xp [ZMOD p] :=
    (crt_modEq_left ..).trans (Int.modEq_iff_dvd.2 ⟨-1, by ring⟩)
  have hroots : TwoPrimes.SquareRoots p q a A B := TwoPrimes.SquareRoots.of_residues hp hq hpq
    hpsq hqsq (crt_modEq_left ..) (crt_modEq_right hu) hBp (crt_modEq_right hu)
  -- the two values with both signs turned are the reflections of the other two
  have hnA : crt (p - xp) p (q - xq) q (inverseMod p q) = p * q - A := crt_neg hqpos hu
  have hnB : crt xp p (q - xq) q (inverseMod p q) = p * q - B := by
    have hneg : crt (p - (p - xp)) p (q - xq) q (inverseMod p q) = p * q - B := crt_neg hqpos hu
    rwa [sub_sub_cancel] at hneg
  have hsq : ∀ r : ℤ, r * r ≡ a [ZMOD p * q] → r * r % (p * q) = a := by
    intro r hr
    rw [hr.eq, Int.emod_eq_of_lt ha0 han]
  have hrefl : ∀ y : ℤ, y * y ≡ a [ZMOD p * q] →
      (p * q - y) * (p * q - y) ≡ a [ZMOD p * q] := by
    intro y hy
    have hneg : p * q - y ≡ -y [ZMOD p * q] := Int.modEq_iff_dvd.2 ⟨-1, by ring⟩
    exact (hneg.mul hneg).trans (by rwa [neg_mul_neg])
  refine ⟨A, B, ?_, ⟨crt_nonneg hppos hqpos hp0, crt_le hppos hqpos hplt.le⟩,
    ⟨crt_nonneg hppos hqpos (by omega), crt_le hppos hqpos (by omega)⟩, hroots⟩
  have h1 : (SquareRoot.new p q).squareRoot msr a (-1) (-1) = .ok (p * q - A) :=
    squareRoot_of_root (Or.inl rfl) (Or.inl rfl) (by simpa using hnA)
      (hsq _ (hrefl A hroots.left_sq))
  have h2 : (SquareRoot.new p q).squareRoot msr a 1 (-1) = .ok (p * q - B) :=
    squareRoot_of_root (Or.inr rfl) (Or.inl rfl) (by simpa using hnB)
      (hsq _ (hrefl B hroots.right_sq))
  have h3 : (SquareRoot.new p q).squareRoot msr a (-1) 1 = .ok B :=
    squareRoot_of_root (Or.inl rfl) (Or.inr rfl) (by simpa using hB.symm) (hsq _ hroots.right_sq)
  have h4 : (SquareRoot.new p q).squareRoot msr a 1 1 = .ok A :=
    squareRoot_of_root (Or.inr rfl) (Or.inr rfl) (by simpa using hA.symm) (hsq _ hroots.left_sq)
  unfold SquareRoot.allSquareRoots
  rw [h1, h2, h3, h4]
  simp only [except_ok_bind]
  rw [insertionSort_reflections]

/-- The lower halves of two roots, in order, are what the first two entries are. -/
theorem firstTwo_low (hp : p.Prime) (hq : q.Prime) (hpq : p ≠ q) {a A B : ℤ}
    (hA : 0 ≤ A ∧ A ≤ p * q) (hB : 0 ≤ B ∧ B ≤ p * q) (h : TwoPrimes.SquareRoots p q a A B) :
    FirstTwo (p * q) a (min (low (p * q) A) (low (p * q) B))
      (max (low (p * q) A) (low (p * q) B)) := by
  have hn : (0 : ℤ) < p * q := by exact_mod_cast Nat.mul_pos hp.pos hq.pos
  have hsqA := low_sq h.left_sq
  have hsqB := low_sq h.right_sq
  exact {
    nonneg := le_min (low_nonneg hA.1 hA.2) (low_nonneg hB.1 hB.2)
    le := min_le_max
    two_mul_le := by
      have hA2 := two_mul_low_le (p * q) A
      have hB2 := two_mul_low_le (p * q) B
      omega
    sq1 := by
      rcases min_choice (low (p * q) A) (low (p * q) B) with hmin | hmin
      · rwa [hmin]
      · rwa [hmin]
    sq2 := by
      rcases max_choice (low (p * q) A) (low (p * q) B) with hmax | hmax
      · rwa [hmax]
      · rwa [hmax]
    complete := by
      intro z hz0 hzn hz
      have hlow : z = low (p * q) A ∨ z = low (p * q) B :=
        (h.complete hp hq hpq hz).imp (eq_low_of_modEq hn hA.1 hA.2 hz0 hzn)
          (eq_low_of_modEq hn hB.1 hB.2 hz0 hzn)
      omega }

/-- The first two entries of the array of a square. -/
theorem firstTwo_of_square (hmsr : msr.Lawful) (hp : p.Prime) (hq : q.Prime) (hpq : p ≠ q)
    {a x : ℤ} (hx : x * x ≡ a [ZMOD p * q]) (ha0 : 0 ≤ a) (han : a < p * q) :
    ∃ r1 r2 : ℤ, (SquareRoot.new p q).allSquareRoots msr a =
        .ok [r1, r2, p * q - r2, p * q - r1] ∧
      FirstTwo (p * q) a r1 r2 ∧
      ((p : ℤ) ∣ a ∨ (q : ℤ) ∣ a → r1 = r2) ∧
      (p ≠ 2 → q ≠ 2 → ¬ (p : ℤ) ∣ a → ¬ (q : ℤ) ∣ a → r1 ≠ r2) := by
  obtain ⟨A, B, hall, hA, hB, hroots⟩ := allSquareRoots_eq hmsr hp hq hpq hx ha0 han
  have hn : (0 : ℤ) < p * q := by exact_mod_cast Nat.mul_pos hp.pos hq.pos
  refine ⟨_, _, hall, firstTwo_low hp hq hpq hA hB hroots, ?_, ?_⟩
  · intro hdvd
    have hlow := (low_eq_low_iff hn hA hB).2 (hroots.coincide_of_dvd hp hq hpq hdvd)
    rw [hlow, min_self, max_self]
  · intro hp2 hq2 hpa hqa hr
    have hlow : low (p * q) A = low (p * q) B := by omega
    rcases hroots.dvd_of_coincide hp hq hpq hp2 hq2 ((low_eq_low_iff hn hA hB).1 hlow) with h | h
    · exact hpa h
    · exact hqa h

/-! ## The whole array -/

/-- The number is a square modulo `n`, in `[0, n)`. -/
def IsSquareMod (n a : ℤ) : Prop := 0 ≤ a ∧ a < n ∧ ∃ r, r * r ≡ a [ZMOD n]

theorem isSquareMod_iff {n a : ℤ} (hn : 0 < n) : IsSquareMod n a ↔ ∃ r : ℤ, r * r % n = a := by
  constructor
  · rintro ⟨h0, hlt, r, hr⟩
    exact ⟨r, by rw [hr.eq, Int.emod_eq_of_lt h0 hlt]⟩
  · rintro ⟨r, rfl⟩
    exact ⟨Int.emod_nonneg _ hn.ne', Int.emod_lt_of_pos _ hn, r, (Int.mod_modEq _ _).symm⟩

/-- What the array of a square holds: its roots in order, paired by their sum, and every root
up to `n / 2` among the first two. -/
structure Roots (n a x0 x1 x2 x3 : ℤ) : Prop where
  sorted : x0 ≤ x1 ∧ x1 ≤ x2 ∧ x2 ≤ x3
  range : ∀ x ∈ [x0, x1, x2, x3], 0 ≤ x ∧ x ≤ n
  square : ∀ x ∈ [x0, x1, x2, x3], x * x % n = a
  complete : ∀ x : ℤ, 0 ≤ x → x ≤ n / 2 → x * x % n = a → x = x0 ∨ x = x1
  sum_outer : x0 + x3 = n
  sum_inner : x1 + x2 = n

/-- What it holds besides for a number without a factor in common with `n`. -/
structure DistinctRoots (n a x0 x1 x2 x3 : ℤ) : Prop where
  nodup : [x0, x1, x2, x3].Nodup
  mem_iff : ∀ x : ℤ, x ∈ [x0, x1, x2, x3] ↔ 0 ≤ x ∧ x < n ∧ x * x % n = a
  low : x0 ≤ n / 2 ∧ x1 ≤ n / 2
  high : n / 2 < x2 ∧ n / 2 < x3

/-- The squares of a number and of its reflection agree. -/
theorem reflection_sq (n x : ℤ) : (n - x) * (n - x) % n = x * x % n := by
  have h : (n - x) * (n - x) ≡ x * x [ZMOD n] := Int.modEq_iff_dvd.2 ⟨2 * x - n, by ring⟩
  exact h.eq

theorem FirstTwo.roots {n a r1 r2 : ℤ} (h : FirstTwo n a r1 r2) (h0 : 0 ≤ a) (hlt : a < n) :
    Roots n a r1 r2 (n - r2) (n - r1) := by
  have hnn := h.nonneg
  have hle := h.le
  have htwo := h.two_mul_le
  have hsq1 : r1 * r1 % n = a := by rw [h.sq1.eq, Int.emod_eq_of_lt h0 hlt]
  have hsq2 : r2 * r2 % n = a := by rw [h.sq2.eq, Int.emod_eq_of_lt h0 hlt]
  refine ⟨⟨hle, by omega, by omega⟩, ?_, ?_, ?_, by omega, by omega⟩
  · intro x hx
    simp only [List.mem_cons, List.not_mem_nil, or_false] at hx
    omega
  · intro x hx
    simp only [List.mem_cons, List.not_mem_nil, or_false] at hx
    rcases hx with rfl | rfl | rfl | rfl
    · exact hsq1
    · exact hsq2
    · rwa [reflection_sq]
    · rwa [reflection_sq]
  · intro x hx0 hxn hsq
    refine h.complete x hx0 (by omega) ?_
    rw [← hsq]
    exact (Int.mod_modEq _ _).symm

/-- Where the first two differ, nothing coincides: `n` is odd, and zero is no root. -/
theorem FirstTwo.distinctRoots {n a r1 r2 : ℤ} (h : FirstTwo n a r1 r2) (h0 : 0 ≤ a) (hlt : a < n)
    (hodd : n % 2 = 1) (ha : a ≠ 0) (hne : r1 ≠ r2) :
    DistinctRoots n a r1 r2 (n - r2) (n - r1) := by
  have hroots := h.roots h0 hlt
  have hnn := h.nonneg
  have hle := h.le
  have htwo := h.two_mul_le
  have hpos : 0 < r1 := by
    rcases hnn.lt_or_eq with hpos | hzero
    · exact hpos
    · have hsq := hroots.square r1 List.mem_cons_self
      rw [← hzero] at hsq
      exact absurd (by simpa using hsq.symm) ha
  refine ⟨?_, ?_, ⟨by omega, by omega⟩, ⟨by omega, by omega⟩⟩
  · simp only [List.nodup_cons, List.mem_cons, List.not_mem_nil, or_false, not_false_eq_true,
      List.nodup_nil, and_true]
    omega
  · intro x
    constructor
    · intro hx
      have hsq := hroots.square x hx
      simp only [List.mem_cons, List.not_mem_nil, or_false] at hx
      exact ⟨by omega, by omega, hsq⟩
    · rintro ⟨hx0, hxn, hsq⟩
      simp only [List.mem_cons, List.not_mem_nil, or_false]
      by_cases hlow : x ≤ n / 2
      · have := hroots.complete x hx0 hlow hsq
        omega
      · have := hroots.complete (n - x) (by omega) (by omega) (by rwa [reflection_sq])
        omega

/-- **`all_square_roots` is complete and ordered.** -/
theorem allSquareRoots_spec (hmsr : msr.Lawful) (hp : p.Prime) (hq : q.Prime) (hpq : p ≠ q)
    (hp2 : p ≠ 2) (hq2 : q ≠ 2) (a : ℤ) :
    (¬ IsSquareMod (p * q) a →
      (SquareRoot.new p q).allSquareRoots msr a = .ok [-1, -1, -1, -1]) ∧
    (IsSquareMod (p * q) a → ∃ x0 x1 x2 x3,
      (SquareRoot.new p q).allSquareRoots msr a = .ok [x0, x1, x2, x3] ∧
        Roots (p * q) a x0 x1 x2 x3 ∧
        (IsCoprime a (p * q : ℤ) → DistinctRoots (p * q) a x0 x1 x2 x3)) := by
  have hn : (0 : ℤ) < p * q := by exact_mod_cast Nat.mul_pos hp.pos hq.pos
  constructor
  · intro hno
    apply allSquareRoots_of_not_square
    intro r hr
    exact hno ((isSquareMod_iff hn).2 ⟨r, hr⟩)
  · rintro ⟨h0, hlt, x, hx⟩
    obtain ⟨r1, r2, hall, hfirst, -, hdiff⟩ := firstTwo_of_square hmsr hp hq hpq hx h0 hlt
    refine ⟨r1, r2, _, _, hall, hfirst.roots h0 hlt, ?_⟩
    intro hcop
    have hnot : ∀ l : ℕ, l.Prime → IsCoprime a (l : ℤ) → ¬ (l : ℤ) ∣ a := by
      intro l hl hal hdvd
      have hunit := hal.isUnit_of_dvd' hdvd dvd_rfl
      exact hl.one_lt.ne' (by simpa using Int.isUnit_iff_natAbs_eq.1 hunit)
    have hpa := hnot p hp hcop.of_mul_right_left
    have hqa := hnot q hq hcop.of_mul_right_right
    have hodd : (p * q : ℤ) % 2 = 1 := by
      have hpo := hp.eq_two_or_odd.resolve_left hp2
      have hqo := hq.eq_two_or_odd.resolve_left hq2
      have hmul := Nat.mul_mod p q 2
      rw [hpo, hqo] at hmul
      exact_mod_cast hmul
    refine hfirst.distinctRoots h0 hlt hodd ?_ (hdiff hp2 hq2 hpa hqa)
    rintro rfl
    exact hpa (dvd_zero _)

/-- `allSquareRoots_spec` for the square of two modulo fifteen, which is coprime to fifteen. -/
theorem allSquareRoots_spec_fifteen : ∃ x0 x1 x2 x3,
    (SquareRoot.new 3 5).allSquareRoots searchRoot 4 = .ok [x0, x1, x2, x3] ∧
      Roots (3 * 5) 4 x0 x1 x2 x3 ∧ DistinctRoots (3 * 5) 4 x0 x1 x2 x3 := by
  obtain ⟨x0, x1, x2, x3, hall, hroots, hdistinct⟩ := (allSquareRoots_spec lawful_searchRoot
    Nat.prime_three Nat.prime_five (by decide) (by decide) (by decide) 4).2
    ⟨by decide, by decide, 2, rfl⟩
  exact ⟨x0, x1, x2, x3, hall, hroots, hdistinct ⟨4, -1, by norm_num⟩⟩

end

end SellingInformation.Common
