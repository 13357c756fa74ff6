import SellingInformation.Common.Common

/-!
# Bit strings

`BitUtils` turns byte strings and numbers into `vector<bool>` and back, eight
bits a byte with the lowest bit first.  `from_bits` keeps the length of its
argument in an `unsigned`, so it only sees the length modulo `2 ^ 32`.

A bit vector of whole bytes is `toBits` of them (`exists_toBits`), and `from_bits`
gives back as many of them as it sees (`fromBits_toBits`).  `codec_iff` says from
this for which inputs the codec loses nothing: those of fewer than `2 ^ 29` bytes.
-/

namespace SellingInformation.TimedCommitment

open CryptoPP Common Fallible

/-- The bits of a byte, lowest first. -/
def byteBits (e : UInt8) : List Bool := (List.range 8).map fun i => e.toNat.testBit i

/-- `to_bits`. -/
def toBits (cont : Bytes) : List Bool := cont.flatMap byteBits

/-- One round of the loop of `from_bits`: the byte whose bits are given. -/
def byteOfBits (bits : List Bool) : UInt8 :=
  UInt8.ofNat ((List.range 8).map fun bit => if bits.getD bit false then 1 <<< bit else 0).sum

/-- The loop of `from_bits`, for `k` bytes. -/
def fromBitsLoop : ℕ → List Bool → Bytes
  | 0, _ => []
  | k + 1, bits => byteOfBits (bits.take 8) :: fromBitsLoop k (bits.drop 8)

/-- `from_bits`. -/
def fromBits (bits : List Bool) : Except Exn Bytes := do
  let l := UInt32.ofNat bits.length
  refuseIf (l.toNat % 8 ≠ 0) .stdException
  .ok (fromBitsLoop (l.toNat / 8) bits)

namespace BitUtils

/-- `string_to_bits`. -/
def stringToBits (s : Bytes) : List Bool := toBits s

/-- `integer_to_bits`. -/
def integerToBits (i : ℤ) : Except Exn (List Bool) := do
  refuseIf (i < 0) .stdException
  .ok (toBits (encode i (minEncodedSize i)))

/-- `bits_to_string`. -/
def bitsToString (bits : List Bool) : Except Exn Bytes := fromBits bits

/-- `bits_to_integer`. -/
def bitsToInteger (bits : List Bool) : Except Exn ℤ := do
  let bytes ← fromBits bits
  .ok (ofBytes bytes)

end BitUtils

@[simp] theorem length_byteBits (e : UInt8) : (byteBits e).length = 8 := by
  simp [byteBits]

@[simp] theorem length_toBits (cont : Bytes) : (toBits cont).length = 8 * cont.length := by
  induction cont with
  | nil => rfl
  | cons e cont ih =>
    unfold toBits
    rw [List.flatMap_cons, List.length_append, length_byteBits]
    unfold toBits at ih
    rw [ih, List.length_cons]
    omega

theorem byteOfBits_byteBits (e : UInt8) : byteOfBits (byteBits e) = e := by
  have key : ∀ n : Fin 256, byteOfBits (byteBits (UInt8.ofNat n)) = UInt8.ofNat n := by
    decide +kernel
  have he := key ⟨e.toNat, e.toNat_lt⟩
  rwa [UInt8.ofNat_toNat] at he

theorem byteBits_byteOfBits {bits : List Bool} (h : bits.length = 8) :
    byteBits (byteOfBits bits) = bits := by
  have key : ∀ b0 b1 b2 b3 b4 b5 b6 b7 : Bool,
      byteBits (byteOfBits [b0, b1, b2, b3, b4, b5, b6, b7]) =
        [b0, b1, b2, b3, b4, b5, b6, b7] := by
    decide +kernel
  match bits, h with
  | [b0, b1, b2, b3, b4, b5, b6, b7], _ => exact key b0 b1 b2 b3 b4 b5 b6 b7

@[simp] theorem toBits_nil : toBits [] = [] := rfl

theorem toBits_cons (e : UInt8) (cont : Bytes) : toBits (e :: cont) = byteBits e ++ toBits cont :=
  rfl

theorem toBits_injective : Function.Injective toBits := by
  intro cont
  induction cont with
  | nil =>
    intro cont' h
    have hlen := congrArg List.length h
    rw [length_toBits, length_toBits] at hlen
    exact (List.length_eq_zero_iff.1 (by simpa using hlen.symm)).symm
  | cons e cont ih =>
    intro cont' h
    cases cont' with
    | nil => simpa using congrArg List.length h
    | cons e' cont' =>
      rw [toBits_cons, toBits_cons] at h
      obtain ⟨he, hcont⟩ := List.append_inj h (by rw [length_byteBits, length_byteBits])
      have hbyte := congrArg byteOfBits he
      rw [byteOfBits_byteBits, byteOfBits_byteBits] at hbyte
      rw [hbyte, ih hcont]

theorem toBits_take (k : ℕ) (cont : Bytes) : toBits (cont.take k) = (toBits cont).take (8 * k) := by
  induction k generalizing cont with
  | zero => rfl
  | succ k ih =>
    cases cont with
    | nil => simp
    | cons e cont =>
      have hlen : 8 * (k + 1) = (byteBits e).length + 8 * k := by
        rw [length_byteBits]
        omega
      rw [List.take_succ_cons, toBits_cons, toBits_cons, ih, hlen, List.take_length_add_append]

/-- Every bit vector of whole bytes is the one of some byte string. -/
theorem exists_toBits {bits : List Bool} (h : 8 ∣ bits.length) : ∃ cont, bits = toBits cont := by
  obtain ⟨k, hk⟩ := h
  induction k generalizing bits with
  | zero => exact ⟨[], List.length_eq_zero_iff.1 hk⟩
  | succ k ih =>
    have htake : (bits.take 8).length = 8 := by rw [List.length_take]; omega
    have hdrop : (bits.drop 8).length = 8 * k := by rw [List.length_drop]; omega
    obtain ⟨cont, hcont⟩ := ih hdrop
    refine ⟨byteOfBits (bits.take 8) :: cont, ?_⟩
    rw [toBits_cons, byteBits_byteOfBits htake, ← hcont, List.take_append_drop]

theorem fromBitsLoop_toBits {k : ℕ} {cont : Bytes} (h : k ≤ cont.length) :
    fromBitsLoop k (toBits cont) = cont.take k := by
  induction k generalizing cont with
  | zero => rfl
  | succ k ih =>
    cases cont with
    | nil => simp at h
    | cons e cont =>
      have htake : (toBits (e :: cont)).take 8 = byteBits e :=
        List.take_left' (length_byteBits e)
      have hdrop : (toBits (e :: cont)).drop 8 = toBits cont :=
        List.drop_left' (length_byteBits e)
      rw [fromBitsLoop, htake, hdrop, byteOfBits_byteBits, ih (by simpa using h),
        List.take_succ_cons]

/-- `from_bits` sees the number of bytes modulo `2 ^ 29`. -/
theorem fromBits_toBits (cont : Bytes) :
    fromBits (toBits cont) = .ok (cont.take (cont.length % 2 ^ 29)) := by
  have hl : (UInt32.ofNat (toBits cont).length).toNat = 8 * (cont.length % 2 ^ 29) := by
    rw [UInt32.toNat_ofNat', length_toBits]
    omega
  have hmod : ¬ 8 * (cont.length % 2 ^ 29) % 8 ≠ 0 := by omega
  have hdiv : 8 * (cont.length % 2 ^ 29) / 8 = cont.length % 2 ^ 29 := by omega
  simp only [fromBits, hl]
  rw [refuseIf_of_not hmod, except_ok_bind, hdiv, fromBitsLoop_toBits (Nat.mod_le _ _)]

/-- A length that is not a multiple of eight is refused, whatever `unsigned` does to it. -/
theorem fromBits_of_not_dvd {bits : List Bool} (h : ¬ 8 ∣ bits.length) :
    fromBits bits = .error .stdException := by
  have hl : (UInt32.ofNat bits.length).toNat % 8 ≠ 0 := by
    rw [UInt32.toNat_ofNat']
    omega
  simp only [fromBits]
  rw [refuseIf_of hl, except_error_bind]

theorem integerToBits_of_nonneg {i : ℤ} (hi : 0 ≤ i) :
    BitUtils.integerToBits i = .ok (toBits (encode i (minEncodedSize i))) := by
  unfold BitUtils.integerToBits
  rw [refuseIf_of_not (not_lt.2 hi), except_ok_bind]

theorem bitsToInteger_toBits (cont : Bytes) :
    BitUtils.bitsToInteger (toBits cont) = .ok (ofBytes (cont.take (cont.length % 2 ^ 29))) := by
  unfold BitUtils.bitsToInteger
  rw [fromBits_toBits, except_ok_bind]

theorem bitsToInteger_toBits_encode {i : ℤ} (hi : 0 ≤ i) (h : 8 * minEncodedSize i < 2 ^ 32) :
    BitUtils.bitsToInteger (toBits (encode i (minEncodedSize i))) = .ok i := by
  have hlen : (encode i (minEncodedSize i)).length < 2 ^ 29 := by
    rw [length_encode]
    omega
  have hval : ofBytes (encode i (minEncodedSize i)) = i := ofBytes_toBytes_of_nonneg hi
  rw [bitsToInteger_toBits, Nat.mod_eq_of_lt hlen, List.take_length, hval]

/-! ## What the codec loses -/

/-- The first `len mod 2 ^ 29` bytes are all bytes of a string exactly when it is
shorter than `2 ^ 29`. -/
theorem take_mod_eq_self_iff {cont : Bytes} :
    cont.take (cont.length % 2 ^ 29) = cont ↔ cont.length < 2 ^ 29 := by
  rw [List.take_eq_self_iff]
  omega

theorem toBits_eq_false_iff {cont : Bytes} :
    (∀ x ∈ toBits cont, x = false) ↔ ∀ e ∈ cont, e = 0 := by
  have hbyte : ∀ e : UInt8, (∀ x ∈ byteBits e, x = false) ↔ e = 0 := by
    intro e
    have hzero : byteBits 0 = List.replicate 8 false := by decide
    refine ⟨fun h => ?_, fun h => ?_⟩
    · have hall : byteBits e = byteBits 0 := by
        rw [hzero]
        exact List.eq_replicate_iff.2 ⟨length_byteBits e, h⟩
      rw [← byteOfBits_byteBits e, hall, byteOfBits_byteBits]
    · rw [h, hzero]
      exact fun x hx => List.eq_of_mem_replicate hx
  induction cont with
  | nil => simp
  | cons e cont ih =>
    rw [toBits_cons, List.forall_mem_append, List.forall_mem_cons]
    exact and_congr (hbyte e) ih

/-- A string comes back from its bits. -/
def StringRoundTrip (s : Bytes) : Prop :=
  BitUtils.bitsToString (BitUtils.stringToBits s) = .ok s

/-- The bits are refused unless they are whole bytes, and otherwise come back from
the string that is read. -/
def BitsRoundTrip (bits : List Bool) : Prop :=
  ((∃ e, BitUtils.bitsToString bits = .error e) ↔ ¬ 8 ∣ bits.length) ∧
  ((∃ e, BitUtils.bitsToInteger bits = .error e) ↔ ¬ 8 ∣ bits.length) ∧
  (8 ∣ bits.length → ∃ s, BitUtils.bitsToString bits = .ok s ∧ BitUtils.stringToBits s = bits)

/-- A negative number is refused; any other is written with as many bytes as it
needs, at least one, and comes back. -/
def IntegerRoundTrip (i : ℤ) : Prop :=
  (i < 0 → ∃ e, BitUtils.integerToBits i = .error e) ∧
  (0 ≤ i → ∃ bits, BitUtils.integerToBits i = .ok bits ∧
    bits.length = 8 * max 1 (byteCount i) ∧ BitUtils.bitsToInteger bits = .ok i)

/-- `k` zero bytes in front do not change the number that is read. -/
def ZeroPrefix (k : ℕ) (bits : List Bool) : Prop :=
  BitUtils.bitsToInteger (List.replicate (8 * k) false ++ bits) = BitUtils.bitsToInteger bits

theorem stringRoundTrip_iff {s : Bytes} : StringRoundTrip s ↔ s.length < 2 ^ 29 := by
  unfold StringRoundTrip BitUtils.bitsToString BitUtils.stringToBits
  rw [fromBits_toBits, Except.ok.injEq, take_mod_eq_self_iff]

theorem bitsRoundTrip_iff {bits : List Bool} :
    BitsRoundTrip bits ↔ ¬ 8 ∣ bits.length ∨ bits.length < 2 ^ 32 := by
  unfold BitsRoundTrip BitUtils.bitsToString BitUtils.bitsToInteger BitUtils.stringToBits
  by_cases h : 8 ∣ bits.length
  · obtain ⟨cont, rfl⟩ := exists_toBits h
    rw [fromBits_toBits, except_ok_bind]
    have hlen : (toBits cont).length < 2 ^ 32 ↔ cont.length < 2 ^ 29 := by
      rw [length_toBits]
      omega
    simp only [h, not_true_eq_false, false_or, hlen, reduceCtorEq, exists_false, true_and,
      true_implies, Except.ok.injEq, exists_eq_left', toBits_injective.eq_iff, take_mod_eq_self_iff]
  · simp [h, fromBits_of_not_dvd h]

/-- The high bytes of a number do not give the number when any are missing. -/
theorem ofBytes_take_encode_ne {i : ℤ} {k len : ℕ} (hk : k < byteCount i) :
    ofBytes ((encode i len).take k) ≠ i := by
  intro h
  have hval := Radix.ofBytes_lt ((encode i len).take k)
  have hnat : Radix.ofBytes ((encode i len).take k) = i.natAbs := by
    unfold ofBytes at h
    omega
  rw [hnat, ← Radix.byteLength_le_iff, List.length_take] at hval
  exact absurd (hval.trans (min_le_left _ _)) (not_le.2 hk)

theorem integerRoundTrip_iff {i : ℤ} :
    IntegerRoundTrip i ↔ i < 0 ∨ max 1 (byteCount i) < 2 ^ 29 := by
  unfold IntegerRoundTrip
  by_cases hi : i < 0
  · have herr : BitUtils.integerToBits i = .error .stdException := by
      unfold BitUtils.integerToBits
      rw [refuseIf_of hi, except_error_bind]
    simp [hi, herr, not_le.2 hi]
  · have hnn : 0 ≤ i := not_lt.1 hi
    have hlen : (toBits (encode i (minEncodedSize i))).length = 8 * max 1 (byteCount i) := by
      rw [length_toBits, length_encode, minEncodedSize]
    have hread : BitUtils.bitsToInteger (toBits (encode i (minEncodedSize i))) = .ok i ↔
        max 1 (byteCount i) < 2 ^ 29 := by
      refine ⟨fun h => ?_, fun h => bitsToInteger_toBits_encode hnn (by unfold minEncodedSize; omega)⟩
      by_contra hlong
      rw [bitsToInteger_toBits, length_encode, Except.ok.injEq] at h
      refine ofBytes_take_encode_ne ?_ h
      unfold minEncodedSize
      omega
    simp only [hi, hnn, integerToBits_of_nonneg hnn, false_implies, true_implies, true_and,
      false_or, Except.ok.injEq, exists_eq_left', hlen, hread]

/-- Zero bytes in front are zero bits in front. -/
theorem toBits_zeros_append (k : ℕ) (cont : Bytes) :
    toBits (List.replicate k 0 ++ cont) = List.replicate (8 * k) false ++ toBits cont := by
  induction k with
  | zero => rfl
  | succ k ih =>
    have hzero : byteBits 0 = List.replicate 8 false := by decide
    have hk : 8 * (k + 1) = 8 + 8 * k := by ring
    rw [List.replicate_succ, List.cons_append, toBits_cons, ih, hzero, hk, List.replicate_add,
      List.append_assoc]

theorem zeroPrefix_iff {k : ℕ} {bits : List Bool} :
    ZeroPrefix k bits ↔ ¬ 8 ∣ bits.length ∨ k ≤ (k + bits.length / 8) % 2 ^ 29 ∨
      ∀ x ∈ bits.take (bits.length % 2 ^ 32), x = false := by
  unfold ZeroPrefix
  by_cases h : 8 ∣ bits.length
  · obtain ⟨cont, rfl⟩ := exists_toBits h
    have hm : (toBits cont).length / 8 = cont.length := by
      rw [length_toBits]
      omega
    have hseen : (toBits cont).take ((toBits cont).length % 2 ^ 32) =
        toBits (cont.take (cont.length % 2 ^ 29)) := by
      rw [toBits_take, length_toBits]
      congr 1
      omega
    have htotal : (List.replicate k 0 ++ cont : Bytes).length = k + cont.length := by
      rw [List.length_append, List.length_replicate]
    rw [← toBits_zeros_append, bitsToInteger_toBits, bitsToInteger_toBits, hseen,
      toBits_eq_false_iff, hm, htotal, List.take_append, List.length_replicate,
      List.take_replicate, Except.ok.injEq]
    unfold ofBytes
    rw [Radix.ofBytes_zeros_append, Nat.cast_inj, ← Radix.ofBytes_eq_zero_iff]
    by_cases hfit : k ≤ (k + cont.length) % 2 ^ 29
    · have hrest : (k + cont.length) % 2 ^ 29 - k = cont.length % 2 ^ 29 := by omega
      rw [hrest]
      exact iff_of_true rfl (.inr (.inl hfit))
    · have hrest : (k + cont.length) % 2 ^ 29 - k = 0 := by omega
      rw [hrest, List.take_zero, Radix.ofBytes_nil, eq_comm, or_iff_right hfit,
        or_iff_right (not_not.2 h)]
  · have hfront : ¬ 8 ∣ (List.replicate (8 * k) false ++ bits).length := by
      rw [List.length_append, List.length_replicate]
      omega
    unfold BitUtils.bitsToInteger
    rw [fromBits_of_not_dvd h, fromBits_of_not_dvd hfront]
    simp [h]

/-- For which inputs the codec loses nothing. -/
theorem codec_iff (s : Bytes) (bits : List Bool) (i : ℤ) (k : ℕ) :
    (StringRoundTrip s ↔ s.length < 2 ^ 29) ∧
    (BitsRoundTrip bits ↔ ¬ 8 ∣ bits.length ∨ bits.length < 2 ^ 32) ∧
    (IntegerRoundTrip i ↔ i < 0 ∨ max 1 (byteCount i) < 2 ^ 29) ∧
    (ZeroPrefix k bits ↔ ¬ 8 ∣ bits.length ∨ k ≤ (k + bits.length / 8) % 2 ^ 29 ∨
      ∀ x ∈ bits.take (bits.length % 2 ^ 32), x = false) :=
  ⟨stringRoundTrip_iff, bitsRoundTrip_iff, integerRoundTrip_iff, zeroPrefix_iff⟩

/-- Half a gigabyte of zero bytes reads back as the empty string. -/
theorem not_stringRoundTrip_long : ¬ StringRoundTrip (List.replicate (2 ^ 29) 0) := by
  rw [stringRoundTrip_iff, List.length_replicate]
  exact lt_irrefl _

end SellingInformation.TimedCommitment
