import SellingInformation.BitcoinUtils
import SellingInformation.Lib.Fallible

/-!
# The transaction the service finds

`BitcoinUtilsHandler` looks for a transaction by the address that one of its outputs pays.
It goes through the whole wallet and all outputs and keeps the last match.  An output that
is not pay-to-public-key-hash has no address, and the comparison with it throws.

Scripts are read by a library outside the repository, so they are of any type `Script`.

* `toByteArray_injective` — the bytes of a number determine it;
* `exists_findTransactionByOutput_iff` — the search returns when every output of every
  transaction has an address;
* `findTransactionByOutput_of_addressed` — it then returns the last transaction that pays;
* `readsNumbers_iff` — when the numbers handed out are those of the spender.
-/

namespace SellingInformation.BitcoinUtils

open CryptoPP Fallible

/-! ## The bytes of a number -/

/-- The sign bit of the bytes is free. -/
theorem bounds_of_bitLength (x : ℤ) :
    -(256 ^ (bitLength x / 8 + 1)) ≤ 2 * x ∧ 2 * x < 256 ^ (bitLength x / 8 + 1) := by
  have hpow : (2 : ℤ) * 2 ^ bitLength x ≤ 256 ^ (bitLength x / 8 + 1) := by
    have h256 : (256 : ℤ) ^ (bitLength x / 8 + 1) = 2 ^ (8 * (bitLength x / 8 + 1)) := by
      rw [pow_mul]
      norm_num
    rw [← pow_succ', h256]
    exact pow_le_pow_right₀ one_le_two (by omega)
  have hlt : (if x < 0 then -x - 1 else x) < 2 ^ bitLength x := by
    have hbits := lt_two_pow_bitCount (if x < 0 then -x - 1 else x)
    refine lt_of_le_of_lt Int.le_natAbs ?_
    exact_mod_cast hbits
  split at hlt <;> omega

theorem length_toByteArray (x : ℤ) : (toByteArray x).length = bitLength x / 8 + 1 := by
  simp [toByteArray]

/-- Different numbers are written as different bytes. -/
theorem toByteArray_injective : Function.Injective toByteArray := by
  intro x y h
  have hk : bitLength x / 8 + 1 = bitLength y / 8 + 1 := by
    rw [← length_toByteArray, ← length_toByteArray, h]
  have hmod : x % 256 ^ (bitLength x / 8 + 1) = y % 256 ^ (bitLength x / 8 + 1) := by
    rw [← ofBytes_toByteArray_emod, h, ofBytes_toByteArray_emod, hk]
  obtain ⟨hx1, hx2⟩ := bounds_of_bitLength x
  obtain ⟨hy1, hy2⟩ := bounds_of_bitLength y
  rw [← hk] at hy1 hy2
  -- the two are congruent and less than the modulus apart
  have hdvd : 256 ^ (bitLength x / 8 + 1) ∣ x - y := Int.ModEq.dvd (Int.ModEq.symm hmod)
  have habs : |x - y| < 256 ^ (bitLength x / 8 + 1) := by
    rw [abs_lt]
    constructor <;> omega
  exact sub_eq_zero.1 (Int.eq_zero_of_abs_lt_dvd hdvd habs)

/-! ## The wallet -/

/-- What the service's methods throw when a reference is null, an index is out of range, an
argument is refused, or the library cannot read a script. -/
inductive JavaExn
  | nullPointerException
  | indexOutOfBoundsException
  | illegalArgumentException
  | scriptException
  deriving DecidableEq, Repr

/-- An address of the network: the hash of a key. -/
abbrev Address := Vector UInt8 20

/-- The constructor of an address refuses a hash of another length. -/
def newAddress (bytes : Bytes) : Except JavaExn Address :=
  if h : bytes.length = 20 then .ok ⟨bytes.toArray, h⟩ else .error .illegalArgumentException

/-- Which output of which transaction. -/
structure OutPoint where
  hash : Bytes
  index : ℕ
  deriving DecidableEq, Repr

structure TransactionInput (Script : Type) where
  outpoint : OutPoint
  scriptSig : Script

/-- A transaction, with the scripts of its outputs. -/
structure Transaction (Script : Type) where
  inputs : List (TransactionInput Script)
  outputs : List Script

/-- What the library reads in scripts.  A null is `none`. -/
structure ScriptReader (Script : Type) where
  getAddressFromP2PKHScript : Script → Option Address
  getChunks : Script → Except JavaExn (List (Option Bytes))
  decodeFromDER : Bytes → Except JavaExn (ℤ × ℤ)

/-- A method call on a reference. -/
def nonNull {α : Type} : Option α → Except JavaExn α
  | some a => .ok a
  | none => .error .nullPointerException

/-- `get` of a list. -/
def get {α : Type} (l : List α) (i : ℕ) : Except JavaExn α :=
  match l[i]? with
  | some a => .ok a
  | none => .error .indexOutOfBoundsException

namespace Handler

variable {Script : Type} (lib : ScriptReader Script)

/-- `getOutput`. -/
def getOutput (tx : Transaction Script) (dst : Address) : Except JavaExn (Option Script) :=
  lastMatch (fun o => do
    let address ← nonNull (lib.getAddressFromP2PKHScript o)
    .ok (decide (address = dst))) tx.outputs

/-- `findTransactionByOutput`, with the transactions in the order the wallet hands them out. -/
def findTransactionByOutput (wallet : List (Transaction Script)) (addr : Address) :
    Except JavaExn (Option (Transaction Script)) :=
  lastMatch (fun wtx => do
    let o ← getOutput lib wtx addr
    .ok o.isSome) wallet

/-- The numbers of the signature that an input's script starts with. -/
def signatureOf (input : TransactionInput Script) : Except JavaExn (ℤ × ℤ) := do
  let chunks ← lib.getChunks input.scriptSig
  let chunk ← get chunks 0
  let data ← nonNull chunk
  lib.decodeFromDER data

/-- `getSignature`. -/
def getSignature (wallet : List (Transaction Script)) (baddr : Bytes) :
    Except JavaExn IntegerPair := do
  let addr ← newAddress baddr
  let found ← findTransactionByOutput lib wallet addr
  let tx ← nonNull found
  let input ← get tx.inputs 0
  let signature ← signatureOf lib input
  .ok (BitcoinUtils.getSignature signature.1 signature.2)

/-! ## The search -/

/-- An output of the transaction pays the address. -/
def Pays (addr : Address) (tx : Transaction Script) : Prop :=
  ∃ o ∈ tx.outputs, lib.getAddressFromP2PKHScript o = some addr

instance instDecidablePays (addr : Address) (tx : Transaction Script) :
    Decidable (Pays lib addr tx) :=
  inferInstanceAs (Decidable (∃ o ∈ tx.outputs, lib.getAddressFromP2PKHScript o = some addr))

/-- Every output has an address. -/
def Addressed (tx : Transaction Script) : Prop :=
  ∀ o ∈ tx.outputs, lib.getAddressFromP2PKHScript o ≠ none

/-- The last transaction of the wallet that pays the address. -/
def lastPaying (addr : Address) (wallet : List (Transaction Script)) :
    Option (Transaction Script) :=
  (wallet.filter fun tx => Pays lib addr tx).getLast?

variable {lib} {tx : Transaction Script} {wallet : List (Transaction Script)} {addr : Address}

/-- The comparison of one output throws when the output has no address. -/
theorem nonNull_eq_ok {α : Type} {x : Option α} : (∃ a, nonNull x = .ok a) ↔ x ≠ none := by
  cases x <;> simp [nonNull]

theorem exists_getOutput_iff : (∃ found, getOutput lib tx addr = .ok found) ↔ Addressed lib tx := by
  unfold getOutput Addressed
  rw [exists_lastMatch_eq_ok_iff]
  refine forall₂_congr fun o _ => ?_
  rw [← nonNull_eq_ok]
  simp only [except_bind_eq_ok]
  constructor
  · rintro ⟨_, a, ha, -⟩
    exact ⟨a, ha⟩
  · rintro ⟨a, ha⟩
    exact ⟨_, a, ha, rfl⟩

/-- A transaction whose outputs have addresses matches when it pays. -/
theorem getOutput_isSome (h : Addressed lib tx) :
    (getOutput lib tx addr >>= fun o => .ok o.isSome) = .ok (decide (Pays lib addr tx)) := by
  have hcompare : ∀ o ∈ tx.outputs, (nonNull (lib.getAddressFromP2PKHScript o) >>= fun address =>
      .ok (decide (address = addr))) = .ok (decide (lib.getAddressFromP2PKHScript o = some addr)) := by
    intro o ho
    obtain ⟨a, ha⟩ := Option.ne_none_iff_exists'.1 (h o ho)
    simp [ha, nonNull]
  unfold getOutput
  rw [lastMatch_of_ok hcompare, except_ok_bind]
  refine congrArg _ (Bool.eq_iff_iff.2 ?_)
  rw [decide_eq_true_iff]
  simp [Pays]

/-- The search goes through the whole wallet, so one output without an address stops it. -/
theorem exists_findTransactionByOutput_iff :
    (∃ found, findTransactionByOutput lib wallet addr = .ok found) ↔
      ∀ tx ∈ wallet, Addressed lib tx := by
  unfold findTransactionByOutput
  rw [exists_lastMatch_eq_ok_iff]
  refine forall₂_congr fun tx _ => ?_
  rw [← @exists_getOutput_iff _ _ _ addr]
  simp only [except_bind_eq_ok]
  constructor
  · rintro ⟨_, found, hfound, -⟩
    exact ⟨found, hfound⟩
  · rintro ⟨found, hfound⟩
    exact ⟨_, found, hfound, rfl⟩

theorem findTransactionByOutput_of_addressed (h : ∀ tx ∈ wallet, Addressed lib tx) :
    findTransactionByOutput lib wallet addr = .ok (lastPaying lib addr wallet) :=
  lastMatch_of_ok fun tx htx => getOutput_isSome (h tx htx)

/-! ## The signature -/

/-- Exactly one transaction of the wallet spends the output `o`.  It is `t2`, it pays the
address, and `numbers` are in the script of the input that spends. -/
structure Settled (lib : ScriptReader Script) (wallet : List (Transaction Script)) (o : OutPoint)
    (addr : Address) (t2 : Transaction Script) (numbers : ℤ × ℤ) : Prop where
  mem : t2 ∈ wallet
  spends_iff : ∀ tx ∈ wallet, (∃ input ∈ tx.inputs, input.outpoint = o) ↔ tx = t2
  pays : Pays lib addr t2
  signature : ∀ input ∈ t2.inputs, input.outpoint = o → signatureOf lib input = .ok numbers

/-- The search returns, and the signature handed out is made of `numbers`. -/
def ReadsNumbers (lib : ScriptReader Script) (wallet : List (Transaction Script)) (addr : Address)
    (numbers : ℤ × ℤ) : Prop :=
  (∃ found, findTransactionByOutput lib wallet addr = .ok found) ∧
    getSignature lib wallet addr.toList = .ok (BitcoinUtils.getSignature numbers.1 numbers.2)

theorem newAddress_toList (addr : Address) : newAddress addr.toList = .ok addr := by
  unfold newAddress
  rw [dif_pos (by simp)]
  rfl

/-- The bytes of an address are those it was made of. -/
theorem newAddress_eq_ok {bytes : Bytes} {addr : Address} (h : newAddress bytes = .ok addr) :
    addr.toList = bytes := by
  unfold newAddress at h
  split at h
  · cases h
    simp
  · cases h

theorem getSignature_injective {numbers numbers' : ℤ × ℤ}
    (h : BitcoinUtils.getSignature numbers.1 numbers.2 =
      BitcoinUtils.getSignature numbers'.1 numbers'.2) : numbers = numbers' :=
  Prod.ext (toByteArray_injective (congrArg IntegerPair.r h))
    (toByteArray_injective (congrArg IntegerPair.s h))

/-- What is handed out is read in the first input of the last transaction that pays. -/
theorem getSignature_of_lastPaying (h : ∀ tx ∈ wallet, Addressed lib tx)
    (hlast : lastPaying lib addr wallet = some tx) {numbers : ℤ × ℤ} :
    getSignature lib wallet addr.toList = .ok (BitcoinUtils.getSignature numbers.1 numbers.2) ↔
      ∃ input, tx.inputs[0]? = some input ∧ signatureOf lib input = .ok numbers := by
  unfold getSignature
  rw [newAddress_toList, except_ok_bind, findTransactionByOutput_of_addressed h, except_ok_bind,
    hlast, nonNull, except_ok_bind, get]
  cases hinput : tx.inputs[0]? with
  | none => exact iff_of_false nofun fun ⟨_, hsome, _⟩ => nomatch hsome
  | some input =>
    rw [except_ok_bind]
    cases hsig : signatureOf lib input with
    | error e =>
      refine iff_of_false nofun ?_
      rintro ⟨_, ⟨⟩, hok⟩
      exact nomatch hsig.symm.trans hok
    | ok numbers' =>
      rw [except_ok_bind]
      constructor
      · intro hpair
        have heq := getSignature_injective (Except.ok.inj hpair)
        exact ⟨input, rfl, hsig.trans (congrArg _ heq)⟩
      · rintro ⟨_, ⟨⟩, hok⟩
        rw [hsig] at hok
        rw [Except.ok.inj hok]

/-- The spender pays, so there is a last transaction that does. -/
theorem Settled.exists_lastPaying {o : OutPoint} {t2 : Transaction Script} {numbers : ℤ × ℤ}
    (h : Settled lib wallet o addr t2 numbers) : ∃ tx, lastPaying lib addr wallet = some tx := by
  have hmem : t2 ∈ wallet.filter fun tx => Pays lib addr tx :=
    List.mem_filter.2 ⟨h.mem, decide_eq_true h.pays⟩
  exact ⟨_, List.getLast?_eq_some_getLast (List.ne_nil_of_mem hmem)⟩

/-- **The signature of the spender.**  When one transaction spends the output, its numbers are
read exactly when every output in the wallet has an address and the last transaction that pays
the seller's address has the same numbers in its first input. -/
theorem readsNumbers_iff (lib : ScriptReader Script) {wallet : List (Transaction Script)}
    {o : OutPoint} {addr : Address} {t2 : Transaction Script} {numbers : ℤ × ℤ}
    (h : Settled lib wallet o addr t2 numbers) : ReadsNumbers lib wallet addr numbers ↔
      (∀ tx ∈ wallet, Addressed lib tx) ∧
        ∀ tx, lastPaying lib addr wallet = some tx →
          ∃ input, tx.inputs[0]? = some input ∧ signatureOf lib input = .ok numbers := by
  obtain ⟨last, hlast⟩ := h.exists_lastPaying
  unfold ReadsNumbers
  rw [exists_findTransactionByOutput_iff]
  refine and_congr_right fun haddressed => ?_
  rw [getSignature_of_lastPaying haddressed hlast]
  constructor
  · rintro hinput tx htx
    rw [hlast] at htx
    cases htx
    exact hinput
  · intro hall
    exact hall last hlast

/-! ## A reader of plain scripts -/

/-- The chunks of a script that only pushes data of up to 75 bytes. -/
def pushes : ℕ → Bytes → List (Option Bytes)
  | 0, _ => []
  | _, [] => []
  | fuel + 1, n :: script => some (script.take n.toNat) :: pushes fuel (script.drop n.toNat)

/-- Scripts as bytes: the one of an output that pays to the hash of a key, the pushes of an
input, and a signature whose numbers have one byte each. -/
def plainReader : ScriptReader Bytes where
  getAddressFromP2PKHScript script :=
    if h : script.length = 25 ∧ script.take 3 = [0x76, 0xa9, 0x14] ∧
        script.drop 23 = [0x88, 0xac] then
      some ⟨((script.drop 3).take 20).toArray, by simp [h.1]⟩
    else none
  getChunks script := .ok (pushes script.length script)
  decodeFromDER bytes :=
    match bytes with
    | 0x30 :: 6 :: 2 :: 1 :: r :: 2 :: 1 :: s :: _ => .ok (r.toNat, s.toNat)
    | _ => .error .illegalArgumentException

def plainAddress : Address := Vector.replicate 20 1

/-- The output script that pays `plainAddress`. -/
def plainOutput : Bytes := [0x76, 0xa9, 0x14] ++ List.replicate 20 1 ++ [0x88, 0xac]

theorem address_plainOutput :
    plainReader.getAddressFromP2PKHScript plainOutput = some plainAddress := by
  decide

/-- A transaction that spends `o`, pays `plainAddress` and pushes the signature `r, s`. -/
def plainTransaction (o : OutPoint) (r s : UInt8) : Transaction Bytes where
  inputs := [{ outpoint := o, scriptSig := [9, 0x30, 6, 2, 1, r, 2, 1, s, 1] }]
  outputs := [plainOutput]

theorem pays_plainTransaction (o : OutPoint) (r s : UInt8) :
    Pays plainReader plainAddress (plainTransaction o r s) :=
  ⟨_, List.mem_cons_self, address_plainOutput⟩

/-- Transactions that do not spend `o` may be in the wallet too. -/
theorem settled_plainTransaction {o : OutPoint} {r s : UInt8} {rest : List (Transaction Bytes)}
    (h : ∀ tx ∈ rest, ∀ input ∈ tx.inputs, input.outpoint ≠ o) :
    Settled plainReader (plainTransaction o r s :: rest) o plainAddress (plainTransaction o r s)
      (r.toNat, s.toNat) := by
  have hspends : ∃ input ∈ (plainTransaction o r s).inputs, input.outpoint = o :=
    ⟨_, List.mem_cons_self, rfl⟩
  refine ⟨List.mem_cons_self, fun tx htx => ?_, pays_plainTransaction o r s, ?_⟩
  · rcases List.mem_cons.1 htx with rfl | htx
    · exact iff_of_true hspends rfl
    · have hnot : ¬ ∃ input ∈ tx.inputs, input.outpoint = o := by
        rintro ⟨input, hinput, ho⟩
        exact h tx htx input hinput ho
      refine iff_of_false hnot ?_
      rintro rfl
      exact hnot hspends
  · intro input hinput _
    rw [List.mem_singleton.1 hinput]
    rfl

/-- `readsNumbers_iff` where the spender is the whole wallet. -/
theorem readsNumbers_alone :
    let t2 := plainTransaction ⟨[1], 0⟩ 5 7
    Settled plainReader [t2] ⟨[1], 0⟩ plainAddress t2 (5, 7) ∧
      ReadsNumbers plainReader [t2] plainAddress (5, 7) := by
  intro t2
  have hsettled : Settled plainReader [t2] ⟨[1], 0⟩ plainAddress t2 (5, 7) :=
    settled_plainTransaction (by simp)
  refine ⟨hsettled, (readsNumbers_iff plainReader hsettled).2 ⟨?_, ?_⟩⟩
  · intro tx htx script hscript
    rw [List.mem_singleton.1 htx] at hscript
    rw [List.mem_singleton.1 hscript, address_plainOutput]
    nofun
  · intro tx htx
    have hmem := List.mem_of_getLast? htx
    rw [List.mem_singleton.1 (List.mem_filter.1 hmem).1]
    exact ⟨_, rfl, rfl⟩

/-- A payment to a script elsewhere in the wallet stops the search, and another payment to the
seller's address changes what is found. -/
theorem not_readsNumbers_other_payment :
    let t2 := plainTransaction ⟨[1], 0⟩ 5 7
    let toScript : Transaction Bytes :=
      { inputs := [], outputs := [[0xa9, 0x14] ++ List.replicate 20 2 ++ [0x87]] }
    let other := plainTransaction ⟨[2], 0⟩ 3 4
    (Settled plainReader [t2, toScript] ⟨[1], 0⟩ plainAddress t2 (5, 7) ∧
      ¬ ReadsNumbers plainReader [t2, toScript] plainAddress (5, 7)) ∧
    Settled plainReader [t2, other] ⟨[1], 0⟩ plainAddress t2 (5, 7) ∧
      ¬ ReadsNumbers plainReader [t2, other] plainAddress (5, 7) := by
  intro t2 toScript other
  refine ⟨⟨settled_plainTransaction (by simp [toScript]), ?_⟩,
    settled_plainTransaction (by simp [other, plainTransaction]), ?_⟩
  · rintro ⟨⟨found, hfound⟩, -⟩
    have hthrows : findTransactionByOutput plainReader [t2, toScript] plainAddress =
        .error .nullPointerException := rfl
    exact nomatch hthrows.symm.trans hfound
  · rintro ⟨-, hsig⟩
    have hother : getSignature plainReader [t2, other] plainAddress.toList =
        .ok (BitcoinUtils.getSignature 3 4) := rfl
    have heq : ((3, 4) : ℤ × ℤ) = (5, 7) :=
      getSignature_injective (Except.ok.inj (hother.symm.trans hsig))
    exact absurd heq (by decide)

end Handler

end SellingInformation.BitcoinUtils
