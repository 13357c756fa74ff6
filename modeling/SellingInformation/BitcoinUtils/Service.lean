import Mathlib.Data.List.Nodup
import Mathlib.Logic.Denumerable
import SellingInformation.BitcoinUtils.Wallet

/-!
# The transactions the service makes

The methods of `BitcoinUtilsHandler` that the sale calls for its two transactions, and the one
that takes the payment back.  All of them look for the output that pays the shared key with
`getOutput`.

A transaction object is a value of any type `Tx`.  What the methods call in the library is
`BitcoinJ`, and `BitcoinJ.Lawful` is what they rely on.

* `getOutput_spec` — the output that is found: the last one that pays;
* `createSendTransactionToAddress_spec`, `getSignedTransaction_spec`, `redemption_spec` — the
  transactions that are made of it;
* `eq_of_spends` — a chain has one transaction that spends an output;
* `getSignature_of_only` — the numbers handed out when one transaction pays.
-/

namespace SellingInformation.BitcoinUtils

open CryptoPP Fallible

/-! ## The library -/

/-- An output, with its value in satoshis. -/
structure TransactionOutput (Script : Type) where
  value : ℤ
  script : Script

/-- What the methods call in the library.  The three functions `spend`, `spendSigned` and
`newInputScript` stand for short sequences of calls. -/
structure BitcoinJ (Tx Script : Type) extends ScriptReader Script where
  /-- The constructor that reads a serialized transaction. -/
  newTransaction : Bytes → Except JavaExn Tx
  bitcoinSerialize : Tx → Bytes
  getHash : Tx → Bytes
  getInputs : Tx → List (TransactionInput Script)
  getOutputs : Tx → List (TransactionOutput Script)
  /-- The address of a key. -/
  getAddressFromXY : Bytes → Bytes → Except JavaExn Address
  /-- `Coin.subtract`. -/
  subtract : ℤ → ℤ → Except JavaExn ℤ
  /-- A new transaction, with `addInput` of an output and `addOutput` of a value to an address. -/
  spend : Tx → ℕ → ℤ → Address → Except JavaExn Tx
  /-- The same with `addSignedInput`, and `verify` of the input. -/
  spendSigned : Tx → ℕ → ℤ → Address → ℤ → Except JavaExn Tx
  newScript : Bytes → Except JavaExn Script
  getScriptBytes : Script → Bytes
  hashForSignature : Tx → ℕ → Script → Except JavaExn Bytes32
  /-- `Script.createInputScript` of a signature and a key. -/
  newInputScript : ℤ → ℤ → Bytes → Bytes → Except JavaExn Script
  correctlySpends : Script → Tx → ℕ → Script → Except JavaExn Unit
  setScriptSig : Tx → ℕ → Script → Except JavaExn Tx

namespace BitcoinJ

variable {Tx Script : Type}

/-- The outputs that a transaction spends. -/
def outpoints (lib : BitcoinJ Tx Script) (tx : Tx) : List OutPoint :=
  (lib.getInputs tx).map TransactionInput.outpoint

/-- The one output of a transaction has this value and this address. -/
def PaysOnly (lib : BitcoinJ Tx Script) (tx : Tx) (value : ℤ) (addr : Address) : Prop :=
  ∃ o, lib.getOutputs tx = [o] ∧ o.value = value ∧
    lib.getAddressFromP2PKHScript o.script = some addr

/-- What the methods rely on. -/
structure Lawful (lib : BitcoinJ Tx Script) : Prop where
  newTransaction_serialize : ∀ tx, lib.newTransaction (lib.bitcoinSerialize tx) = .ok tx
  newScript_bytes : ∀ s, lib.newScript (lib.getScriptBytes s) = .ok s
  subtract_eq : ∀ {a b c}, lib.subtract a b = .ok c → c = a - b
  spend_eq : ∀ {src i value addr tx}, lib.spend src i value addr = .ok tx →
    lib.outpoints tx = [⟨lib.getHash src, i⟩] ∧ lib.PaysOnly tx value addr
  spendSigned_eq : ∀ {src i value addr sk tx}, lib.spendSigned src i value addr sk = .ok tx →
    lib.outpoints tx = [⟨lib.getHash src, i⟩] ∧ lib.PaysOnly tx value addr
  setScriptSig_eq : ∀ {tx i script tx'}, lib.setScriptSig tx i script = .ok tx' →
    lib.outpoints tx' = lib.outpoints tx ∧ lib.getOutputs tx' = lib.getOutputs tx ∧
      ∃ input, (lib.getInputs tx')[i]? = some input ∧ input.scriptSig = script
  newInputScript_eq : ∀ {r s x y script}, 0 ≤ r → 0 ≤ s →
    lib.newInputScript r s x y = .ok script → ∀ o : OutPoint,
      Handler.signatureOf lib.toScriptReader ⟨o, script⟩ = .ok (r, s)

variable (lib : BitcoinJ Tx Script)

/-! ## The methods -/

/-- `Wallet.SendRequest.DEFAULT_FEE_PER_KB`, as the constructor of the handler sets it. -/
def defaultFeePerKb : ℤ := 6000

/-- `getOutput`: the last output that pays the address, with its index. -/
def getOutput (tx : Tx) (dst : Address) : Except JavaExn (Option (TransactionOutput Script × ℕ)) :=
  lastMatch (fun o => do
    let address ← nonNull (lib.getAddressFromP2PKHScript o.1.script)
    .ok (decide (address = dst))) (lib.getOutputs tx).zipIdx

/-- `createSendTransactionToAddress`.  The loop over the outputs is that of `getOutput`. -/
def createSendTransactionToAddress (tx x y dst : Bytes) : Except JavaExn Bytes := do
  let srcTx ← lib.newTransaction tx
  let srcAddr ← lib.getAddressFromXY x y
  let dstAddr ← newAddress dst
  let output ← lib.getOutput srcTx srcAddr
  match output with
  | none => .ok []
  | some (o, i) => do
    let value ← lib.subtract o.value defaultFeePerKb
    let result ← lib.spend srcTx i value dstAddr
    .ok (lib.bitcoinSerialize result)

/-- `getOutputScript`. -/
def getOutputScript (btx x y : Bytes) : Except JavaExn Bytes := do
  let tx ← lib.newTransaction btx
  let dstAddr ← lib.getAddressFromXY x y
  let output ← lib.getOutput tx dstAddr
  let o ← nonNull output
  .ok (lib.getScriptBytes o.1.script)

/-- `hashForSignature`.  The key is not used. -/
def hashForSignatureOf (btx _x _y bredeemScript : Bytes) : Except JavaExn Bytes := do
  let tx ← lib.newTransaction btx
  let redeemScript ← lib.newScript bredeemScript
  let hash ← lib.hashForSignature tx 0 redeemScript
  .ok hash.toList

/-- `getSignedTransaction`.  A script that does not spend gives no bytes. -/
def getSignedTransaction (btx x y br bs bredeemScript : Bytes) : Except JavaExn Bytes := do
  let tx ← lib.newTransaction btx
  let redeemScript ← lib.newScript bredeemScript
  let inputScript ← lib.newInputScript (ofBytes br) (ofBytes bs) x y
  match lib.correctlySpends inputScript tx 0 redeemScript with
  | .error _ => .ok []
  | .ok () => do
    let signed ← lib.setScriptSig tx 0 inputScript
    .ok (lib.bitcoinSerialize signed)

/-- `verifyTransaction`. -/
def verifyTransaction (btx x y : Bytes) (value : Int32) : Except JavaExn Bool := do
  let tx ← lib.newTransaction btx
  let addr ← lib.getAddressFromXY x y
  let output ← lib.getOutput tx addr
  match output with
  | none => .ok false
  | some (o, _) => if o.value ≠ value.toInt then .ok false else .ok true

/-- The transaction that `redeemTransaction` makes. -/
def redemption (freshAddress : Address) (btx bsk x y : Bytes) : Except JavaExn Tx := do
  let txSrc ← lib.newTransaction btx
  let sk := ofBytes bsk
  let outputAddr ← lib.getAddressFromXY x y
  let output ← lib.getOutput txSrc outputAddr
  let o ← nonNull output
  let value ← lib.subtract o.1.value defaultFeePerKb
  lib.spendSigned txSrc o.2 value freshAddress sk

/-- `redeemTransaction`, with what the network answers.  Every exception is caught. -/
def redeemTransaction (freshAddress : Address) (broadcast : Tx → Except JavaExn Unit)
    (waitForTransactionHelper : Tx → ℕ → Bool) (btx bsk x y : Bytes) : Bool :=
  match lib.redemption freshAddress btx bsk x y with
  | .error _ => false
  | .ok tx =>
    match broadcast tx with
    | .error _ => false
    | .ok () => waitForTransactionHelper tx 1

/-! ## What is found and made -/

section
variable {lib} {tx src : Tx} {addr dst : Address} {o : TransactionOutput Script} {i : ℕ}
  {t1 t2 x y : Bytes}

/-- What is found is an output of the transaction, it pays the address, and every output has
an address. -/
theorem getOutput_spec (h : lib.getOutput tx addr = .ok (some (o, i))) :
    (lib.getOutputs tx)[i]? = some o ∧ lib.getAddressFromP2PKHScript o.script = some addr := by
  obtain ⟨hmem, htest⟩ := mem_of_lastMatch h
  obtain ⟨address, haddress, hsame⟩ := except_bind_eq_ok.1 htest
  refine ⟨List.mem_zipIdx_iff_getElem?.1 hmem, ?_⟩
  cases hread : lib.getAddressFromP2PKHScript o.script with
  | none =>
    rw [hread] at haddress
    cases haddress
  | some a =>
    rw [hread] at haddress
    cases haddress
    rw [of_decide_eq_true (Except.ok.inj hsame)]

/-- The payment `t1`, the output of it that pays the key, and its index. -/
structure Found (lib : BitcoinJ Tx Script) (t1 x y : Bytes) (src : Tx)
    (o : TransactionOutput Script) (i : ℕ) : Prop where
  read : lib.newTransaction t1 = .ok src
  output : ∃ addr, lib.getAddressFromXY x y = .ok addr ∧ lib.getOutput src addr = .ok (some (o, i))

/-- One payment has one output that is found. -/
theorem Found.unique {src' : Tx} {o' : TransactionOutput Script} {i' : ℕ}
    (h : lib.Found t1 x y src o i) (h' : lib.Found t1 x y src' o' i') :
    src' = src ∧ o' = o ∧ i' = i := by
  obtain ⟨hread, addr, haddr, hout⟩ := h
  obtain ⟨hread', addr', haddr', hout'⟩ := h'
  rw [hread] at hread'
  cases hread'
  rw [haddr] at haddr'
  cases haddr'
  rw [hout] at hout'
  cases hout'
  exact ⟨rfl, rfl, rfl⟩

/-- The script that is handed out is that of the output that is found. -/
theorem getOutputScript_spec {script : Bytes} (h : lib.getOutputScript t1 x y = .ok script) :
    ∃ src o i, lib.Found t1 x y src o i ∧ script = lib.getScriptBytes o.script := by
  obtain ⟨src, hsrc, h1⟩ := except_bind_eq_ok.1 h
  obtain ⟨addr, haddr, h2⟩ := except_bind_eq_ok.1 h1
  obtain ⟨found, hfound, h3⟩ := except_bind_eq_ok.1 h2
  obtain ⟨⟨o, i⟩, houtput, h4⟩ := except_bind_eq_ok.1 h3
  cases found with
  | none => cases houtput
  | some output =>
    cases houtput
    exact ⟨src, o, i, ⟨hsrc, addr, haddr, hfound⟩, (Except.ok.inj h4).symm⟩

/-- The transaction that passes on the output that is found. -/
theorem createSendTransactionToAddress_spec (hlib : lib.Lawful) {bdst : Bytes}
    (hfound : lib.Found t1 x y src o i)
    (h : lib.createSendTransactionToAddress t1 x y bdst = .ok t2) :
    ∃ dst tx, newAddress bdst = .ok dst ∧ lib.newTransaction t2 = .ok tx ∧
      lib.outpoints tx = [⟨lib.getHash src, i⟩] ∧
      lib.PaysOnly tx (o.value - defaultFeePerKb) dst := by
  obtain ⟨hread, addr, haddr, hout⟩ := hfound
  unfold createSendTransactionToAddress at h
  rw [hread, except_ok_bind, haddr, except_ok_bind] at h
  obtain ⟨dst, hdst, h1⟩ := except_bind_eq_ok.1 h
  rw [hout, except_ok_bind] at h1
  obtain ⟨value, hvalue, h2⟩ := except_bind_eq_ok.1 h1
  obtain ⟨tx, htx, h3⟩ := except_bind_eq_ok.1 h2
  cases h3
  obtain ⟨hspends, hpays⟩ := hlib.spend_eq htx
  rw [hlib.subtract_eq hvalue] at hpays
  exact ⟨dst, tx, hdst, hlib.newTransaction_serialize tx, hspends, hpays⟩

theorem hashForSignatureOf_spec (hlib : lib.Lawful) {script : Script} {data : Bytes}
    (hread : lib.newTransaction t2 = .ok tx)
    (h : lib.hashForSignatureOf t2 x y (lib.getScriptBytes script) = .ok data) :
    ∃ hash, lib.hashForSignature tx 0 script = .ok hash ∧ data = hash.toList := by
  unfold hashForSignatureOf at h
  rw [hread, except_ok_bind, hlib.newScript_bytes, except_ok_bind] at h
  obtain ⟨hash, hhash, h1⟩ := except_bind_eq_ok.1 h
  exact ⟨hash, hhash, (Except.ok.inj h1).symm⟩

/-- The value that is checked is that of the output that is found. -/
theorem verifyTransaction_eq_true {value : Int32} : lib.verifyTransaction t1 x y value = .ok true ↔
    ∃ src o i, lib.Found t1 x y src o i ∧ o.value = value.toInt := by
  constructor
  · intro h
    obtain ⟨src, hsrc, h⟩ := except_bind_eq_ok.1 h
    obtain ⟨addr, haddr, h⟩ := except_bind_eq_ok.1 h
    obtain ⟨found, hfound, h⟩ := except_bind_eq_ok.1 h
    cases found with
    | none => cases h
    | some output =>
      obtain ⟨o, i⟩ := output
      refine ⟨src, o, i, ⟨hsrc, addr, haddr, hfound⟩, ?_⟩
      by_contra hne
      simp [hne] at h
  · rintro ⟨src, o, i, ⟨hread, addr, haddr, hout⟩, hvalue⟩
    unfold verifyTransaction
    rw [hread, except_ok_bind, haddr, except_ok_bind, hout, except_ok_bind]
    exact if_neg (not_not.2 hvalue)

/-- Signing changes the script of the first input alone. -/
theorem getSignedTransaction_spec (hlib : lib.Lawful) {br bs script signed : Bytes}
    (h : lib.getSignedTransaction t2 x y br bs script = .ok signed) (hne : signed ≠ []) :
    ∃ tx tx' redeem inputScript input, lib.newTransaction t2 = .ok tx ∧
      lib.newScript script = .ok redeem ∧
      lib.newInputScript (ofBytes br) (ofBytes bs) x y = .ok inputScript ∧
      lib.correctlySpends inputScript tx 0 redeem = .ok () ∧
      lib.newTransaction signed = .ok tx' ∧ lib.outpoints tx' = lib.outpoints tx ∧
      lib.getOutputs tx' = lib.getOutputs tx ∧
      (lib.getInputs tx')[0]? = some input ∧ input.scriptSig = inputScript := by
  obtain ⟨tx, htx, h⟩ := except_bind_eq_ok.1 h
  obtain ⟨redeem, hredeem, h⟩ := except_bind_eq_ok.1 h
  obtain ⟨inputScript, hscript, h⟩ := except_bind_eq_ok.1 h
  cases hspends : lib.correctlySpends inputScript tx 0 redeem with
  | error e =>
    rw [hspends] at h
    cases h
    exact absurd rfl hne
  | ok u =>
    rw [hspends] at h
    obtain ⟨tx', htx', h⟩ := except_bind_eq_ok.1 h
    cases h
    obtain ⟨hout, houtputs, input, hinput, hsig⟩ := hlib.setScriptSig_eq htx'
    exact ⟨tx, tx', redeem, inputScript, input, htx, hredeem, hscript, hspends,
      hlib.newTransaction_serialize tx', hout, houtputs, hinput, hsig⟩

/-- The transaction that takes the payment back spends the same output. -/
theorem redemption_spec (hlib : lib.Lawful) {fresh : Address} {bsk : Bytes}
    (h : lib.redemption fresh t1 bsk x y = .ok tx) : ∃ src o i, lib.Found t1 x y src o i ∧
      lib.outpoints tx = [⟨lib.getHash src, i⟩] ∧
      lib.PaysOnly tx (o.value - defaultFeePerKb) fresh := by
  obtain ⟨src, hsrc, h1⟩ := except_bind_eq_ok.1 h
  obtain ⟨addr, haddr, h2⟩ := except_bind_eq_ok.1 h1
  obtain ⟨found, hfound, h3⟩ := except_bind_eq_ok.1 h2
  obtain ⟨⟨o, i⟩, houtput, h4⟩ := except_bind_eq_ok.1 h3
  obtain ⟨value, hvalue, hspend⟩ := except_bind_eq_ok.1 h4
  cases found with
  | none => cases houtput
  | some output =>
    cases houtput
    obtain ⟨hspends, hpays⟩ := hlib.spendSigned_eq hspend
    rw [hlib.subtract_eq hvalue] at hpays
    exact ⟨src, o, i, ⟨hsrc, addr, haddr, hfound⟩, hspends, hpays⟩

/-- It returns true only when that transaction has been broadcast and seen. -/
theorem redeemTransaction_eq_true {fresh : Address} {broadcast : Tx → Except JavaExn Unit}
    {wait : Tx → ℕ → Bool} {bsk : Bytes} :
    lib.redeemTransaction fresh broadcast wait t1 bsk x y = true ↔
      ∃ tx, lib.redemption fresh t1 bsk x y = .ok tx ∧ broadcast tx = .ok () ∧ wait tx 1 = true := by
  unfold redeemTransaction
  cases lib.redemption fresh t1 bsk x y with
  | error e => simp
  | ok tx => cases hb : broadcast tx <;> simp [hb]

/-! ## The wallet -/

/-- A transaction as the search of the wallet sees it. -/
def toTransaction (lib : BitcoinJ Tx Script) (tx : Tx) : Transaction Script where
  inputs := lib.getInputs tx
  outputs := (lib.getOutputs tx).map TransactionOutput.script

/-- Both see one `getOutput`. -/
theorem getOutput_toTransaction : Handler.getOutput lib.toScriptReader (lib.toTransaction tx) addr =
    (lib.getOutput tx addr).map (Option.map fun o => o.1.script) := by
  have houtputs : (lib.toTransaction tx).outputs =
      (lib.getOutputs tx).zipIdx.map fun o => o.1.script := by
    have hmap : ((fun o : TransactionOutput Script × ℕ => o.1.script)) =
        TransactionOutput.script ∘ Prod.fst := rfl
    rw [hmap, ← List.map_map, List.zipIdx_map_fst]
    rfl
  unfold Handler.getOutput
  rw [houtputs, lastMatch_map]
  rfl

/-- A transaction with one output pays one address. -/
theorem PaysOnly.address_unique {value value' : ℤ} (h : lib.PaysOnly tx value addr)
    (h' : lib.PaysOnly tx value' dst) : addr = dst := by
  obtain ⟨o, houtputs, -, ho⟩ := h
  obtain ⟨o', houtputs', -, ho'⟩ := h'
  rw [houtputs] at houtputs'
  cases houtputs'
  exact Option.some.inj (ho.symm.trans ho')

theorem PaysOnly.pays {value : ℤ} (h : lib.PaysOnly tx value addr) :
    Handler.Pays lib.toScriptReader addr (lib.toTransaction tx) := by
  obtain ⟨o, houtputs, -, ho⟩ := h
  refine ⟨o.script, ?_, ho⟩
  simp [toTransaction, houtputs]

theorem PaysOnly.addressed {value : ℤ} (h : lib.PaysOnly tx value addr) :
    Handler.Addressed lib.toScriptReader (lib.toTransaction tx) := by
  obtain ⟨o, houtputs, -, ho⟩ := h
  intro script hscript
  have hone : script = o.script := by simpa [toTransaction, houtputs] using hscript
  rw [hone, ho]
  exact Option.some_ne_none _

/-- When one transaction of the wallet pays the address, the numbers handed out are those of its
first input. -/
theorem getSignature_of_only {wallet : List Tx} {input : TransactionInput Script} {numbers : ℤ × ℤ}
    (haddressed : ∀ t ∈ wallet, Handler.Addressed lib.toScriptReader (lib.toTransaction t))
    (hmem : tx ∈ wallet) (hpays : Handler.Pays lib.toScriptReader addr (lib.toTransaction tx))
    (honly : ∀ t ∈ wallet, Handler.Pays lib.toScriptReader addr (lib.toTransaction t) → t = tx)
    (hinput : (lib.getInputs tx)[0]? = some input)
    (hnumbers : Handler.signatureOf lib.toScriptReader input = .ok numbers) :
    Handler.getSignature lib.toScriptReader (wallet.map lib.toTransaction) addr.toList =
      .ok (BitcoinUtils.getSignature numbers.1 numbers.2) := by
  have hall : ∀ t ∈ wallet.map lib.toTransaction, Handler.Addressed lib.toScriptReader t := by
    simpa using haddressed
  have hpaying : ∀ t ∈ (wallet.map lib.toTransaction).filter
      fun t => Handler.Pays lib.toScriptReader addr t, t = lib.toTransaction tx := by
    intro t ht
    obtain ⟨hmem', hpay⟩ := List.mem_filter.1 ht
    obtain ⟨t', ht', rfl⟩ := List.mem_map.1 hmem'
    rw [honly t' ht' (of_decide_eq_true hpay)]
  have hlast : Handler.lastPaying lib.toScriptReader addr (wallet.map lib.toTransaction) =
      some (lib.toTransaction tx) := by
    have hin : lib.toTransaction tx ∈ (wallet.map lib.toTransaction).filter
        fun t => Handler.Pays lib.toScriptReader addr t :=
      List.mem_filter.2 ⟨List.mem_map_of_mem hmem, decide_eq_true hpays⟩
    have hne := List.ne_nil_of_mem hin
    unfold Handler.lastPaying
    rw [List.getLast?_eq_some_getLast hne, hpaying _ (List.getLast_mem hne)]
  exact (Handler.getSignature_of_lastPaying hall hlast).2 ⟨input, hinput, hnumbers⟩

/-! ## The chain -/

/-- No output is spent twice. -/
def Chain (lib : BitcoinJ Tx Script) (chain : List Tx) : Prop := (chain.flatMap lib.outpoints).Nodup

/-- An output has one spender. -/
theorem Chain.eq_of_spends {chain : List Tx} (h : lib.Chain chain) {a b : Tx} {out : OutPoint}
    (ha : a ∈ chain) (hb : b ∈ chain) (hsa : out ∈ lib.outpoints a) (hsb : out ∈ lib.outpoints b) :
    a = b := by
  by_contra hne
  have hpair := (List.nodup_flatMap.1 h).2
  have hsymm : Std.Symm (Function.onFun List.Disjoint lib.outpoints) :=
    ⟨fun _ _ hd => List.Disjoint.symm hd⟩
  have hdisjoint := hpair.forall ha hb hne
  exact hdisjoint hsa hsb

end

end BitcoinJ

/-! ## A small library -/

/-- A script pays one of three addresses, or has the two numbers of a signature. -/
abbrev SmallScript := Fin 3 ⊕ (ℤ × ℤ)

/-- The payment, or a transaction that takes it: a value, an address and the script of the input. -/
abbrev SmallTx := Option (ℤ × Fin 3 × SmallScript)

/-- As many bytes as the code of the value says. -/
@[irreducible] def code {α : Type} [Encodable α] (a : α) : Bytes := List.replicate (Encodable.encode a + 1) 0

def decode {α : Type} [Encodable α] (bytes : Bytes) : Except JavaExn α :=
  match Encodable.decode (bytes.length - 1) with
  | some a => .ok a
  | none => .error .illegalArgumentException

theorem decode_code {α : Type} [Encodable α] (a : α) : decode (code a) = .ok a := by
  unfold decode code
  simp [Encodable.encodek]

theorem code_ne_nil {α : Type} [Encodable α] (a : α) : (code a).length ≠ 0 := by
  unfold code
  simp

def smallAddress (i : Fin 3) : Address := Vector.replicate 20 (UInt8.ofNat i)

/-- Where the seller is paid, and where the buyer redeems to. -/
def payee : Address := smallAddress 1

def redeemer : Address := smallAddress 2

/-- A payment of twenty thousand to the first address, and what takes it. -/
def smallLibrary : BitcoinJ SmallTx SmallScript where
  getAddressFromP2PKHScript
    | .inl i => some (smallAddress i)
    | .inr _ => none
  getChunks
    | .inl _ => .error .scriptException
    | .inr numbers => .ok [some (code numbers)]
  decodeFromDER := decode
  newTransaction := decode
  bitcoinSerialize := code
  getHash := code
  getInputs
    | none => []
    | some (_, _, script) => [⟨⟨code (none : SmallTx), 0⟩, script⟩]
  getOutputs
    | none => [⟨20000, .inl 0⟩]
    | some (value, i, _) => [⟨value, .inl i⟩]
  getAddressFromXY _ _ := .ok (smallAddress 0)
  subtract a b := .ok (a - b)
  spend src j value addr :=
    match src, j, (List.finRange 3).find? fun i => smallAddress i = addr with
    | none, 0, some i => .ok (some (value, i, .inl 0))
    | _, _, _ => .error .illegalArgumentException
  spendSigned src j value addr sk :=
    match src, j, (List.finRange 3).find? fun i => smallAddress i = addr with
    | none, 0, some i => .ok (some (value, i, .inr (sk, sk)))
    | _, _, _ => .error .illegalArgumentException
  newScript := decode
  getScriptBytes := code
  hashForSignature _ _ _ := .ok (Vector.replicate 32 0)
  newInputScript r s _ _ := .ok (.inr (r, s))
  correctlySpends script _ _ redeem :=
    match script, redeem with
    | .inr _, .inl 0 => .ok ()
    | _, _ => .error .scriptException
  setScriptSig tx j script :=
    match tx, j with
    | some (value, i, _), 0 => .ok (some (value, i, script))
    | _, _ => .error .indexOutOfBoundsException

theorem newTransaction_code (tx : SmallTx) : smallLibrary.newTransaction (code tx) = .ok tx :=
  decode_code tx

theorem newScript_code (script : SmallScript) : smallLibrary.newScript (code script) = .ok script :=
  decode_code script

theorem lawful_smallLibrary : smallLibrary.Lawful where
  newTransaction_serialize := newTransaction_code
  newScript_bytes := newScript_code
  subtract_eq h := (Except.ok.inj h).symm
  spend_eq := by
    intro src j value addr tx h
    simp only [smallLibrary] at h
    split at h
    · rename_i i hfind
      cases h
      have haddr : smallAddress i = addr := by simpa using List.find?_some hfind
      exact ⟨rfl, ⟨value, .inl i⟩, rfl, rfl, congrArg some haddr⟩
    · cases h
  spendSigned_eq := by
    intro src j value addr sk tx h
    simp only [smallLibrary] at h
    split at h
    · rename_i i hfind
      cases h
      have haddr : smallAddress i = addr := by simpa using List.find?_some hfind
      exact ⟨rfl, ⟨value, .inl i⟩, rfl, rfl, congrArg some haddr⟩
    · cases h
  setScriptSig_eq := by
    intro tx j script tx' h
    simp only [smallLibrary] at h
    split at h
    · cases h
      exact ⟨rfl, rfl, _, rfl, rfl⟩
    · cases h
  newInputScript_eq := by
    intro r s x y script _ _ h o
    cases h
    unfold Handler.signatureOf
    simp only [smallLibrary, except_ok_bind, get, nonNull]
    exact decode_code (r, s)

section
variable (x y : Bytes)

theorem found_small : smallLibrary.Found (code (none : SmallTx)) x y none ⟨20000, .inl 0⟩ 0 :=
  ⟨newTransaction_code none, _, rfl, rfl⟩

theorem createSendTransactionToAddress_small :
    smallLibrary.createSendTransactionToAddress (code (none : SmallTx)) x y payee.toList =
      .ok (code (some (14000, 1, .inl 0) : SmallTx)) := by
  unfold BitcoinJ.createSendTransactionToAddress
  rw [newTransaction_code, except_ok_bind, Handler.newAddress_toList]
  rfl

theorem getOutputScript_small : smallLibrary.getOutputScript (code (none : SmallTx)) x y =
    .ok (code (.inl 0 : SmallScript)) := by
  unfold BitcoinJ.getOutputScript
  rw [newTransaction_code]
  rfl

theorem hashForSignatureOf_small : smallLibrary.hashForSignatureOf
    (code (some (14000, 1, .inl 0) : SmallTx)) x y (code (.inl 0 : SmallScript)) =
      .ok (Vector.replicate 32 0).toList := by
  unfold BitcoinJ.hashForSignatureOf
  rw [newTransaction_code, except_ok_bind, newScript_code]
  rfl

theorem getSignedTransaction_small (r s : Bytes) : smallLibrary.getSignedTransaction
    (code (some (14000, 1, .inl 0) : SmallTx)) x y r s (code (.inl 0 : SmallScript)) =
      .ok (code (some (14000, 1, .inr (ofBytes r, ofBytes s)) : SmallTx)) := by
  unfold BitcoinJ.getSignedTransaction
  rw [newTransaction_code, except_ok_bind, newScript_code]
  rfl

end

end SellingInformation.BitcoinUtils
