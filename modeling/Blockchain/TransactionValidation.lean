import Blockchain.UtxoSet

/-! Consensus validation of transactions: context-free sanity, the input check that
yields the fee, and coinbase maturity. Money sums are u64 sums as the code writes
them; `Sane` says what the sanity check guarantees in the natural numbers. -/
namespace Blockchain
open Lib

def kUint64Max : Nat := 2 ^ 64 - 1

/-- `checked_add`: the sum, or nothing when it would wrap. -/
def checkedAdd (lhs rhs : UInt64) : Option UInt64 :=
  if lhs.toNat > kUint64Max - rhs.toNat then none else some (lhs + rhs)

theorem checkedAdd_eq_some {a b c : UInt64} :
    checkedAdd a b = some c ↔ a.toNat + b.toNat < 2 ^ 64 ∧ c = a + b := by
  have hb := b.toNat_lt
  unfold checkedAdd kUint64Max
  by_cases h : a.toNat > 2 ^ 64 - 1 - b.toNat
  · simp only [h, if_true, reduceCtorEq, false_iff]
    omega
  · simp only [h, if_false, Option.some.injEq]
    constructor
    · intro hc
      exact ⟨by omega, hc.symm⟩
    · intro hc
      exact hc.2.symm

theorem checkedAdd_toNat {a b c : UInt64} (h : checkedAdd a b = some c) :
    c.toNat = a.toNat + b.toNat := by
  obtain ⟨hlt, rfl⟩ := checkedAdd_eq_some.mp h
  rw [UInt64.toNat_add, Nat.mod_eq_of_lt hlt]

def checkReservedPrevouts : List TxInput → Result Unit
  | [] => .ok ()
  | input :: rest =>
    if input.prevout.index = kNullPrevoutIndex then
      makeError .invalidTransaction "non-coinbase input uses the reserved coinbase outpoint"
    else checkReservedPrevouts rest

def checkDuplicateInputs (seen : List OutPoint) : List TxInput → Result Unit
  | [] => .ok ()
  | input :: rest =>
    if input.prevout ∈ seen then
      makeError .invalidTransaction ("duplicate input " ++ outpointStr input.prevout)
    else checkDuplicateInputs (input.prevout :: seen) rest

/-- One turn of the output loop: the running sum with `output` added. -/
def addOutput (totalOut : UInt64) (output : TxOutput) : Result UInt64 :=
  if output.value > kMaxMoney then
    makeError .invalidTransaction "output value exceeds maximum"
  else match checkedAdd totalOut output.value with
    | none => makeError .invalidTransaction "sum of outputs exceeds maximum"
    | some sum =>
      if sum > kMaxMoney then makeError .invalidTransaction "sum of outputs exceeds maximum"
      else .ok sum

def sumOutputs (totalOut : UInt64) : List TxOutput → Result UInt64
  | [] => .ok totalOut
  | output :: rest => do
    let sum ← addOutput totalOut output
    sumOutputs sum rest

def checkTransactionSanity (tx : Transaction) : Result Unit :=
  if tx.inputs.isEmpty then makeError .invalidTransaction "transaction has no inputs"
  else if tx.outputs.isEmpty then makeError .invalidTransaction "transaction has no outputs"
  else if tx.inputs.length > kMaxInputsPerTransaction.toNat then
    makeError .invalidTransaction "too many inputs"
  else if tx.outputs.length > kMaxOutputsPerTransaction.toNat then
    makeError .invalidTransaction "too many outputs"
  else do
    (if tx.isCoinbase then .ok () else checkReservedPrevouts tx.inputs)
    checkDuplicateInputs [] tx.inputs
    let _ ← sumOutputs 0 tx.outputs
    if tx.toBytes.length > kMaxTransactionSizeBytes.toNat then
      makeError .invalidTransaction "transaction exceeds maximum size"
    else .ok ()

def sumInputs (utxos : UtxoSet) (totalIn : UInt64) : List TxInput → Result UInt64
  | [] => .ok totalIn
  | input :: rest =>
    match utxos.find input.prevout with
    | none => makeError .invalidTransaction
        ("input refers to missing or spent output " ++ outpointStr input.prevout)
    | some coin =>
      match checkedAdd totalIn coin.output.value with
      | none => makeError .invalidTransaction "sum of inputs overflows"
      | some total => sumInputs utxos total rest

/-- The unchecked loop `total_out += output.value`. -/
def totalOut (outputs : List TxOutput) : UInt64 := outputs.foldl (fun total o => total + o.value) 0

def checkTransactionInputs (tx : Transaction) (utxos : UtxoSet) : Result UInt64 := do
  let totalIn ← sumInputs utxos 0 tx.inputs
  if totalIn < totalOut tx.outputs then
    makeError .invalidTransaction ("outputs (" ++ toString (totalOut tx.outputs).toNat ++
      ") exceed inputs (" ++ toString totalIn.toNat ++ ")")
  else .ok (totalIn - totalOut tx.outputs)

def checkMatureInputs (utxos : UtxoSet) (spendHeight maturity : UInt32) : List TxInput → Result Unit
  | [] => .ok ()
  | input :: rest =>
    match utxos.find input.prevout with
    | none => checkMatureInputs utxos spendHeight maturity rest
    | some coin =>
      if coin.coinbase = true ∧ spendHeight.toUInt64 < coin.height.toUInt64 + maturity.toUInt64 then
        makeError .invalidTransaction ("immature coinbase spend of " ++ outpointStr input.prevout)
      else checkMatureInputs utxos spendHeight maturity rest

def checkCoinbaseMaturity (tx : Transaction) (utxos : UtxoSet) (spendHeight maturity : UInt32) :
    Result Unit :=
  checkMatureInputs utxos spendHeight maturity tx.inputs

def outputValue (outputs : List TxOutput) : Nat := (outputs.map fun o => o.value.toNat).sum

/-- What a transaction that passes `checkTransactionSanity` is known to satisfy. -/
structure Transaction.Sane (tx : Transaction) : Prop where
  inputs_ne : tx.inputs ≠ []
  outputs_ne : tx.outputs ≠ []
  limits : tx.WithinLimits
  reserved : tx.isCoinbase = false → ∀ o ∈ tx.prevouts, o.index ≠ kNullPrevoutIndex
  prevouts_nodup : tx.prevouts.Nodup
  value_le : outputValue tx.outputs ≤ kMaxMoney.toNat
  size_le : tx.toBytes.length ≤ kMaxTransactionSizeBytes.toNat

theorem checkReservedPrevouts_ok (inputs : List TxInput) :
    checkReservedPrevouts inputs = .ok () ↔
      ∀ o ∈ inputs.map TxInput.prevout, o.index ≠ kNullPrevoutIndex := by
  induction inputs with
  | nil => simp [checkReservedPrevouts]
  | cons i is ih =>
    rw [checkReservedPrevouts, guard_eq_ok, ih]
    simp

theorem checkDuplicateInputs_ok (seen : List OutPoint) (inputs : List TxInput) :
    checkDuplicateInputs seen inputs = .ok () ↔
      (inputs.map TxInput.prevout).Nodup ∧ ∀ o ∈ inputs.map TxInput.prevout, o ∉ seen := by
  induction inputs generalizing seen with
  | nil => simp [checkDuplicateInputs]
  | cons i is ih =>
    rw [checkDuplicateInputs, guard_eq_ok, ih, List.map_cons, List.nodup_cons]
    constructor
    · intro h
      obtain ⟨hseen, hnd, hrest⟩ := h
      refine ⟨⟨?_, hnd⟩, ?_⟩
      · intro hm
        exact hrest _ hm List.mem_cons_self
      · intro o ho
        obtain rfl | ho := List.mem_cons.mp ho
        · exact hseen
        · exact fun hs => hrest o ho (List.mem_cons_of_mem _ hs)
    · intro h
      obtain ⟨⟨hnot, hnd⟩, hall⟩ := h
      refine ⟨hall _ List.mem_cons_self, hnd, ?_⟩
      intro o ho hs
      obtain rfl | hs := List.mem_cons.mp hs
      · exact hnot ho
      · exact hall o (List.mem_cons_of_mem _ ho) hs

theorem outputValue_cons (o : TxOutput) (os : List TxOutput) :
    outputValue (o :: os) = o.value.toNat + outputValue os := by
  simp [outputValue]

theorem addOutput_ok {acc sum : UInt64} {o : TxOutput} :
    addOutput acc o = .ok sum ↔
      acc.toNat + o.value.toNat ≤ kMaxMoney.toNat ∧ sum = acc + o.value := by
  have hmax : kMaxMoney.toNat < 2 ^ 63 := by decide
  unfold addOutput
  rw [guard_eq_ok]
  cases hadd : checkedAdd acc o.value with
  | none =>
    have hbig : ¬ (acc.toNat + o.value.toNat < 2 ^ 64) := by
      intro hlt
      rw [checkedAdd_eq_some.mpr ⟨hlt, rfl⟩] at hadd
      simp at hadd
    simp only [makeError_eq_ok, and_false, false_iff]
    omega
  | some s =>
    have hnat := checkedAdd_toNat hadd
    obtain ⟨_, rfl⟩ := checkedAdd_eq_some.mp hadd
    simp only [guard_eq_ok, Except.ok.injEq, UInt64.not_lt, UInt64.le_iff_toNat_le, gt_iff_lt, hnat]
    constructor
    · intro h
      exact ⟨h.2.1, h.2.2.symm⟩
    · intro h
      exact ⟨by omega, h.1, h.2.symm⟩

theorem sumOutputs_ok (acc : UInt64) (outputs : List TxOutput)
    (hacc : acc.toNat ≤ kMaxMoney.toNat) :
    (∃ r, sumOutputs acc outputs = .ok r) ↔
      acc.toNat + outputValue outputs ≤ kMaxMoney.toNat := by
  have hmax : kMaxMoney.toNat < 2 ^ 63 := by decide
  induction outputs generalizing acc with
  | nil => simpa [sumOutputs, outputValue] using hacc
  | cons o os ih =>
    simp only [sumOutputs, outputValue_cons, bind_eq_ok, addOutput_ok]
    have hnat : acc.toNat + o.value.toNat ≤ kMaxMoney.toNat →
        (acc + o.value).toNat = acc.toNat + o.value.toNat := by
      intro hle
      rw [UInt64.toNat_add, Nat.mod_eq_of_lt (by omega)]
    constructor
    · intro h
      obtain ⟨r, _, ⟨hle, rfl⟩, hr⟩ := h
      have hsum := (ih _ (by rw [hnat hle]; exact hle)).mp ⟨r, hr⟩
      rw [hnat hle] at hsum
      omega
    · intro h
      have hle : acc.toNat + o.value.toNat ≤ kMaxMoney.toNat := by omega
      obtain ⟨r, hr⟩ := (ih (acc + o.value) (by rw [hnat hle]; exact hle)).mpr
        (by rw [hnat hle]; omega)
      exact ⟨r, _, ⟨hle, rfl⟩, hr⟩

theorem checkTransactionSanity_ok (tx : Transaction) :
    checkTransactionSanity tx = .ok () ↔ tx.Sane := by
  have hsum := sumOutputs_ok 0 tx.outputs (by simp)
  simp only [UInt64.toNat_zero, Nat.zero_add] at hsum
  unfold checkTransactionSanity
  simp only [guard_eq_ok, bind_eq_ok, List.isEmpty_iff, Nat.not_lt]
  constructor
  · intro h
    obtain ⟨hin, hout, hi, ho, _, hres, _, hdup, r, hr, hsize, _⟩ := h
    refine ⟨hin, hout, ⟨hi, ho⟩, ?_, ?_, hsum.mp ⟨r, hr⟩, hsize⟩
    · intro hc
      simp only [hc, Bool.false_eq_true, if_false] at hres
      exact (checkReservedPrevouts_ok tx.inputs).mp hres
    · exact ((checkDuplicateInputs_ok [] tx.inputs).mp hdup).1
  · intro h
    obtain ⟨r, hr⟩ := hsum.mpr h.value_le
    refine ⟨h.inputs_ne, h.outputs_ne, h.limits.1, h.limits.2, (), ?_, (), ?_, r, hr,
      h.size_le, trivial⟩
    · cases hc : tx.isCoinbase with
      | true => rfl
      | false => simpa using (checkReservedPrevouts_ok tx.inputs).mpr (h.reserved hc)
    · exact (checkDuplicateInputs_ok [] tx.inputs).mpr ⟨h.prevouts_nodup, by simp⟩

theorem totalOut_toNat (outputs : List TxOutput) (h : outputValue outputs < 2 ^ 64) :
    (totalOut outputs).toNat = outputValue outputs := by
  have hgen : ∀ (os : List TxOutput) (acc : UInt64), acc.toNat + outputValue os < 2 ^ 64 →
      (os.foldl (fun total o => total + o.value) acc).toNat = acc.toNat + outputValue os := by
    intro os
    induction os with
    | nil => simp [outputValue]
    | cons o os ih =>
      intro acc hlt
      rw [outputValue_cons] at hlt ⊢
      have hadd : (acc + o.value).toNat = acc.toNat + o.value.toNat := by
        rw [UInt64.toNat_add, Nat.mod_eq_of_lt (by omega)]
      rw [List.foldl_cons, ih (acc + o.value) (by omega), hadd]
      omega
  simpa [totalOut] using hgen outputs 0 (by simpa using h)

theorem Transaction.Sane.totalOut_eq {tx : Transaction} (h : tx.Sane) :
    (totalOut tx.outputs).toNat = outputValue tx.outputs := by
  apply totalOut_toNat
  have hm : kMaxMoney.toNat < 2 ^ 64 := by decide
  have hv := h.value_le
  omega

def inputValue (utxos : UtxoSet) (prevouts : List OutPoint) : Nat :=
  (prevouts.map utxos.valueAt).sum

theorem sumInputs_ok {utxos : UtxoSet} {acc total : UInt64} {inputs : List TxInput}
    (h : sumInputs utxos acc inputs = .ok total) :
    total.toNat = acc.toNat + inputValue utxos (inputs.map TxInput.prevout) ∧
      ∀ o ∈ inputs.map TxInput.prevout, (utxos.find o).isSome := by
  induction inputs generalizing acc with
  | nil =>
    simp only [sumInputs, Except.ok.injEq] at h
    simp [inputValue, h]
  | cons i is ih =>
    rw [sumInputs] at h
    cases hf : utxos.find i.prevout with
    | none => simp [hf] at h
    | some coin =>
      simp only [hf] at h
      cases hc : checkedAdd acc coin.output.value with
      | none => simp [hc] at h
      | some next =>
        simp only [hc] at h
        obtain ⟨hsum, hall⟩ := ih h
        have hnat := checkedAdd_toNat hc
        refine ⟨?_, ?_⟩
        · simp only [inputValue, List.map_cons, List.sum_cons, UtxoSet.valueAt_of_find hf] at hsum ⊢
          omega
        · intro o ho
          obtain rfl | ho := List.mem_cons.mp ho
          · simp [hf]
          · exact hall o ho

theorem sumInputs_congr {utxos utxos' : UtxoSet} (acc : UInt64) (inputs : List TxInput)
    (h : ∀ o ∈ inputs.map TxInput.prevout, utxos'.find o = utxos.find o) :
    sumInputs utxos' acc inputs = sumInputs utxos acc inputs := by
  induction inputs generalizing acc with
  | nil => rfl
  | cons i is ih =>
    have htail : ∀ acc, sumInputs utxos' acc is = sumInputs utxos acc is :=
      fun acc => ih acc (fun o ho => h o (List.mem_cons_of_mem _ ho))
    simp only [sumInputs, h i.prevout List.mem_cons_self, htail]

theorem checkTransactionInputs_congr {utxos utxos' : UtxoSet} (tx : Transaction)
    (h : ∀ o ∈ tx.prevouts, utxos'.find o = utxos.find o) :
    checkTransactionInputs tx utxos' = checkTransactionInputs tx utxos := by
  rw [checkTransactionInputs, checkTransactionInputs, sumInputs_congr 0 tx.inputs h]

theorem checkCoinbaseMaturity_congr {utxos utxos' : UtxoSet} (tx : Transaction)
    (height maturity : UInt32) (h : ∀ o ∈ tx.prevouts, utxos'.find o = utxos.find o) :
    checkCoinbaseMaturity tx utxos' height maturity =
      checkCoinbaseMaturity tx utxos height maturity := by
  have hgen : ∀ inputs : List TxInput,
    (∀ o ∈ inputs.map TxInput.prevout, utxos'.find o = utxos.find o) →
      checkMatureInputs utxos' height maturity inputs =
        checkMatureInputs utxos height maturity inputs := by
    intro inputs
    induction inputs with
    | nil => exact fun _ => rfl
    | cons i is ih =>
      intro h
      have htail := ih fun o ho => h o (List.mem_cons_of_mem _ ho)
      simp only [checkMatureInputs, h i.prevout List.mem_cons_self, htail]
  exact hgen tx.inputs h

theorem checkCoinbaseMaturity_eq_ok {tx : Transaction} {utxos : UtxoSet}
    {height maturity : UInt32} :
    checkCoinbaseMaturity tx utxos height maturity = .ok () ↔
      ∀ o ∈ tx.prevouts, ∀ coin, utxos.find o = some coin → coin.coinbase = true →
        coin.height.toNat + maturity.toNat ≤ height.toNat := by
  have hwide : ∀ coin : Coin, height.toUInt64 < coin.height.toUInt64 + maturity.toUInt64 ↔
      height.toNat < coin.height.toNat + maturity.toNat := by
    intro coin
    have hheight := coin.height.toNat_lt
    have hwait := maturity.toNat_lt
    rw [UInt64.lt_iff_toNat_lt, UInt64.toNat_add, UInt32.toNat_toUInt64, UInt32.toNat_toUInt64,
      UInt32.toNat_toUInt64, Nat.mod_eq_of_lt (by omega)]
  have hgen : ∀ inputs : List TxInput, checkMatureInputs utxos height maturity inputs = .ok () ↔
      ∀ o ∈ inputs.map TxInput.prevout, ∀ coin, utxos.find o = some coin → coin.coinbase = true →
        coin.height.toNat + maturity.toNat ≤ height.toNat := by
    intro inputs
    induction inputs with
    | nil => simp [checkMatureInputs]
    | cons input rest ih =>
      rw [checkMatureInputs, List.map_cons, List.forall_mem_cons]
      cases hf : utxos.find input.prevout with
      | none => simp [ih]
      | some c =>
        simp only [guard_eq_ok, ih, Option.some.injEq, forall_eq', hwide, not_and, Nat.not_lt]
  exact hgen tx.inputs

/-- A passing input check of a sane transaction: every input exists and the returned
fee is what the inputs exceed the outputs by, with no wrap-around. -/
theorem checkTransactionInputs_ok {tx : Transaction} {utxos : UtxoSet} {fee : UInt64}
    (hs : tx.Sane) (h : checkTransactionInputs tx utxos = .ok fee) :
    (∀ o ∈ tx.prevouts, (utxos.find o).isSome) ∧
      inputValue utxos tx.prevouts = outputValue tx.outputs + fee.toNat := by
  unfold checkTransactionInputs at h
  obtain ⟨total, hsum, h⟩ := bind_eq_ok.mp h
  obtain ⟨hge, hfee⟩ := guard_eq_ok.mp h
  obtain ⟨hnat, hall⟩ := sumInputs_ok hsum
  refine ⟨hall, ?_⟩
  have hle : totalOut tx.outputs ≤ total := UInt64.not_lt.mp hge
  have hsub := UInt64.toNat_sub_of_le total (totalOut tx.outputs) hle
  have hle' := UInt64.le_iff_toNat_le.mp hle
  rw [hs.totalOut_eq] at hsub hle'
  simp only [Except.ok.injEq] at hfee
  subst hfee
  simp only [UInt64.toNat_zero, Nat.zero_add] at hnat
  change total.toNat = inputValue utxos tx.prevouts at hnat
  omega

end Blockchain
