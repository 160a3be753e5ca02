import Blockchain.Sha256

/-! `ByteWriter` and `ByteReader`: the canonical wire encoding. A writer call is the
bytes it appends; a reader is the unread part of its input. -/
namespace Blockchain
open Lib

def putU16 (value : UInt16) : Bytes := leBytes 2 value.toNat
def putU32 (value : UInt32) : Bytes := leBytes 4 value.toNat
def putU64 (value : UInt64) : Bytes := leBytes 8 value.toNat
def putHash (hash : Hash256) : Bytes := hash.bytes
def putBytes (bytes : Bytes) : Bytes := bytes
def putVarBytes (bytes : Bytes) : Bytes := putU32 (UInt32.ofNat bytes.length) ++ putBytes bytes

@[simp] theorem putU16_length (v : UInt16) : (putU16 v).length = 2 := leBytes_length 2 _
@[simp] theorem putU32_length (v : UInt32) : (putU32 v).length = 4 := leBytes_length 4 _
@[simp] theorem putU64_length (v : UInt64) : (putU64 v).length = 8 := leBytes_length 8 _
@[simp] theorem putHash_length (h : Hash256) : (putHash h).length = 32 := h.size_eq

theorem putVarBytes_length (bytes : Bytes) : (putVarBytes bytes).length = bytes.length + 4 := by
  simp only [putVarBytes, putBytes, List.length_append, putU32_length]
  omega

theorem putHash_injective {a b : Hash256} (h : putHash a = putHash b) : a = b := Hash256.ext h

abbrev ByteReader (α : Type) := Decoder Error α

namespace ByteReader

def remaining : ByteReader Nat := do return (← get).length

def ensure (count : Nat) : ByteReader Unit := do
  let have_ ← remaining
  if count > have_ then
    throw ⟨.parseError, "unexpected end of input: need " ++ toString count ++ " byte(s), have " ++
      toString have_⟩

/-- `get_bytes`; the fixed-width reads slice their bytes the same way. -/
def getBytes (count : Nat) : ByteReader Bytes := do
  ensure count
  let data ← get
  set (data.drop count)
  return data.take count

def getU16 : ByteReader UInt16 := do return UInt16.ofNat (leValue (← getBytes 2))
def getU32 : ByteReader UInt32 := do return UInt32.ofNat (leValue (← getBytes 4))
def getU64 : ByteReader UInt64 := do return UInt64.ofNat (leValue (← getBytes 8))
def getHash : ByteReader Hash256 := do return Hash256.ofBytes (← getBytes 32)

def getLength (maxCount : UInt32) : ByteReader UInt32 := do
  let length ← getU32
  if length > maxCount then
    throw ⟨.resourceLimitExceeded, "length prefix " ++ toString length.toNat ++
      " exceeds maximum " ++ toString maxCount.toNat⟩
  return length

def getVarBytes (maxLen : UInt32) : ByteReader Bytes := do
  let length ← getLength maxLen
  getBytes length.toNat

def expectEnd : ByteReader Unit := do
  let left ← remaining
  if left ≠ 0 then
    throw ⟨.parseError, "trailing bytes after value: " ++ toString left ++ " left"⟩

def parse {α : Type} (reader : ByteReader α) (data : Bytes) : Result α :=
  (reader.run data).map Prod.fst

def exactly {α : Type} (reader : ByteReader α) : ByteReader α := do
  let value ← reader
  expectEnd
  return value

def getNested {α : Type} (maxLen : UInt32) (reader : ByteReader α) : ByteReader α := do
  let raw ← getVarBytes maxLen
  StateT.lift (parse (exactly reader) raw)

theorem getBytes_append (b rest : Bytes) :
    (getBytes b.length).run (b ++ rest) = .ok (b, rest) := by
  simp [getBytes, ensure, remaining, StateT.run_bind, StateT.run_get, StateT.run_set]

theorem getU16_decodes : Decodes getU16 putU16 (fun _ => True) := by
  intro v rest _
  have h := getBytes_append (putU16 v) rest
  rw [putU16_length] at h
  rw [getU16, run_bind_of_ok h, putU16, leValue_leBytes _ _ (by simpa using v.toNat_lt)]
  simp

theorem getU32_decodes : Decodes getU32 putU32 (fun _ => True) := by
  intro v rest _
  have h := getBytes_append (putU32 v) rest
  rw [putU32_length] at h
  rw [getU32, run_bind_of_ok h, putU32, leValue_leBytes _ _ (by simpa using v.toNat_lt)]
  simp

theorem getU64_decodes : Decodes getU64 putU64 (fun _ => True) := by
  intro v rest _
  have h := getBytes_append (putU64 v) rest
  rw [putU64_length] at h
  rw [getU64, run_bind_of_ok h, putU64, leValue_leBytes _ _ (by simpa using v.toNat_lt)]
  simp

theorem getHash_decodes : Decodes getHash putHash (fun _ => True) := by
  intro v rest _
  have h := getBytes_append (putHash v) rest
  rw [putHash_length] at h
  rw [getHash, run_bind_of_ok h, putHash, Hash256.ofBytes_bytes]
  rfl

theorem getLength_ofNat (n : Nat) (maxCount : UInt32) (rest : Bytes) (h : n ≤ maxCount.toNat) :
    (getLength maxCount).run (putU32 (UInt32.ofNat n) ++ rest) = .ok (UInt32.ofNat n, rest) := by
  have hn : (UInt32.ofNat n).toNat = n := UInt32.toNat_ofNat_of_lt' (by
    have hm := maxCount.toNat_lt
    simp only [UInt32.size]
    omega)
  have hle : ¬ UInt32.ofNat n > maxCount := by
    rw [gt_iff_lt, UInt32.lt_iff_toNat_lt, hn]
    omega
  rw [getLength, run_bind_of_ok (getU32_decodes _ rest trivial)]
  simp [hle]

theorem getVarBytes_append (b : Bytes) (maxLen : UInt32) (rest : Bytes)
    (h : b.length ≤ maxLen.toNat) :
    (getVarBytes maxLen).run (putVarBytes b ++ rest) = .ok (b, rest) := by
  have hn : (UInt32.ofNat b.length).toNat = b.length := UInt32.toNat_ofNat_of_lt' (by
    have hm := maxLen.toNat_lt
    simp only [UInt32.size]
    omega)
  rw [getVarBytes, putVarBytes, List.append_assoc,
    run_bind_of_ok (getLength_ofNat b.length maxLen (putBytes b ++ rest) h), hn]
  exact getBytes_append b rest

theorem expectEnd_nil : expectEnd.run [] = .ok ((), []) := rfl

theorem expectEnd_eq_ok {data : Bytes} {r : Unit × Bytes} (h : expectEnd.run data = .ok r) :
    data = [] := by
  by_cases hnil : data = []
  · exact hnil
  · simp [expectEnd, remaining, StateT.run_bind, StateT.run_get, hnil, throw_eq_error] at h

theorem parse_of_run {α : Type} {reader : ByteReader α} {data rest : Bytes} {a : α}
    (h : reader.run data = .ok (a, rest)) : parse reader data = .ok a := by
  rw [parse, h]
  rfl

theorem run_exactly {α : Type} {reader : ByteReader α} {data : Bytes} {a : α}
    (h : reader.run data = .ok (a, [])) : (exactly reader).run data = .ok (a, []) := by
  rw [exactly, run_bind_of_ok h, run_bind_of_ok expectEnd_nil]
  rfl

/-! What a successful read consumed. -/

theorem getBytes_eq_ok {count : Nat} {data b rest : Bytes}
    (h : (getBytes count).run data = .ok (b, rest)) : data = b ++ rest ∧ b.length = count := by
  by_cases hlen : count > data.length
  · simp [getBytes, ensure, remaining, StateT.run_bind, StateT.run_get, hlen, throw_eq_error] at h
  · simp only [getBytes, ensure, remaining, StateT.run_bind, StateT.run_get, StateT.run_set,
      bind_pure_comp, StateT.run_map, StateT.run_pure, pure_eq_ok, ok_bind, hlen, if_false,
      Except.map_ok, Except.ok.injEq, Prod.mk.injEq] at h
    rw [← h.1, ← h.2, List.take_append_drop, List.length_take]
    exact ⟨rfl, by omega⟩

theorem word_eq_ok {α : Type} {width : Nat} {ofValue : Nat → α} {toValue : α → Nat}
    (hword : ∀ n, n < 256 ^ width → toValue (ofValue n) = n) {data rest : Bytes} {v : α}
    (h : (do return ofValue (leValue (← getBytes width)) : ByteReader α).run data = .ok (v, rest)) :
    data = leBytes width (toValue v) ++ rest := by
  obtain ⟨b, data', hb, h⟩ := run_bind_eq_ok h
  obtain ⟨hv, hrest⟩ := run_pure_eq_ok h
  obtain ⟨hdata, hlen⟩ := getBytes_eq_ok hb
  have hlt := leValue_lt b
  rw [hlen] at hlt
  rw [hv, hword _ hlt, ← hlen, leBytes_leValue, hrest]
  exact hdata

theorem getU16_canonical : Canonical getU16 putU16 (fun _ => True) :=
  fun _ _ _ h => ⟨word_eq_ok (fun _ hn => UInt16.toNat_ofNat_of_lt' hn) h, trivial⟩

theorem getU32_canonical : Canonical getU32 putU32 (fun _ => True) :=
  fun _ _ _ h => ⟨word_eq_ok (fun _ hn => UInt32.toNat_ofNat_of_lt' hn) h, trivial⟩

theorem getU64_canonical : Canonical getU64 putU64 (fun _ => True) :=
  fun _ _ _ h => ⟨word_eq_ok (fun _ hn => UInt64.toNat_ofNat_of_lt' hn) h, trivial⟩

theorem getHash_canonical : Canonical getHash putHash (fun _ => True) := by
  intro data v rest h
  obtain ⟨b, data', hb, h⟩ := run_bind_eq_ok h
  obtain ⟨hv, hrest⟩ := run_pure_eq_ok h
  obtain ⟨hdata, hlen⟩ := getBytes_eq_ok hb
  rw [hv, putHash, Hash256.bytes_ofBytes hlen, hrest]
  exact ⟨hdata, trivial⟩

theorem getLength_canonical (maxCount : UInt32) :
    Canonical (getLength maxCount) putU32 (fun n => n ≤ maxCount) := by
  intro data n rest h
  obtain ⟨length, data', hlength, h⟩ := run_bind_eq_ok h
  by_cases hgt : length > maxCount
  · simp [hgt, throw_eq_error] at h
  · simp only [hgt, if_false] at h
    obtain ⟨hn, hrest⟩ := run_pure_eq_ok h
    subst hn hrest
    exact ⟨(getU32_canonical _ _ _ hlength).1, UInt32.not_lt.mp hgt⟩

theorem getVarBytes_canonical (maxLen : UInt32) :
    Canonical (getVarBytes maxLen) putVarBytes (fun b => b.length ≤ maxLen.toNat) := by
  intro data b rest h
  obtain ⟨length, data', hlength, h⟩ := run_bind_eq_ok h
  obtain ⟨hdata, hle⟩ := getLength_canonical maxLen _ _ _ hlength
  obtain ⟨hdata', hlen⟩ := getBytes_eq_ok h
  refine ⟨?_, hlen.trans_le (UInt32.le_iff_toNat_le.mp hle)⟩
  rw [putVarBytes, putBytes, hlen, UInt32.ofNat_toNat, List.append_assoc, ← hdata']
  exact hdata

theorem counted_canonical {α β : Type} {item : ByteReader α} {enc : α → Bytes}
    {valid : α → Prop} (hitem : Canonical item enc valid) {maxCount : UInt32}
    {next : List α → ByteReader β} {data rest : Bytes} {b : β}
    (h : (do
      let count ← getLength maxCount
      let items ← repeatDecode item count.toNat
      next items : ByteReader β).run data = .ok (b, rest)) :
    ∃ items data', data = putU32 (UInt32.ofNat items.length) ++ items.flatMap enc ++ data' ∧
      items.length ≤ maxCount.toNat ∧ (∀ a ∈ items, valid a) ∧
      (next items).run data' = .ok (b, rest) := by
  obtain ⟨count, data1, hcount, h⟩ := run_bind_eq_ok h
  obtain ⟨items, data2, hitems, h⟩ := run_bind_eq_ok h
  obtain ⟨hdata, hle⟩ := getLength_canonical maxCount _ _ _ hcount
  obtain ⟨hdata1, hlen, hvalid⟩ := hitem.repeat hitems
  refine ⟨items, data2, ?_, ?_, hvalid, h⟩
  · rw [hlen, UInt32.ofNat_toNat, List.append_assoc, ← hdata1]
    exact hdata
  · rw [hlen]
    exact UInt32.le_iff_toNat_le.mp hle

section Nested
variable {α : Type} {reader : ByteReader α} {enc : α → Bytes} {valid : α → Prop}

theorem parse_exactly (h : Decodes reader enc valid) {a : α} (ha : valid a) :
    parse (exactly reader) (enc a) = .ok a := by
  have hrun := h a [] ha
  rw [List.append_nil] at hrun
  exact parse_of_run (run_exactly hrun)

theorem getNested_decodes (h : Decodes reader enc valid) (maxLen : UInt32) :
    Decodes (getNested maxLen reader) (fun a => putVarBytes (enc a))
      (fun a => valid a ∧ (enc a).length ≤ maxLen.toNat) := by
  intro a rest ha
  rw [getNested, run_bind_of_ok (getVarBytes_append (enc a) maxLen rest ha.2),
    StateT.run_lift, parse_exactly h ha.1]
  rfl

theorem parse_exactly_eq_ok {data : Bytes} {a : α}
    (h : parse (exactly reader) data = .ok a) : reader.run data = .ok (a, []) := by
  cases hrun : (exactly reader).run data with
  | error e =>
    rw [parse, hrun] at h
    simp [Except.map] at h
  | ok r =>
    have ha : a = r.1 := by
      rw [parse, hrun] at h
      exact (Except.ok.inj h).symm
    obtain ⟨value, left, hvalue, hrun⟩ := run_bind_eq_ok hrun
    obtain ⟨_, left', hend, hrun⟩ := run_bind_eq_ok hrun
    rw [ha, (run_pure_eq_ok hrun).1, hvalue, expectEnd_eq_ok hend]

theorem getNested_canonical (h : Canonical reader enc valid) (maxLen : UInt32) :
    Canonical (getNested maxLen reader) (fun a => putVarBytes (enc a))
      (fun a => valid a ∧ (enc a).length ≤ maxLen.toNat) := by
  intro data a rest hrun
  obtain ⟨raw, data', hraw, hrun⟩ := run_bind_eq_ok hrun
  obtain ⟨hdata, hlen⟩ := getVarBytes_canonical maxLen _ _ _ hraw
  rw [StateT.run_lift] at hrun
  obtain ⟨a', hparse, hpair⟩ := bind_eq_ok.mp hrun
  obtain ⟨rfl, rfl⟩ := Prod.mk.inj (Except.ok.inj hpair)
  obtain ⟨henc, hvalid⟩ := h _ _ _ (parse_exactly_eq_ok hparse)
  rw [List.append_nil] at henc
  subst henc
  exact ⟨hdata, hvalid, hlen⟩

end Nested

end ByteReader
end Blockchain
