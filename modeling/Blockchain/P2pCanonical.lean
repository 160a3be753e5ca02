import Blockchain.P2pPayloads

/-! The wire formats are canonical. A payload that can be written is read back, and what a
reader accepts is what the writer produces, so no value has a second encoding. -/
namespace Blockchain
open Lib

/-- A writer and a reader of whole byte strings that invert each other. -/
structure RoundTrips {α : Type} (serialize : α → Result Bytes) (deserialize : Bytes → Result α)
    (valid : α → Prop) : Prop where
  decode : ∀ a bytes, valid a → serialize a = .ok bytes → deserialize bytes = .ok a
  encode : ∀ bytes a, deserialize bytes = .ok a → serialize a = .ok bytes

section
variable {α β : Type} {reader : ByteReader α} {valid : α → Prop} {serialize : α → Result Bytes}

theorem RoundTrips.of_reader (enc : α → Bytes) (fits : α → Prop)
    (hdec : Decodes reader enc (fun a => fits a ∧ valid a))
    (hcan : Canonical reader enc (fun a => fits a ∧ valid a))
    (hser : ∀ a bytes, serialize a = .ok bytes ↔ fits a ∧ bytes = enc a) :
    RoundTrips serialize (ByteReader.parse (ByteReader.exactly reader)) valid where
  decode a bytes ha h := by
    obtain ⟨hfits, rfl⟩ := (hser a bytes).mp h
    exact ByteReader.parse_exactly hdec ⟨hfits, ha⟩
  encode bytes a h := by
    obtain ⟨hdata, hfits, _⟩ := hcan _ _ _ (ByteReader.parse_exactly_eq_ok h)
    rw [List.append_nil] at hdata
    exact (hser a bytes).mpr ⟨hfits, hdata⟩

theorem RoundTrips.wrap {deserialize : Bytes → Result α}
    (h : RoundTrips serialize deserialize (fun _ => True)) {wrap : α → β} {unwrap : β → α}
    (hwrap : ∀ b, wrap (unwrap b) = b) (hunwrap : ∀ a, unwrap (wrap a) = a) :
    RoundTrips (fun b => serialize (unwrap b))
      (fun bytes => deserialize bytes >>= fun a => .ok (wrap a)) (fun _ => True) where
  decode b bytes _ hb := by
    rw [h.decode _ _ trivial hb, ok_bind, hwrap]
  encode bytes b hb := by
    obtain ⟨a, ha, heq⟩ := bind_eq_ok.mp hb
    rw [← Except.ok.inj heq, hunwrap]
    exact h.encode _ _ ha

end

/-! Enumerations on the wire: a code that is known is the code of what it stands for. -/

theorem choose_eq_ok {α : Type} {c : Prop} [Decidable c] {a b : α} {x : Result α} :
    (if c then .ok b else x) = .ok a ↔ c ∧ b = a ∨ ¬ c ∧ x = .ok a := by
  by_cases hc : c <;> simp [hc]

theorem parseMessageType_eq_ok {raw : UInt16} {type : P2pMessageType}
    (h : parseMessageType raw = .ok type) : raw = type.code := by
  simp only [parseMessageType, choose_eq_ok, makeError_eq_ok] at h
  cases type <;> simp_all [P2pMessageType.code]

theorem lift_eq_ok {α : Type} {x : Result α} {data rest : Bytes} {a : α}
    (h : (StateT.lift x : ByteReader α).run data = .ok (a, rest)) : x = .ok a ∧ rest = data := by
  rw [StateT.run_lift] at h
  obtain ⟨b, hb, hpair⟩ := bind_eq_ok.mp h
  obtain ⟨rfl, rfl⟩ := Prod.mk.inj (Except.ok.inj hpair)
  exact ⟨hb, rfl⟩

theorem check_eq_ok {α : Type} {c : Prop} [Decidable c] {e : Error} {reader : ByteReader α}
    {data rest : Bytes} {a : α}
    (h : (if c then throw e else reader : ByteReader α).run data = .ok (a, rest)) :
    ¬ c ∧ reader.run data = .ok (a, rest) := by
  by_cases hc : c
  · simp [hc] at h
  · rw [if_neg hc] at h
    exact ⟨hc, h⟩

namespace P2pMessage

theorem getFields_eq_ok {wire rest : Bytes} {message : P2pMessage} {checksum : UInt32}
    (h : getFields.run wire = .ok ((message, checksum), rest)) :
    message.Sendable ∧ wire = message.writeHeaderBody ++ putU32 checksum ++ rest := by
  obtain ⟨magic, data1, hmagic, h⟩ := run_bind_eq_ok h
  obtain ⟨hnet, h⟩ := check_eq_ok h
  obtain ⟨version, data2, hversion, h⟩ := run_bind_eq_ok h
  obtain ⟨hproto, h⟩ := check_eq_ok h
  obtain ⟨raw, data3, hraw, h⟩ := run_bind_eq_ok h
  obtain ⟨type, data4, htype, h⟩ := run_bind_eq_ok h
  obtain ⟨payload, data5, hpayload, h⟩ := run_bind_eq_ok h
  obtain ⟨sum, data6, hsum, h⟩ := run_bind_eq_ok h
  obtain ⟨hpair, rfl⟩ := run_pure_eq_ok h
  obtain ⟨rfl, rfl⟩ := Prod.mk.inj hpair
  obtain ⟨hcode, rfl⟩ := lift_eq_ok htype
  obtain ⟨hbody, hlen⟩ := ByteReader.getVarBytes_canonical _ _ _ _ hpayload
  refine ⟨⟨not_not.mp hproto, hlen⟩, ?_⟩
  rw [(ByteReader.getU32_canonical _ _ _ hmagic).1, (ByteReader.getU32_canonical _ _ _ hversion).1,
    (ByteReader.getU16_canonical _ _ _ hraw).1, hbody, (ByteReader.getU32_canonical _ _ _ hsum).1,
    not_not.mp hnet, parseMessageType_eq_ok hcode]
  simp only [writeHeaderBody, putVarBytes, List.append_assoc]

theorem deserialize_eq_ok {wire : Bytes} {message : P2pMessage}
    (h : deserialize wire = .ok message) : message.Sendable ∧ message.toBytes = wire := by
  rw [deserialize, guard_eq_ok] at h
  obtain ⟨⟨m, checksum⟩, hfields, hsum⟩ := bind_eq_ok.mp h.2
  rw [guard_eq_ok, not_not] at hsum
  obtain ⟨hsum, hm⟩ := hsum
  rw [← Except.ok.inj hm]
  obtain ⟨hsendable, hwire⟩ := getFields_eq_ok (ByteReader.parse_exactly_eq_ok hfields)
  rw [List.append_nil] at hwire
  have htake : wire.take (wire.length - 4) = m.writeHeaderBody := by simp [hwire]
  rw [htake] at hsum
  exact ⟨hsendable, by rw [toBytes, ← hsum, hwire]⟩

end P2pMessage

/-! The parts of the payloads. -/

theorem blob_roundTrips (maxLen : UInt32) (label : String) :
    RoundTrips (fun bytes => putBlob bytes maxLen label)
      (ByteReader.parse (ByteReader.exactly (getBlob maxLen label))) (fun _ => True) := by
  refine .of_reader putVarBytes (fun bytes => bytes ≠ [] ∧ bytes.length ≤ maxLen.toNat) ?_ ?_ ?_
  · intro bytes rest h
    have hne : bytes.isEmpty = false := by simpa [List.isEmpty_iff] using h.1.1
    rw [getBlob, run_bind_of_ok (ByteReader.getVarBytes_append bytes maxLen rest h.1.2), hne]
    rfl
  · intro data bytes rest h
    obtain ⟨raw, data', hraw, h⟩ := run_bind_eq_ok h
    obtain ⟨hne, h⟩ := check_eq_ok h
    obtain ⟨rfl, rfl⟩ := run_pure_eq_ok h
    obtain ⟨hdata, hlen⟩ := ByteReader.getVarBytes_canonical _ _ _ _ hraw
    exact ⟨hdata, ⟨by simpa [List.isEmpty_iff] using hne, hlen⟩, trivial⟩
  · intro bytes out
    simp only [putBlob, guard_eq_ok, List.isEmpty_iff, gt_iff_lt, Nat.not_lt, Except.ok.injEq,
      and_assoc]
    rw [eq_comm (b := out)]

theorem word_roundTrips {α : Type} {reader : ByteReader α} {enc : α → Bytes}
    (hdec : Decodes reader enc (fun _ => True)) (hcan : Canonical reader enc (fun _ => True)) :
    RoundTrips (fun a => .ok (enc a)) (ByteReader.parse (ByteReader.exactly reader))
      (fun _ => True) := by
  refine .of_reader enc (fun _ => True) (fun a rest _ => hdec a rest trivial) ?_ ?_
  · intro data a rest h
    exact ⟨(hcan _ _ _ h).1, trivial, trivial⟩
  · intro a bytes
    rw [Except.ok.injEq, true_and, eq_comm]

theorem ping_roundTrips :
    RoundTrips (fun p => .ok (serializePing p)) deserializePing (fun _ => True) := by
  have hword := word_roundTrips ByteReader.getU64_decodes ByteReader.getU64_canonical
  have hping : RoundTrips (fun p => .ok (serializePing p))
      (fun bytes => ByteReader.parse (ByteReader.exactly ByteReader.getU64) bytes >>= fun nonce =>
        .ok ⟨nonce⟩) (fun _ => True) :=
    hword.wrap (fun _ => rfl) (fun _ => rfl)
  constructor
  · intro p bytes _ h
    have hlen : ¬ bytes.length ≠ 8 := by
      rw [← Except.ok.inj h]
      simp [serializePing]
    rw [deserializePing, expectExactSize, if_neg hlen, ok_bind]
    exact hping.decode p bytes trivial h
  · intro bytes p h
    exact hping.encode bytes p (seq_eq_ok.mp h).2

theorem txAnnounce_roundTrips :
    RoundTrips serializeTxAnnounce deserializeTxAnnounce (fun _ => True) :=
  (blob_roundTrips kMaxTransactionSizeBytes "tx_bytes").wrap (fun _ => rfl) (fun _ => rfl)

end Blockchain
