import Blockchain.ChainStore
import Blockchain.LedgerFormat
import Blockchain.PeerState
import Blockchain.ConfigJson
import Blockchain.Eviction

/-! The ways a transaction enters the node as bytes: from the ledger, in an announcement and
from a file. The first two use up their input; the file loader leaves what follows unread. -/
namespace Blockchain
open Lib

def loadTransactionFile (files : Bytes → ConfigFile) (path : Bytes) : Result Transaction :=
  let load (size : Nat) (contents : Option Bytes) : Result Transaction :=
    if size > kMaxTransactionSizeBytes.toNat then
      makeError .resourceLimitExceeded ("transaction file exceeds max size: " ++ bytesText path)
    else if size = 0 then
      makeError .invalidTransaction ("transaction file is empty: " ++ bytesText path)
    else
      match contents with
      | none => makeError .invalidConfig ("failed to read transaction file: " ++ bytesText path)
      -- what follows the transaction is not looked at
      | some bytes => ByteReader.parse Transaction.deserialize bytes
  match files path with
  | .missing => makeError .invalidConfig ("cannot open transaction file: " ++ bytesText path)
  | .sizeless => makeError .invalidConfig ("cannot read transaction file size: " ++ bytesText path)
  | .unreadable size => load size none
  | .readable bytes => load bytes.length (some bytes)

section EntryPoints
variable {b : Bytes}

theorem parse_eq_ok {α : Type} {reader : ByteReader α} {data : Bytes} {a : α} :
    ByteReader.parse reader data = .ok a ↔ ∃ rest, reader.run data = .ok (a, rest) := by
  rw [ByteReader.parse]
  cases reader.run data with
  | error e => simp [Except.map]
  | ok r =>
    obtain ⟨value, rest⟩ := r
    simp [Except.map]

theorem parseTransactionBytes_ok {t : Transaction} :
    parseTransactionBytes b = .ok t ↔ b = t.toBytes ∧ t.WithinLimits := by
  constructor
  · intro h
    obtain ⟨hb, hlimits⟩ :=
      Transaction.deserialize_canonical _ _ _ (ByteReader.parse_exactly_eq_ok h)
    rw [List.append_nil] at hb
    exact ⟨hb, hlimits⟩
  · intro h
    obtain ⟨rfl, hlimits⟩ := h
    exact ByteReader.parse_exactly Transaction.deserialize_decodes hlimits

theorem getTransaction_ok (hlen : b.length ≤ kMaxTransactionSizeBytes.toNat) {more : Bytes}
    {t : Transaction} :
    ByteReader.parse getTransaction (putVarBytes b ++ more) = .ok t ↔
      b = t.toBytes ∧ t.WithinLimits := by
  rw [parse_eq_ok]
  constructor
  · intro h
    obtain ⟨rest, hrun⟩ := h
    obtain ⟨raw, data, hraw, hrun⟩ := run_bind_eq_ok hrun
    rw [ByteReader.getVarBytes_append b _ more hlen] at hraw
    obtain ⟨rfl, rfl⟩ := Prod.mk.inj (Except.ok.inj hraw)
    rw [StateT.run_lift] at hrun
    obtain ⟨t', hparse, hpair⟩ := bind_eq_ok.mp hrun
    obtain ⟨rfl, _⟩ := Prod.mk.inj (Except.ok.inj hpair)
    exact parseTransactionBytes_ok.mp hparse
  · intro h
    obtain ⟨rfl, hlimits⟩ := h
    exact ⟨more, getTransaction_decodes t more ⟨hlimits, hlen⟩⟩

theorem loadTransactionFile_ok {files : Bytes → ConfigFile} {path : Bytes}
    (hfile : files path = .readable b) (hlen : b.length ≤ kMaxTransactionSizeBytes.toNat)
    {t : Transaction} :
    loadTransactionFile files path = .ok t ↔ ∃ rest, b = t.toBytes ++ rest ∧ t.WithinLimits := by
  have hload : b ≠ [] →
      loadTransactionFile files path = ByteReader.parse Transaction.deserialize b := by
    intro hne
    simp only [loadTransactionFile, hfile, gt_iff_lt, Nat.not_lt.mpr hlen, if_false,
      List.length_eq_zero_iff, hne]
  constructor
  · intro h
    by_cases hne : b = []
    · simp [loadTransactionFile, hfile, hne] at h
    · rw [hload hne] at h
      obtain ⟨rest, hrun⟩ := parse_eq_ok.mp h
      exact ⟨rest, Transaction.deserialize_canonical _ _ _ hrun⟩
  · intro h
    obtain ⟨rest, hb, hlimits⟩ := h
    have hne : b ≠ [] := by
      intro hnil
      have hlength := congrArg List.length (hnil.symm.trans hb)
      rw [List.length_append, Transaction.toBytes_length, List.length_nil] at hlength
      omega
    rw [hload hne, hb]
    exact parse_eq_ok.mpr ⟨rest, Transaction.deserialize_decodes t rest hlimits⟩

end EntryPoints

/-- The three entry points accept exactly the canonical encodings, and return what was
encoded, as long as the bytes are not an encoding with something behind it. -/
theorem entry_points_canonical_iff (files : Bytes → ConfigFile) (path b more : Bytes)
    (hfile : files path = .readable b) (hlen : b.length ≤ kMaxTransactionSizeBytes.toNat) :
    (∀ t : Transaction,
      (ByteReader.parse getTransaction (putVarBytes b ++ more) = .ok t ↔
        b = t.toBytes ∧ t.inputs.length ≤ 4096 ∧ t.outputs.length ≤ 4096) ∧
      (parseTransactionBytes b = .ok t ↔
        b = t.toBytes ∧ t.inputs.length ≤ 4096 ∧ t.outputs.length ≤ 4096) ∧
      (loadTransactionFile files path = .ok t ↔
        b = t.toBytes ∧ t.inputs.length ≤ 4096 ∧ t.outputs.length ≤ 4096)) ↔
    ∀ (t : Transaction) (rest : Bytes), t.inputs.length ≤ 4096 → t.outputs.length ≤ 4096 →
      b = t.toBytes ++ rest → rest = [] := by
  constructor
  · intro hcanonical t rest hin hout hb
    have hload := (loadTransactionFile_ok hfile hlen).mpr ⟨rest, hb, hin, hout⟩
    have henc := ((hcanonical t).2.2.mp hload).1
    rw [henc] at hb
    exact (List.append_right_eq_self.mp hb.symm)
  · intro halone t
    refine ⟨getTransaction_ok hlen, parseTransactionBytes_ok, ?_⟩
    rw [loadTransactionFile_ok hfile hlen]
    constructor
    · intro h
      obtain ⟨rest, hb, hlimits⟩ := h
      rw [halone t rest hlimits.1 hlimits.2 hb, List.append_nil] at hb
      exact ⟨hb, hlimits⟩
    · intro h
      exact ⟨[], by rw [List.append_nil]; exact h.1, h.2⟩

/-- A file that holds a payment and nothing else. -/
theorem payment_file_canonical :
    loadTransactionFile (fun _ => .readable freePayment.toBytes) [] = .ok freePayment ∧
    parseTransactionBytes freePayment.toBytes = .ok freePayment ∧
    ByteReader.parse getTransaction (putVarBytes freePayment.toBytes ++ []) = .ok freePayment := by
  have hlimits : freePayment.WithinLimits := ⟨by decide, by decide⟩
  have hlen : freePayment.toBytes.length ≤ kMaxTransactionSizeBytes.toNat := by
    rw [Transaction.toBytes_length]
    decide
  have hcanonical := (entry_points_canonical_iff (fun _ => .readable freePayment.toBytes) []
    freePayment.toBytes [] rfl hlen).mpr (by
      intro t rest hin hout hb
      have happend : freePayment.toBytes ++ [] = t.toBytes ++ rest := by rw [List.append_nil, hb]
      exact (Transaction.deserialize_decodes.enc_append_inj hlimits ⟨hin, hout⟩ happend).2.symm)
  obtain ⟨hledger, hannounced, hfile⟩ := hcanonical freePayment
  exact ⟨hfile.mpr ⟨rfl, hlimits⟩, hannounced.mpr ⟨rfl, hlimits⟩, hledger.mpr ⟨rfl, hlimits⟩⟩

/-- With one byte behind the payment the file still loads, and nothing else accepts it. -/
theorem trailing_byte_loads :
    (freePayment.toBytes ++ [0]).length ≤ kMaxTransactionSizeBytes.toNat ∧
    loadTransactionFile (fun _ => .readable (freePayment.toBytes ++ [0])) [] = .ok freePayment ∧
    (∀ t, parseTransactionBytes (freePayment.toBytes ++ [0]) ≠ .ok t) ∧
    (∀ t, ByteReader.parse getTransaction (putVarBytes (freePayment.toBytes ++ [0])) ≠ .ok t) := by
  have hlimits : freePayment.WithinLimits := ⟨by decide, by decide⟩
  have hlen : (freePayment.toBytes ++ [0]).length ≤ kMaxTransactionSizeBytes.toNat := by
    rw [List.length_append, Transaction.toBytes_length]
    decide
  have hnone : ∀ t : Transaction, ¬ (freePayment.toBytes ++ [0] = t.toBytes ∧ t.WithinLimits) := by
    intro t h
    have happend : freePayment.toBytes ++ [0] = t.toBytes ++ [] := by rw [List.append_nil, h.1]
    have hrest := (Transaction.deserialize_decodes.enc_append_inj hlimits h.2 happend).2
    simp at hrest
  refine ⟨hlen, (loadTransactionFile_ok rfl hlen).mpr ⟨[0], rfl, hlimits⟩, ?_, ?_⟩
  · intro t h
    exact hnone t (parseTransactionBytes_ok.mp h)
  · intro t h
    rw [← List.append_nil (putVarBytes _)] at h
    exact hnone t ((getTransaction_ok hlen).mp h)

end Blockchain
