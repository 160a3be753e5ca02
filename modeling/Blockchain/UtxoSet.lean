import Blockchain.Transaction

/-! The set of unspent outputs with the metadata kept for each coin. -/
namespace Blockchain
open Lib

structure Coin where
  output : TxOutput
  height : UInt32
  coinbase : Bool
deriving DecidableEq

abbrev UtxoSet := OrderedMap OutPoint Coin

def outpointStr (outpoint : OutPoint) : String :=
  toHex outpoint.txid ++ ":" ++ toString outpoint.index.toNat

namespace UtxoSet

def empty : UtxoSet := OrderedMap.empty

def find (utxos : UtxoSet) (outpoint : OutPoint) : Option Coin := utxos.find? outpoint

def add (utxos : UtxoSet) (outpoint : OutPoint) (coin : Coin) : Result UtxoSet :=
  if (utxos.find outpoint).isSome then
    makeError .invalidStateTransition ("duplicate UTXO for outpoint " ++ outpointStr outpoint)
  else .ok (utxos.insert outpoint coin)

def spend (utxos : UtxoSet) (outpoint : OutPoint) : Result (Coin × UtxoSet) :=
  match utxos.find outpoint with
  | none => makeError .invalidStateTransition ("spend of unknown outpoint " ++ outpointStr outpoint)
  | some coin => .ok (coin, utxos.erase outpoint)

def totalValue (utxos : UtxoSet) : Nat :=
  (utxos.entries.map fun e => e.2.output.value.toNat).sum

def valueAt (utxos : UtxoSet) (outpoint : OutPoint) : Nat :=
  ((utxos.find outpoint).map fun c => c.output.value.toNat).getD 0

theorem add_eq_ok {utxos next : UtxoSet} {o : OutPoint} {coin : Coin} :
    utxos.add o coin = .ok next ↔ utxos.find o = none ∧ next = utxos.insert o coin := by
  rw [add, guard_eq_ok, Option.not_isSome_iff_eq_none, Except.ok.injEq, eq_comm (a := next)]

theorem spend_eq_ok {utxos next : UtxoSet} {o : OutPoint} {coin : Coin} :
    utxos.spend o = .ok (coin, next) ↔ utxos.find o = some coin ∧ next = utxos.erase o := by
  unfold spend
  cases h : utxos.find o with
  | none => simp
  | some c =>
    simp only [Except.ok.injEq, Prod.mk.injEq, Option.some.injEq, eq_comm (a := next)]

theorem totalValue_insert (utxos : UtxoSet) {o : OutPoint} (coin : Coin)
    (h : utxos.find o = none) :
    totalValue (utxos.insert o coin) = utxos.totalValue + coin.output.value.toNat := by
  have hp := (utxos.insert_perm coin h).map fun e => e.2.output.value.toNat
  have hsum := hp.sum_eq
  simp only [List.map_cons, List.sum_cons] at hsum
  simp only [totalValue, hsum]
  omega

theorem totalValue_erase (utxos : UtxoSet) {o : OutPoint} {coin : Coin}
    (h : utxos.find o = some coin) :
    totalValue (utxos.erase o) + coin.output.value.toNat = utxos.totalValue := by
  have hp := (utxos.erase_perm h).map fun e => e.2.output.value.toNat
  have hsum := hp.sum_eq
  simp only [List.map_cons, List.sum_cons] at hsum
  simp only [totalValue, hsum]
  omega

theorem valueAt_of_find {utxos : UtxoSet} {o : OutPoint} {coin : Coin}
    (h : utxos.find o = some coin) : utxos.valueAt o = coin.output.value.toNat := by
  simp [valueAt, h]

end UtxoSet
end Blockchain
