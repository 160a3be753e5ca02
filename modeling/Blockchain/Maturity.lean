import Blockchain.DoubleSpend

/-! Coinbase maturity over the whole history. The check reads the height and the coinbase
flag stored in the coin; both are those of the transaction that created it, and within a
block the coinbase comes last, so nothing in its own block can spend it. -/
namespace Blockchain
open Lib

/-- The later transaction consumes the coin that the earlier one created at the outpoint:
nothing between them in the order of effects spends it. -/
def Consumes (blocks : List Block) (creator spender : Nat × Transaction) (o : OutPoint) : Prop :=
  ∃ pre mid post, history blocks = pre ++ creator :: (mid ++ spender :: post) ∧
    creator.2.txid = o.txid ∧ o.index.toNat < creator.2.outputs.length ∧
    spender.2.isCoinbase = false ∧ o ∈ spender.2.prevouts ∧
    ∀ x ∈ mid, x.2.isCoinbase = false → o ∉ x.2.prevouts

theorem history_split {blocks : List Block} {before after : List (Nat × Transaction)} {k : Nat}
    {tx : Transaction} (h : history blocks = before ++ (k, tx) :: after) :
    ∃ init block rest p q, blocks = init ++ block :: rest ∧ k = init.length ∧
      block.ordered = p ++ tx :: q ∧ before = history init ++ p.map fun t => (k, t) := by
  induction blocks using List.reverseRecOn generalizing after with
  | nil => simp [history] at h
  | append_singleton blocks block ih =>
    rw [history_concat] at h
    obtain ⟨rest, hin, _⟩ | ⟨rest, hbefore, hlast⟩ := append_eq_append_cons h
    · obtain ⟨init, b, more, p, q, rfl, hk, hord, hbefore⟩ := ih hin
      exact ⟨init, b, more ++ [block], p, q, by simp, hk, hord, hbefore⟩
    · obtain ⟨p, q', hord, hp, hq⟩ := List.map_eq_append_iff.mp hlast
      obtain ⟨t, q, rfl, ht, _⟩ := List.map_eq_cons_iff.mp hq
      obtain ⟨rfl, rfl⟩ := Prod.mk.inj ht
      exact ⟨blocks, block, [], p, q, rfl, rfl, hord, by rw [hbefore, hp]⟩

theorem mem_history_lt {blocks : List Block} {x : Nat × Transaction} (h : x ∈ history blocks) :
    x.1 < blocks.length := by
  obtain ⟨pre, post, hsplit⟩ := List.append_of_mem h
  obtain ⟨init, block, rest, _, _, rfl, hk, _⟩ := history_split hsplit
  simp [hk]

theorem Accepted.connects {params : ConsensusParams} {blocks : List Block} {chain : Chain}
    (h : Accepted params blocks chain) {init rest : List Block} {block : Block}
    (hsplit : blocks = init ++ block :: rest) :
    ∃ utxos result, utxos.find = SpendLog.store (fun _ => none) ((history init).map historyEvent) ∧
      connectBlock block utxos params = .ok result := by
  induction h generalizing rest with
  | @create genesis chain h =>
    obtain ⟨_, _, _, fees, utxos, hconn, _⟩ := Chain.create_ok.mp h
    obtain ⟨rfl, rfl, rfl⟩ : init = [] ∧ genesis = block ∧ rest = [] := by
      cases init <;> simp_all
    exact ⟨_, _, rfl, hconn⟩
  | @submit bs chain next last fees pool pool' hacc hb ih =>
    obtain ⟨more, hin, _⟩ | ⟨more, hinit, hlast⟩ := append_eq_append_cons hsplit
    · exact ih hin
    · obtain ⟨rfl, rfl, rfl⟩ : more = [] ∧ last = block ∧ rest = [] := by
        cases more <;> simp_all
      obtain ⟨_, ⟨utxos, hconn, _⟩, _⟩ := Chain.submitBlock_ok.mp hb
      rw [List.append_nil] at hinit
      rw [hacc.params_eq] at hconn
      rw [hinit]
      exact ⟨_, _, hacc.store_history.2, hconn⟩

/-- Every confirmed spend was checked for maturity against the coins left by all effects
before it. -/
theorem Accepted.spend_checked {params : ConsensusParams} {blocks : List Block} {chain : Chain}
    (h : Accepted params blocks chain) {before after : List (Nat × Transaction)} {k : Nat}
    {tx : Transaction} (hsplit : history blocks = before ++ (k, tx) :: after)
    (hcb : tx.isCoinbase = false) :
    (∃ working : UtxoSet,
      working.find = SpendLog.store (fun _ => none) (before.map historyEvent) ∧
      checkCoinbaseMaturity tx working (UInt32.ofNat k) params.coinbaseMaturity = .ok ()) ∧
    ∀ x ∈ before, x.2.isCoinbase = true → x.1 < k := by
  obtain ⟨init, block, rest, p, q, hblocks, rfl, hord, rfl⟩ := history_split hsplit
  obtain ⟨utxos, result, hfind, hconn⟩ := h.connects hblocks
  have hsane := (connectBlock_ok hconn).1
  obtain ⟨q', hbody⟩ := hsane.body_split hord hcb
  have hat : blocks[init.length]? = some block := by simp [hblocks]
  have hheight : UInt32.ofNat init.length = block.header.height := by
    rw [← h.block_height hat, UInt32.ofNat_toNat]
  constructor
  · obtain ⟨working, total, _, hwork, hone⟩ := connectBlock_turn hconn hbody
    refine ⟨working, ?_, ?_⟩
    · rw [hwork, hfind, List.map_append, SpendLog.store_append, List.map_map]
      simp only [Function.comp_def, historyEvent, hheight]
    · rw [connectTransaction] at hone
      obtain ⟨_, _, hone⟩ := bind_eq_ok.mp hone
      rw [hheight]
      exact (seq_eq_ok.mp hone).1
  · intro x hx hxcb
    obtain hx | hx := List.mem_append.mp hx
    · exact mem_history_lt hx
    · obtain ⟨t, ht, rfl⟩ := List.mem_map.mp hx
      have hin : t ∈ block.body := by simp [hbody, ht]
      rw [hsane.body_eq] at hin
      simp [hxcb] at hin

theorem Accepted.consumed_coin {params : ConsensusParams} {blocks : List Block} {chain : Chain}
    (h : Accepted params blocks chain) {pre mid post : List (Nat × Transaction)} {height : Nat}
    {creator : Transaction} (hsplit : history blocks = pre ++ (height, creator) :: (mid ++ post))
    {o : OutPoint} (hid : creator.txid = o.txid) (hidx : o.index.toNat < creator.outputs.length)
    (hmid : ∀ x ∈ mid, x.2.isCoinbase = false → o ∉ x.2.prevouts) :
    ∃ coin, SpendLog.store (fun _ => none) ((pre ++ (height, creator) :: mid).map historyEvent) o =
      some coin ∧ coin.height.toNat = height ∧ coin.coinbase = creator.isCoinbase := by
  have hadm := h.store_history.1
  have hlt := h.height_of_mem_history (x := (height, creator)) (by simp [hsplit])
  have hlog : history blocks = (pre ++ (height, creator) :: mid) ++ post := by simp [hsplit]
  rw [hlog, List.map_append] at hadm
  obtain ⟨output, hout⟩ : ∃ output, creator.outputs[o.index.toNat]? = some output :=
    ⟨_, List.getElem?_eq_getElem hidx⟩
  refine ⟨⟨output, UInt32.ofNat height, creator.isCoinbase⟩, ?_, UInt32.toNat_ofNat_of_lt' hlt, rfl⟩
  refine (SpendLog.store_eq_some_iff (SpendLog.admissible_append.mp hadm).1 o _).mpr ?_
  refine ⟨pre.map historyEvent, historyEvent (height, creator), mid.map historyEvent, by simp,
    createdCoins_eq_some.mpr ⟨hid, hout, rfl, rfl⟩, ?_⟩
  intro e he
  obtain ⟨x, hx, rfl⟩ := List.mem_map.mp he
  exact historyEvent_spends.mpr (hmid x hx)

/-- A coinbase output is consumed above its own height and not before it has matured. -/
theorem coinbase_matures {params : ConsensusParams} {blocks : List Block} {chain : Chain}
    (hacc : Accepted params blocks chain) {h k : Nat} {coinbase tx : Transaction} {o : OutPoint}
    (hcb : coinbase.isCoinbase = true) (hcons : Consumes blocks (h, coinbase) (k, tx) o) :
    h < k ∧ h + params.coinbaseMaturity.toNat ≤ k := by
  obtain ⟨pre, mid, post, hsplit, hid, hidx, htx, ho, hmid⟩ := hcons
  have hspend : history blocks = (pre ++ (h, coinbase) :: mid) ++ (k, tx) :: post := by
    simp [hsplit]
  obtain ⟨⟨working, hwork, hmature⟩, hbelow⟩ := hacc.spend_checked hspend htx
  obtain ⟨coin, hcoin, hheight, hflag⟩ := hacc.consumed_coin hsplit hid hidx hmid
  have hlt := hbelow (h, coinbase) (by simp) hcb
  have hk := hacc.height_of_mem_history (x := (k, tx)) (by simp [hspend])
  have hle := checkCoinbaseMaturity_eq_ok.mp hmature o ho coin ((congrFun hwork o).trans hcoin)
    (hflag.trans hcb)
  rw [hheight, UInt32.toNat_ofNat_of_lt' hk] at hle
  exact ⟨hlt, hle⟩

theorem Accepted.input_consumes {params : ConsensusParams} {blocks : List Block} {chain : Chain}
    (hacc : Accepted params blocks chain) {x : Nat × Transaction} (hx : x ∈ history blocks)
    (hcb : x.2.isCoinbase = false) {o : OutPoint} (ho : o ∈ x.2.prevouts) :
    ∃ creator, Consumes blocks creator x o := by
  obtain ⟨before, after, hsplit⟩ := List.append_of_mem hx
  have hadm := hacc.store_history.1
  rw [hsplit, List.map_append, List.map_cons] at hadm
  obtain ⟨hbefore, hfits, _⟩ := SpendLog.admissible_append.mp hadm
  have hspent : o ∈ (historyEvent x).spends := by simpa [historyEvent, txEvent, hcb] using ho
  obtain ⟨coin, hcoin⟩ := Option.isSome_iff_exists.mp (hfits.present o hspent)
  obtain ⟨pre, e, mid, hlog, hcreate, hmid⟩ := (SpendLog.store_eq_some_iff hbefore o coin).mp hcoin
  obtain ⟨pre, rest, rfl, rfl, hrest⟩ := List.map_eq_append_iff.mp hlog
  obtain ⟨creator, mid, rfl, rfl, rfl⟩ := List.map_eq_cons_iff.mp hrest
  obtain ⟨hid, hout, _⟩ := createdCoins_eq_some.mp hcreate
  obtain ⟨hidx, _⟩ := List.getElem?_eq_some_iff.mp hout
  refine ⟨creator, pre, mid, after, by simp [hsplit], hid, hidx, hcb, ho, ?_⟩
  exact fun y hy => historyEvent_spends.mp (hmid _ (List.mem_map_of_mem hy))

theorem coinbase_matures_mint :
    Consumes [mintGenesis, spendBlock] (0, mint) (1, spendMint) ⟨mint.txid, 0⟩ ∧
      0 < 1 ∧ 0 + (1 : UInt32).toNat ≤ 1 := by
  have hcons : Consumes [mintGenesis, spendBlock] (0, mint) (1, spendMint) ⟨mint.txid, 0⟩ :=
    ⟨[], [], [], rfl, rfl, by decide, rfl, List.mem_singleton.mpr rfl, by simp⟩
  exact ⟨hcons, coinbase_matures (mint_spent_accepted (by decide)) rfl hcons⟩

end Blockchain
