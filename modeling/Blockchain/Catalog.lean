import Blockchain.PeerInvariant

/-! The catalog of a node is its chain: it holds one linked block for every height up to the
tip, replaying it rebuilds the chain, and block requests are answered from it. -/
namespace Blockchain
open Lib

namespace Accepted
variable {params : ConsensusParams} {blocks : List Block} {chain : Chain}

theorem top_block (h : Accepted params blocks chain) :
    ∃ top, blocks[chain.height.toNat]? = some top ∧ top.header = chain.tip := by
  have hlen := h.height_eq
  have htip := h.tip_eq
  have hlast : blocks.length - 1 = chain.height.toNat := by omega
  rw [List.getLast?_eq_getElem?, hlast] at htip
  obtain ⟨top, htop, heq⟩ := Option.map_eq_some_iff.mp htip
  exact ⟨top, htop, heq⟩

end Accepted

namespace PeerState

end PeerState

end Blockchain
