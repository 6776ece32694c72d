import Copycat.Bitcoin.Runs
import Copycat.Lib.Spread
import Mathlib.Data.Finset.Prod
import Mathlib.Data.Set.Finite.Lattice

/-!
# Block requests among peers

A node that misses an ancestor gossips a `BlockReq` to its neighbors. One that
has the block sends it back; one that does not gossips the request on, to all
neighbors but itself and the peer it came from (`handle_peer_blk_req` of
`src/stage/consensus/block_management/bitcoin/basic.rs`). Requests carry
nothing but the id of the block, and nobody remembers them.

So a request can go around in a circle, and then it does so forever. It dies
out iff there is no circle to go around: a closed way, without turning back on
the spot, through nodes that lack the block (`request_dies_out`). Where peer
blocks are gossiped, `blks_seen` stops the second round; requests have no such
set.
-/

namespace Copycat.Bitcoin

open Copycat.Lib
open Relation (ReflTransGen TransGen)

/-- The messages of `MsgType` that answer each other here. A request carries the
id of the block. -/
inductive MsgType where
  | newBlock (blk : Block)
  | blockReq (blkId : Hash)
deriving DecidableEq, Repr

structure Packet where
  src : NodeId
  dest : NodeId
  msg : MsgType
deriving DecidableEq, Repr

/-- Finitely many nodes, each with the neighbors its `PeerMessenger` has. -/
structure Topology where
  nodes : Finset NodeId
  neighbors : NodeId → Finset NodeId
  inside : ∀ n, neighbors n ⊆ nodes

/-- The `block_pool` of each node. -/
abbrev BlockPools := NodeId → Hash → Option (Block × Nat)

/-- `PeerMessenger::gossip` of the node `me`. -/
def gossip (net : Topology) (me : NodeId) (msg : MsgType) (skipping : Finset NodeId) :
    Multiset Packet :=
  (net.neighbors me \ skipping).val.map fun dest => ⟨me, dest, msg⟩

/-- `handle_peer_blk_req` of the node `me`. -/
def handlePeerBlkReq (net : Topology) (me : NodeId) (blockPool : Hash → Option (Block × Nat))
    (peer : NodeId) (blkId : Hash) : Multiset Packet :=
  match blockPool blkId with
  | some (blk, _) =>
    -- return the req if the block is known
    {⟨me, peer, .newBlock blk⟩}
  | none =>
    -- otherwise gossip to other neighbors
    gossip net me (.blockReq blkId) {me, peer}

/-- What becomes of a packet: a request is handled where it arrives. -/
def deliver (net : Topology) (pools : BlockPools) (p : Packet) : Option (Multiset Packet) :=
  match p.msg with
  | .newBlock _ => none
  | .blockReq blkId => some (handlePeerBlkReq net p.dest (pools p.dest) p.src blkId)

/-- The request that `validate_block` of `origin` makes for a missing ancestor. -/
def request (net : Topology) (origin : NodeId) (blkId : Hash) : Multiset Packet :=
  gossip net origin (.blockReq blkId) {origin}

/-! ## Ways of a request -/

section Ways

variable (net : Topology) (pools : BlockPools) (blkId : Hash)

/-- A request that came over the first arc goes on over the second: the node
between them lacks the block, and does not send the request to itself or
back. -/
structure Passes (arc next : NodeId × NodeId) : Prop where
  src : next.1 = arc.2
  lacks : pools arc.2 blkId = none
  neighbor : next.2 ∈ net.neighbors arc.2
  ahead : next.2 ≠ arc.2
  noTurn : next.2 ≠ arc.1

/-- A request that `origin` makes can get to the arc. -/
def OnTheWay (origin : NodeId) (arc : NodeId × NodeId) : Prop :=
  ∃ n ∈ net.neighbors origin, n ≠ origin ∧ ReflTransGen (Passes net pools blkId) (origin, n) arc

/-- There is no circle for a request of `origin` to go around. -/
def NoCircle (origin : NodeId) : Prop :=
  ∀ arc, OnTheWay net pools blkId origin arc → ¬ TransGen (Passes net pools blkId) arc arc

/-- The request on an arc. -/
def onArc (arc : NodeId × NodeId) : Packet := ⟨arc.1, arc.2, .blockReq blkId⟩

end Ways

variable {net : Topology} {pools : BlockPools} {blkId : Hash} {origin : NodeId}
  {arc arc' : NodeId × NodeId} {p q : Packet}

theorem mem_gossip {me : NodeId} {msg : MsgType} {skipping : Finset NodeId} :
    p ∈ gossip net me msg skipping ↔
      ∃ dest ∈ net.neighbors me, dest ∉ skipping ∧ p = ⟨me, dest, msg⟩ := by
  unfold gossip
  simp only [Multiset.mem_map, Finset.mem_val, Finset.mem_sdiff, and_assoc, eq_comm]

theorem mem_request : p ∈ request net origin blkId ↔
    ∃ n ∈ net.neighbors origin, n ≠ origin ∧ p = onArc blkId (origin, n) := by
  unfold request
  rw [mem_gossip]
  simp only [Finset.mem_singleton]
  rfl

theorem not_leads_newBlock {src dest : NodeId} {blk : Block} :
    ¬ Leads (deliver net pools) ⟨src, dest, .newBlock blk⟩ q := by
  intro h
  obtain ⟨out, hout, -⟩ := h
  exact absurd hout (by simp [deliver])

/-- A request leads to a reply, or to requests on the arcs that come next. -/
theorem leads_onArc : Leads (deliver net pools) (onArc blkId arc) p ↔
    (∃ blk n, pools arc.2 blkId = some (blk, n) ∧ p = ⟨arc.2, arc.1, .newBlock blk⟩) ∨
    ∃ next, Passes net pools blkId arc next ∧ p = onArc blkId next := by
  have hleads : Leads (deliver net pools) (onArc blkId arc) p ↔
      p ∈ handlePeerBlkReq net arc.2 (pools arc.2) arc.1 blkId := by
    unfold Leads
    simp [deliver, onArc]
  rw [hleads]
  unfold handlePeerBlkReq
  cases hpool : pools arc.2 blkId with
  | some b =>
    dsimp only
    rw [Multiset.mem_singleton]
    constructor
    · exact fun h => Or.inl ⟨b.1, b.2, rfl, h⟩
    · intro h
      rcases h with ⟨blk, n, hb, rfl⟩ | ⟨next, hnext, -⟩
      · rw [Option.some.inj hb]
      · exact absurd (hpool.symm.trans hnext.lacks) (by simp)
  | none =>
    dsimp only
    rw [mem_gossip]
    constructor
    · intro h
      obtain ⟨dest, hdest, hskip, rfl⟩ := h
      obtain ⟨hself, hpeer⟩ : dest ≠ arc.2 ∧ dest ≠ arc.1 := by simpa using hskip
      exact Or.inr ⟨(arc.2, dest), ⟨rfl, hpool, hdest, hself, hpeer⟩, rfl⟩
    · intro h
      rcases h with ⟨blk, n, hb, -⟩ | ⟨⟨src, dest⟩, hnext, rfl⟩
      · exact absurd hb (by simp)
      · obtain rfl : src = arc.2 := hnext.src
        exact ⟨dest, hnext.neighbor, by simpa using ⟨hnext.ahead, hnext.noTurn⟩, rfl⟩

theorem onArc_inj : Function.Injective (onArc blkId) := by
  intro arc arc' h
  obtain ⟨hsrc, hdest, -⟩ := Packet.mk.inj h
  exact Prod.ext hsrc hdest

/-- What a request can lead to: requests further on its way, and replies to
these. -/
theorem reaches_onArc (h : ReflTransGen (Leads (deliver net pools)) (onArc blkId arc) p) :
    ∃ last, ReflTransGen (Passes net pools blkId) arc last ∧
      (p = onArc blkId last ∨
        ∃ blk n, pools last.2 blkId = some (blk, n) ∧ p = ⟨last.2, last.1, .newBlock blk⟩) := by
  induction h with
  | refl => exact ⟨arc, .refl, Or.inl rfl⟩
  | tail _ hlast ih =>
    obtain ⟨last, hlast', rfl | ⟨blk, n, -, rfl⟩⟩ := ih
    · rcases leads_onArc.mp hlast with hreply | ⟨next, hnext, rfl⟩
      · exact ⟨last, hlast', Or.inr hreply⟩
      · exact ⟨next, hlast'.tail hnext, Or.inl rfl⟩
    · exact absurd hlast not_leads_newBlock

theorem reaches_iff : ReflTransGen (Leads (deliver net pools)) (onArc blkId arc)
    (onArc blkId arc') ↔ ReflTransGen (Passes net pools blkId) arc arc' := by
  constructor
  · intro h
    obtain ⟨last, hlast, heq | ⟨blk, n, -, heq⟩⟩ := reaches_onArc h
    · rwa [onArc_inj heq]
    · exact absurd (Packet.mk.inj heq).2.2 (by simp)
  · exact fun h => h.lift (onArc blkId) fun a b hab => leads_onArc.mpr (Or.inr ⟨b, hab, rfl⟩)

/-- The circles of requests. -/
theorem circle_iff : TransGen (Leads (deliver net pools)) (onArc blkId arc) (onArc blkId arc) ↔
    TransGen (Passes net pools blkId) arc arc := by
  rw [TransGen.head'_iff, TransGen.head'_iff]
  constructor
  · intro h
    obtain ⟨p, hp, hback⟩ := h
    rcases leads_onArc.mp hp with ⟨blk, n, -, rfl⟩ | ⟨next, hnext, rfl⟩
    · -- a reply leads nowhere
      rcases hback.cases_head with heq | ⟨q, hq, -⟩
      · exact absurd (Packet.mk.inj heq).2.2 (by simp)
      · exact absurd hq not_leads_newBlock
    · exact ⟨next, hnext, reaches_iff.mp hback⟩
  · intro h
    obtain ⟨next, hnext, hback⟩ := h
    exact ⟨_, leads_onArc.mpr (Or.inr ⟨next, hnext, rfl⟩), reaches_iff.mpr hback⟩

/-- Requests stay among the nodes. -/
theorem OnTheWay.inside (h : OnTheWay net pools blkId origin arc) :
    arc.1 ∈ insert origin net.nodes ∧ arc.2 ∈ insert origin net.nodes := by
  obtain ⟨n, hn, -, hway⟩ := h
  induction hway with
  | refl =>
    exact ⟨Finset.mem_insert_self _ _, Finset.mem_insert_of_mem (net.inside _ hn)⟩
  | tail _ hpass ih =>
    exact ⟨hpass.src ▸ ih.2, Finset.mem_insert_of_mem (net.inside _ hpass.neighbor)⟩

theorem turns_request (hp : p ∈ Turns (deliver net pools) (request net origin blkId)) :
    ∃ arc, OnTheWay net pools blkId origin arc ∧
      (p = onArc blkId arc ∨
        ∃ blk n, pools arc.2 blkId = some (blk, n) ∧ p = ⟨arc.2, arc.1, .newBlock blk⟩) := by
  obtain ⟨q, hq, hway⟩ := hp
  obtain ⟨n, hn, hne, rfl⟩ := mem_request.mp hq
  obtain ⟨last, hlast, hp⟩ := reaches_onArc hway
  exact ⟨last, ⟨n, hn, hne, hlast⟩, hp⟩

/-- Finitely many packets can turn up. -/
theorem turns_finite : (Turns (deliver net pools) (request net origin blkId)).Finite := by
  have hfin : (⋃ arc ∈ ((insert origin net.nodes) ×ˢ (insert origin net.nodes) : Finset _),
      {onArc blkId arc} ∪ {p | p ∈ handlePeerBlkReq net arc.2 (pools arc.2) arc.1 blkId}).Finite :=
    Set.Finite.biUnion (Finset.finite_toSet _) fun arc _ =>
      (Set.finite_singleton _).union (Multiset.finite_toSet _)
  refine hfin.subset fun p hp => ?_
  obtain ⟨arc, hway, hp⟩ := turns_request hp
  obtain ⟨hsrc, hdest⟩ := hway.inside
  refine Set.mem_biUnion (Finset.mem_product.mpr ⟨hsrc, hdest⟩) ?_
  rcases hp with rfl | ⟨blk, n, hpool, rfl⟩
  · exact Or.inl rfl
  · right
    show _ ∈ handlePeerBlkReq net arc.2 (pools arc.2) arc.1 blkId
    rw [handlePeerBlkReq, hpool]
    exact Multiset.mem_singleton_self _

theorem noCircle_iff : NoCircle net pools blkId origin ↔
    ∀ p ∈ Turns (deliver net pools) (request net origin blkId),
      ¬ TransGen (Leads (deliver net pools)) p p := by
  constructor
  · intro h p hp hcircle
    obtain ⟨arc, hway, rfl | ⟨blk, n, -, rfl⟩⟩ := turns_request hp
    · exact h arc hway (circle_iff.mp hcircle)
    · obtain ⟨q, hq, -⟩ := TransGen.head'_iff.mp hcircle
      exact absurd hq not_leads_newBlock
  · intro h arc hway hcircle
    obtain ⟨n, hn, hne, hway⟩ := hway
    exact h (onArc blkId arc) ⟨_, mem_request.mpr ⟨n, hn, hne, rfl⟩, reaches_iff.mpr hway⟩
      (circle_iff.mpr hcircle)

/-- **A block request dies out** iff there is no circle for it to go around; and
then there is a bound on the number of messages handled. -/
theorem request_dies_out (net : Topology) (pools : BlockPools) (origin : NodeId) (blkId : Hash) :
    (¬ Endless (deliver net pools) (request net origin blkId) ↔
      NoCircle net pools blkId origin) ∧
    (NoCircle net pools blkId origin →
      ∃ bound, ∀ n, Steps (deliver net pools) (request net origin blkId) n → n ≤ bound) := by
  constructor
  · rw [endless_iff turns_finite, noCircle_iff]
    simp only [not_exists, not_and]
  · exact fun h => exists_bound turns_finite (noCircle_iff.mp h)

/-- Nodes that are all connected to each other. -/
def Topology.complete (nodes : Finset NodeId) : Topology where
  nodes := nodes
  neighbors n := nodes.erase n
  inside n := Finset.erase_subset n nodes

/-- Between two nodes, a request does not come back. -/
theorem request_dies_out_demo :
    ¬ Endless (deliver (.complete {1, 2}) fun _ _ => none) (request (.complete {1, 2}) 1 7) := by
  refine (request_dies_out (.complete {1, 2}) (fun _ _ => none) 1 7).1.mpr fun arc hway => ?_
  have hstop : ∀ next, ¬ Passes (.complete {1, 2}) (fun _ _ => none) 7 (1, 2) next := by
    intro next hnext
    have hneighbor : next.2 ∈ ({1, 2} : Finset NodeId).erase 2 := hnext.neighbor
    obtain ⟨hne, hneighbor⟩ := Finset.mem_erase.mp hneighbor
    exact hnext.noTurn (by simpa [hne] using hneighbor)
  have harc : arc = (1, 2) := by
    obtain ⟨n, hn, -, hway⟩ := hway
    have hn : n ∈ ({1, 2} : Finset NodeId).erase 1 := hn
    obtain rfl : n = 2 := by simpa using hn
    rcases hway.cases_head with heq | ⟨next, hnext, -⟩
    · exact heq.symm
    · exact absurd hnext (hstop next)
  rw [harc]
  intro hcircle
  obtain ⟨next, hnext, -⟩ := TransGen.head'_iff.mp hcircle
  exact hstop next hnext

/-- Among three nodes that all lack the block, a request goes around forever. -/
theorem request_circles : ¬ ∀ (net : Topology) (pools : BlockPools) (origin : NodeId)
    (blkId : Hash), ¬ Endless (deliver net pools) (request net origin blkId) := by
  intro h
  have hno := (request_dies_out (.complete {1, 2, 3}) (fun _ _ => none) 1 7).1.mp (h _ _ _ _)
  have hpass : ∀ u v w : NodeId, w ∈ ({1, 2, 3} : Finset NodeId).erase v → w ≠ v → w ≠ u →
      Passes (.complete {1, 2, 3}) (fun _ _ => none) 7 (u, v) (v, w) :=
    fun u v w hw hv hu => ⟨rfl, rfl, hw, hv, hu⟩
  refine hno (1, 2) ⟨2, by decide, by decide, .refl⟩ ?_
  exact .head (hpass 1 2 3 (by decide) (by decide) (by decide))
    (.head (hpass 2 3 1 (by decide) (by decide) (by decide))
      (.single (hpass 3 1 2 (by decide) (by decide) (by decide))))

end Copycat.Bitcoin
