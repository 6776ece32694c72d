import Copycat.Avalanche.Polls
import Copycat.Lib.Messaging
import Copycat.Thread.Avalanche

/-!
# A node that asks and votes

A node of an Avalanche or Blizzard chain from the block thread to the decision stage: the
block thread hands its own blocks and the checked blocks of peers to block dissemination,
which sends own blocks to a sample of the neighbours, and on to the decision stage, which
votes on them. The pipes between the stages keep the order.

What the other stages do is left open: transactions and quotas come at any time, and
what is committed leaves the model. A call that panics has no successor, nor has one
that does not return, and sends do not fail. Where a node talks to peers the messages are
those of the source, without the serialisation.
-/

namespace Copycat.Voting

open Copycat.Lib
open Avalanche (AvalancheTxn BlockManagement Call Config Decision OwnVotes PeerReq
  StageConfig UniqueIds VoteMsg)
open Thread (avalancheBlocks blockThread)

variable {C : Type}

/-! ## Nodes -/

/-- The nodes of a chain, which have their ids of transactions in common. `sign` makes
the signature of a vote. -/
structure Cluster (C : Type) where
  ids : UniqueIds
  config : NodeId → Config C
  blkLen : NodeId → Nat
  neighbors : NodeId → Finset NodeId
  sign : NodeId → Nat × List Bool → Signature
  self_config : ∀ n, (config n).self = n
  ids_config : ∀ n, (config n).ids = ids.toTxnIds

/-- The constants of block management. -/
def Cluster.stage (c : Cluster C) (n : NodeId) : StageConfig where
  self := n
  blkLen := c.blkLen n

/-- What the block thread works on. -/
abbrev Blocks := Thread.BlockThread BlockManagement Avalanche.Block

/-- What the block thread does. -/
abbrev BlockEvent := Thread.Event Avalanche.Block AvalancheTxn

/-- New blocks, and whom they are from. -/
abbrev Tail := NodeId × List Avalanche.Block

/-- `MsgType`, as far as these stages send it. -/
inductive Packet where
  | newBlock (src dest : NodeId) (blk : Avalanche.Block)
  | blockReq (src dest : NodeId) (req : PeerReq)
  | consensusMsg (src dest : NodeId) (msg : VoteMsg)
deriving DecidableEq

/-- The block thread, the pipes `new_block` and `block_ready`, and the decision stage. -/
structure Replica (C : Type) where
  blocks : Blocks
  newBlock : List Tail
  blockReady : List Tail
  decision : Decision C

/-- An arm of the block thread, with `answer` for the requests of peers, one of block
dissemination, and a call of the decision stage. `votes` is what the node votes on the
block that `new_tail` brings. -/
inductive Act where
  | blocks (e : BlockEvent)
  | answer (src : NodeId) (req : PeerReq)
  | disseminate (dests : Finset NodeId)
  | decide (call : Call) (votes : List Bool)

/-- The messages that a node takes in. -/
def takes (n : NodeId) : Act → Multiset Packet
  | .blocks (.peerBlk src blk) => {.newBlock src n blk}
  | .answer src req => {.blockReq src n req}
  | .decide (.peerMsg src (some msg)) _ => {.consensusMsg src n msg}
  | _ => 0

/-- What the block thread sends to `new_block`. -/
def newBlocks (n : NodeId) : BlockEvent → List Tail
  | .propose blk => [(n, [blk])]
  | .validate src _ newTail => if newTail.isEmpty then [] else [(src, newTail)]
  | _ => []

/-- The request that `validate_block` sends to the proposer. -/
def requests (ids : UniqueIds) (n : NodeId) (t : Blocks) : BlockEvent → Multiset Packet
  | .validate _ blk _ =>
    match BlockManagement.validateBlock ids t.stage blk with
    | .ok v => (v.req.toList.map fun req => .blockReq n req.proposer req : List Packet)
    | .error _ => 0
  | _ => 0

/-- Whom `SamplingBlockDissemination` may choose: as many neighbours as the sample has
besides the node itself, or all of them. -/
def Sampled (c : Cluster C) (n src : NodeId) (dests : Finset NodeId) : Prop :=
  if src = n then
    dests ⊆ c.neighbors n ∧ dests.card = min ((c.config n).k - 1) (c.neighbors n).card
  else dests = ∅

instance (c : Cluster C) (n src : NodeId) (dests : Finset NodeId) :
    Decidable (Sampled c n src dests) := by
  unfold Sampled
  exact inferInstance

/-- The last block of a tail is sent to them. -/
def multicast (n : NodeId) (dests : Finset NodeId) (tail : List Avalanche.Block) :
    Multiset Packet :=
  match tail.getLast? with
  | some blk => dests.val.map fun m => .newBlock n m blk
  | none => 0

/-- The vote that `new_tail` sends to the proposer of a peer block. -/
def ballot (c : Cluster C) (n : NodeId) : Option (NodeId × Nat × List Bool) → Multiset Packet
  | none => 0
  | some (proposer, round, votes) =>
    {.consensusMsg n proposer ⟨round, votes, c.sign n (round, votes)⟩}

/-- The calls of the decision stage that concern no other part of the node. -/
def Inner : Call → Prop
  | .timeout => True
  | .commit _ _ => True
  | _ => False

/-- What a node can do, and the messages it sends by that. -/
inductive Turn (c : Cluster C) (n : NodeId) (r : Replica C) :
    Act → Multiset Packet → Replica C → Prop
  | blocks {e : BlockEvent} {t : Blocks} :
      Thread.Step (avalancheBlocks c.ids (c.stage n)) n r.blocks e t →
      Turn c n r (.blocks e) (requests c.ids n r.blocks e)
        { r with blocks := t, newBlock := r.newBlock ++ newBlocks n e }
  | answer (src : NodeId) (req : PeerReq) :
      Turn c n r (.answer src req) {.newBlock n src (r.blocks.stage.handlePeerBlkReq req)} r
  | disseminate {src : NodeId} {tail : List Avalanche.Block} {rest : List Tail}
      {dests : Finset NodeId} :
      r.newBlock = (src, tail) :: rest → Sampled c n src dests →
      Turn c n r (.disseminate dests) (multicast n dests tail) { r with
        newBlock := rest
        blockReady := r.blockReady ++ if tail.isEmpty then [] else [(src, tail)] }
  | newTail {fuel now : Nat} {src : NodeId} {tail : List Avalanche.Block}
      {rest : List Tail} {votes : List Bool} {d : Decision C}
      {reply : Option (NodeId × Nat × List Bool)} :
      r.blockReady = (src, tail) :: rest →
      OwnVotes (c.config n) r.decision (.newTail src tail) votes →
      Avalanche.newTail (c.config n) fuel now r.decision src tail = .ok (d, reply) →
      Turn c n r (.decide (.newTail src tail) votes) (ballot c n reply)
        { r with blockReady := rest, decision := d }
  | peerMsg {fuel : Nat} {src : NodeId} {msg : VoteMsg} {d : Decision C} :
      Avalanche.handlePeerMsg (c.config n) fuel r.decision src (some msg) = .ok d →
      Turn c n r (.decide (.peerMsg src (some msg)) []) 0 { r with decision := d }
  | inner {call : Call} {d : Decision C} : Inner call →
      Avalanche.Step (c.config n) r.decision call d →
      Turn c n r (.decide call []) 0 { r with decision := d }

/-- The nodes as a network. -/
def voting (c : Cluster C) : Messaging NodeId (Replica C) Act Packet where
  start _ := {
    blocks := .new (avalancheBlocks c.ids (c.stage 0))
    newBlock := []
    blockReady := []
    decision := .new C }
  takes := takes
  turn := Turn c

/-- The arms of the block thread that were taken. -/
def events (acts : List Act) : List BlockEvent :=
  acts.filterMap fun
    | .blocks e => some e
    | _ => none

/-- The calls of the decision stage. -/
def calls (acts : List Act) : List Call :=
  acts.filterMap fun
    | .decide call _ => some call
    | _ => none

/-- The tails that the decision stage has taken up. -/
def tails (acts : List Act) : List Tail :=
  acts.filterMap fun
    | .decide (.newTail src tail) _ => some (src, tail)
    | _ => none

variable {c : Cluster C} {n : NodeId} {acts : List Act} {r r' : Replica C}
  {G : Replica C → Act → Prop}

theorem mem_events {e : BlockEvent} : e ∈ events acts ↔ .blocks e ∈ acts := by
  unfold events
  rw [List.mem_filterMap]
  refine ⟨fun h => ?_, fun h => ⟨_, h, rfl⟩⟩
  obtain ⟨a, ha, h⟩ := h
  cases a with
  | blocks e' => exact Option.some.inj h ▸ ha
  | _ => exact absurd h (by simp)

/-! ## The stages -/

/-- The block thread does not depend on what comes after it. -/
theorem run_blocks (h : ((voting c).node n).Run G acts r) :
    (blockThread (avalancheBlocks c.ids (c.stage n)) (c.stage n).self).Run (fun _ _ => True)
      (events acts) r.blocks := by
  refine h.project _ (fun r : Replica C => r.blocks) rfl fun r a r' hstep => ?_
  obtain ⟨out, hturn⟩ := hstep
  cases hturn with
  | blocks hstep => exact Or.inr ⟨_, rfl, hstep⟩
  | _ => exact Or.inl ⟨rfl, rfl⟩

/-- The pipes lose empty tails at most. -/
theorem run_pipes (h : ((voting c).node n).Run G acts r) :
    (tails acts ++ r.blockReady ++ r.newBlock).Sublist ((events acts).flatMap (newBlocks n)) := by
  refine h.invariant_trace (fun acts r => (tails acts ++ r.blockReady ++ r.newBlock).Sublist
    ((events acts).flatMap (newBlocks n))) (List.Sublist.refl _) ?_
  intro acts r a r' ih _ hstep
  obtain ⟨out, hturn⟩ := hstep
  unfold tails events at ih ⊢
  rw [List.filterMap_append, List.filterMap_append, List.flatMap_append]
  cases hturn with
  | @blocks e t _ =>
    have hnew := ih.append (List.Sublist.refl (newBlocks n e))
    simpa using hnew
  | answer => simpa using ih
  | @disseminate src tail rest dests hpipe _ =>
    refine List.Sublist.trans ?_ (by simpa using ih)
    rw [hpipe]
    cases tail with
    | nil => simp
    | cons => simp
  | @newTail _ _ src tail rest _ _ _ hpipe _ _ =>
    rw [hpipe] at ih
    simpa using ih
  | peerMsg => simpa using ih
  | @inner call _ hinner _ =>
    cases call with
    | timeout => simpa using ih
    | commit => simpa using ih
    | newTail => exact hinner.elim
    | peerMsg => exact hinner.elim

end Copycat.Voting
