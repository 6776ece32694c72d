import Copycat.Avalanche.Ledger

/-!
# `AvalancheDecision` and `BlizzardDecision`

The decision stage over the ledger of `Copycat.Avalanche.Ledger`: the queries
of this node's own blocks, the votes received for them, the timers, the queue
of decided blocks and the messages sent to the pacemaker.

The stage runs in one loop (`decide/mod.rs`), so a run is a sequence of whole
calls. The label of a step keeps the call with its arguments and, for
`next_to_commit`, what it returns. `handle_timeout` is called when `timeout`
has returned, that is, when the queue has a front whose time has passed, and
`next_to_commit` when the commit queue is not empty. A message that does not
deserialise or whose signature does not verify changes nothing. Sending is
modelled by what is sent: the vote on a peer's block is part of the result of
`newTail`, and `pmakerFeedback` counts the (empty) messages to the pacemaker.
-/

namespace Copycat.Avalanche

open Copycat.Lib

/-! ## `TimeQueue` -/

/-- `TimeQueue`, front first. -/
abbrev TimeQueue := List (Nat × Nat)

namespace TimeQueue

/-- `TimeQueue::push`: before the entries at the back that are later. -/
def push (q : TimeQueue) (data time : Nat) : TimeQueue :=
  (q.reverse.dropWhile fun te => decide (te.2 > time)).reverse ++ [(data, time)] ++
    (q.reverse.takeWhile fun te => decide (te.2 > time)).reverse

/-- `TimeQueue::remove`: the first entry of `data`. -/
def remove (q : TimeQueue) (data : Nat) : TimeQueue :=
  q.eraseP fun te => te.1 = data

end TimeQueue

/-! ## State and messages -/

/-- A block of transactions with `BlockHeader::Avalanche`. -/
structure Block where
  proposer : NodeId
  id : Nat
  depth : Nat
  txns : List AvalancheTxn
deriving DecidableEq, Repr

/-- `VoteMsg`. -/
structure VoteMsg where
  round : Nat
  votes : List Bool
  signature : Signature
deriving DecidableEq, Repr

/-- The decision stage. -/
structure Decision (C : Type) extends Ledger C where
  queryPool : Nat → Option (List (Option Hash))
  finishedQuery : Finset Nat
  votes : Nat → Option (Nat × List Nat)
  voteTimeQueue : TimeQueue
  commitQueue : List (Nat × List Hash)
  pmakerFeedback : Nat

/-- `AvalancheDecision::new`. -/
def Decision.new (C : Type) : Decision C where
  toLedger := Ledger.new C
  queryPool := fun _ => none
  finishedQuery := ∅
  votes := fun _ => none
  voteTimeQueue := []
  commitQueue := []
  pmakerFeedback := 0

variable {C : Type}

/-! ## Votes -/

/-- One iteration of the loop of `handle_votes` over the slots of a block. -/
def handleSlot (cfg : Config C) (fuel blkId : Nat) (acc : Ledger C × List Hash)
    (x : (Option Hash × Nat) × Nat) : Res (Ledger C × List Hash) :=
  match x.1.1 with
  | none => .ok acc -- the txn is not valid
  | some txnHash =>
    decideSlot cfg fuel (blkId, x.2) acc.1 txnHash x.1.2 >>= fun (l, commitList) =>
    .ok (l, acc.2 ++ commitList)

/-- `handle_votes`. -/
def handleVotes (cfg : Config C) (fuel : Nat) (s : Decision C) (blkId : Nat) :
    Res (Decision C) :=
  match s.queryPool blkId with
  -- if the batch has not yet been received or is already committed
  | none => .ok s
  | some txns =>
    unwrap (s.votes blkId) >>= fun (_, acceptVotes) =>
    if txns.length ≠ acceptVotes.length then .error .panic
    else
      (txns.zip acceptVotes).zipIdx.foldlM (handleSlot cfg fuel blkId) (s.toLedger, [])
        >>= fun (l, txnsToBeCommitted) =>
      .ok { s with
        toLedger := l
        queryPool := Function.update s.queryPool blkId none
        votes := Function.update s.votes blkId none
        finishedQuery := insert blkId s.finishedQuery
        voteTimeQueue := s.voteTimeQueue.remove blkId
        commitQueue := s.commitQueue ++ [(blkId, txnsToBeCommitted)]
        pmakerFeedback := s.pmakerFeedback + 1 }

/-- Count a vote vector in. -/
def addVotes (acceptVotes : List Nat) (votes : List Bool) : List Nat :=
  acceptVotes.zipWith (fun n v => if v then n + 1 else n) votes

/-- `record_votes`. -/
def recordVotes (cfg : Config C) (fuel : Nat) (s : Decision C) (blkId : Nat)
    (votes : List Bool) : Res (Decision C) :=
  -- ignore extra votes
  if blkId ∈ s.finishedQuery then .ok s
  else
    let entry := (s.votes blkId).getD (0, List.replicate votes.length 0)
    if entry.2.length ≠ votes.length then .error .panic
    else
      let votesReceived := entry.1 + 1
      let s := { s with
        votes := Function.update s.votes blkId (some (votesReceived, addVotes entry.2 votes)) }
      if votesReceived ≥ cfg.k then handleVotes cfg fuel s blkId else .ok s

/-! ## Calls -/

/-- What the loop of `new_tail` collects. -/
structure Batch (C : Type) where
  ledger : Ledger C
  votes : List Bool
  queryTxns : List (Option Hash)

/-- Record a transaction if it has never been seen. -/
def recordIfNew (cfg : Config C) (l : Ledger C) (txn : AvalancheTxn) : Ledger C :=
  if (l.txnPool (cfg.ids.txnId txn)).isSome then l else recordTxn cfg l txn

/-- One iteration of the loop of `new_tail`. -/
def newTxn (cfg : Config C) (fuel : Nat) (b : Batch C) (txn : AvalancheTxn) : Res (Batch C) :=
  let txnHash := cfg.ids.txnId txn
  match txn with
  | .grant .. =>
    -- vote true on grants since they cannot conflict with others
    .ok ⟨recordIfNew cfg b.ledger txn, b.votes ++ [true], b.queryTxns ++ [some txnHash]⟩
  | .placeHolder => .ok ⟨b.ledger, b.votes ++ [false], b.queryTxns ++ [none]⟩
  | _ =>
    isStronglyPreferred fuel (recordIfNew cfg b.ledger txn) txnHash >>= fun (l, vote) =>
    .ok ⟨l, b.votes ++ [vote], b.queryTxns ++ [some txnHash]⟩

/-- `new_tail` at time `now`: the state, and the vote sent to the proposer of a
peer's block. -/
def newTail (cfg : Config C) (fuel now : Nat) (s : Decision C) (src : NodeId) :
    List Block → Res (Decision C × Option (NodeId × Nat × List Bool))
  | [] => .ok (s, none)
  | [blk] =>
    if blk.depth ≠ 0 ∨ src ≠ blk.proposer then .error .panic
    else
      blk.txns.foldlM (newTxn cfg fuel) ⟨s.toLedger, [], []⟩ >>= fun b =>
      if blk.proposer = cfg.self then
        recordVotes cfg fuel
          { s with
            toLedger := b.ledger
            queryPool := Function.update s.queryPool blk.id (some b.queryTxns)
            voteTimeQueue := s.voteTimeQueue.push blk.id (now + cfg.voteTimeout) }
          blk.id b.votes >>= fun s => .ok (s, none)
      else .ok ({ s with toLedger := b.ledger }, some (blk.proposer, blk.id, b.votes))
  | _ => .error .panic

/-- `handle_timeout`. -/
def handleTimeout (cfg : Config C) (fuel : Nat) (s : Decision C) : Res (Decision C) :=
  match s.voteTimeQueue with
  | [] => .error .panic
  | (blkId, _) :: rest =>
    let s := { s with voteTimeQueue := rest }
    if blkId ∈ s.finishedQuery then .ok s else handleVotes cfg fuel s blkId

/-- `next_to_commit`. -/
def nextToCommit (s : Decision C) : Res (Decision C × Nat × List AvalancheTxn) :=
  match s.commitQueue with
  | [] => .error .panic
  | (blkId, txnHashes) :: rest =>
    unwrap (txnHashes.mapM s.txnPool) >>= fun txns =>
    .ok ({ s with commitQueue := rest }, blkId, txns)

/-- `handle_peer_msg`; `none` is content that does not deserialise. -/
def handlePeerMsg (cfg : Config C) (fuel : Nat) (s : Decision C) (src : NodeId) :
    Option VoteMsg → Res (Decision C)
  | none => .ok s
  | some msg =>
    if msg.round ∈ s.finishedQuery then .ok s
    else if cfg.verify src (msg.round, msg.votes) msg.signature then
      recordVotes cfg fuel s msg.round msg.votes
    else .ok s

/-! ## Runs -/

/-- The calls of the decision loop. -/
inductive Call where
  | newTail (src : NodeId) (newTail : List Block)
  | peerMsg (src : NodeId) (content : Option VoteMsg)
  | timeout
  | commit (blkId : Nat) (txns : List AvalancheTxn)

/-- One call. -/
inductive Step (cfg : Config C) : Decision C → Call → Decision C → Prop
  | newTail {s s' : Decision C} {fuel now : Nat} {src : NodeId} {tail : List Block}
      {reply : Option (NodeId × Nat × List Bool)} :
      newTail cfg fuel now s src tail = .ok (s', reply) → Step cfg s (.newTail src tail) s'
  | peerMsg {s s' : Decision C} {fuel : Nat} {src : NodeId} {content : Option VoteMsg} :
      handlePeerMsg cfg fuel s src content = .ok s' → Step cfg s (.peerMsg src content) s'
  | timeout {s s' : Decision C} {fuel : Nat} :
      s.voteTimeQueue ≠ [] → handleTimeout cfg fuel s = .ok s' → Step cfg s .timeout s'
  | commit {s s' : Decision C} {blkId : Nat} {txns : List AvalancheTxn} :
      s.commitQueue ≠ [] → nextToCommit s = .ok (s', blkId, txns) →
      Step cfg s (.commit blkId txns) s'

/-- The stage as a machine. -/
def stage (cfg : Config C) : Machine (Decision C) Call where
  start := Decision.new C
  step := Step cfg

/-- The runs of the stage, with nothing promised about the calls. -/
abbrev Run (cfg : Config C) (tr : List Call) (s : Decision C) : Prop :=
  (stage cfg).Run (fun _ _ => True) tr s

/-- The transactions a call emits. -/
def Call.emits : Call → List AvalancheTxn
  | commit _ txns => txns
  | _ => []

/-- What `next_to_commit` has emitted in a run. -/
def emitted (tr : List Call) : List AvalancheTxn :=
  tr.flatMap Call.emits

end Copycat.Avalanche
