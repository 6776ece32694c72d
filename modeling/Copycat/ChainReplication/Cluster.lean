import Copycat.Protocol
import Copycat.Bitcoin.Management
import Copycat.Lib.Machine

/-!
# Chain replication

The nodes of a replication order, with the stages of each node that handle
blocks:

- `ChainReplicationBlockManagement`
  (`src/stage/consensus/block_management/chain_replication.rs`) and the loop it
  runs in, which drops blocks it has seen and checks the transactions of the
  others in a task of their own, so that these may come out in another order;
- `LinearBlockDissemination` (`src/stage/consensus/block_dissemination/linear.rs`),
  whose thread sends a block to the successor and queues it for the decision
  stage afterwards;
- `ChainReplicationDecision` (`src/stage/consensus/decide/chain_replication.rs`).

Messages are in `net` from sending to receiving. They are received in any order,
and may be lost or duplicated. A step is one turn of one of the loops; a turn that
has to wait does not return. With the step go the events it is (`Event`), which
are what the results speak about.

Here a new tail always consists of one block, and the channels carry that block.
Block ids are natural numbers, the transactions any type. Whether the check of a
peer block succeeds is part of the step.
-/

namespace Copycat.ChainReplication

open Copycat.Lib
open Copycat.Bitcoin (CurBlockState)

variable {τ : Type}

/-- `ChainReplicationConfig`, and `get_size` of a transaction. -/
structure ChainReplicationConfig (τ : Type) where
  order : List NodeId
  blkSize : Nat
  getSize : τ → Nat

/-- A block with `BlockHeader::ChainReplication`. -/
structure Block (τ : Type) where
  blkId : Nat
  txns : List τ
deriving DecidableEq

/-- What nodes send each other: `MsgType::NewBlock`, and `Msg` of the decision
stage in a `MsgType::ConsensusMsg`. -/
inductive Msg (τ : Type) where
  | newBlock (src dst : NodeId) (blk : Block τ)
  | ack (src dst : NodeId) (recved : Nat)
deriving DecidableEq

/-! ## `ChainReplicationBlockManagement` -/

/-- The state of the stage; the other fields are constants of the node. -/
structure BlockManagement (τ : Type) where
  memPool : List τ
  nextBlkId : Nat
  currBatchLen : Nat
  currBatchSize : Nat

def BlockManagement.new : BlockManagement τ := ⟨[], 1, 0, 0⟩

/-- `is_head`. -/
def isHead (cfg : ChainReplicationConfig τ) (id : NodeId) : Bool := cfg.order.head? = some id

section Management

variable (cfg : ChainReplicationConfig τ) (id : NodeId)

/-- `record_new_txn`. -/
def recordNewTxn (s : BlockManagement τ) (txn : τ) : BlockManagement τ :=
  if isHead cfg id then { s with memPool := s.memPool ++ [txn] } else s

/-- The loop of `prepare_new_block`, over the transactions behind the batch. -/
def extendBatch : List τ → Nat × Nat → (Nat × Nat) × CurBlockState
  | rest, (currBatchLen, currBatchSize) =>
    if currBatchSize ≥ cfg.blkSize then ((currBatchLen, currBatchSize), .full)
    else match rest with
      | [] => ((currBatchLen, currBatchSize), .emptyMempool)
      | nextTxn :: rest =>
        extendBatch rest (currBatchLen + 1, currBatchSize + cfg.getSize nextTxn)

/-- `prepare_new_block`. -/
def prepareNewBlock (s : BlockManagement τ) : BlockManagement τ × CurBlockState :=
  if isHead cfg id then
    let r := extendBatch cfg (s.memPool.drop s.currBatchLen) (s.currBatchLen, s.currBatchSize)
    ({ s with currBatchLen := r.1.1, currBatchSize := r.1.2 }, r.2)
  else (s, .full)

/-- `wait_to_propose`. -/
def waitToPropose (s : BlockManagement τ) : Res Unit :=
  if isHead cfg id ∧ s.currBatchSize ≥ cfg.blkSize then .ok () else .error .diverge

/-- `get_new_block`. -/
def getNewBlock (s : BlockManagement τ) : Res (BlockManagement τ × Block τ) :=
  if isHead cfg id ∧ s.currBatchLen ≤ s.memPool.length then
    .ok (⟨s.memPool.drop s.currBatchLen, s.nextBlkId + 1, 0, 0⟩,
      ⟨s.nextBlkId, s.memPool.take s.currBatchLen⟩)
  else .error .panic

/-- `validate_block`. -/
def validateBlock (block : Block τ) : Res (List (Block τ)) :=
  if isHead cfg id then .error .panic else .ok [block]

/-! ## `LinearBlockDissemination` -/

/-- `LinearBlockDissemination`. -/
structure LinearBlockDissemination where
  prev : NodeId
  next : Option NodeId

/-- `LinearBlockDissemination::new`: the neighbours of the first place in the
order where the node stands. -/
def LinearBlockDissemination.new (me : NodeId) (repOrder : List NodeId) :
    Res LinearBlockDissemination :=
  let idx := repOrder.idxOf me
  unwrap (if idx = 0 then repOrder[0]? else repOrder[idx - 1]?) >>= fun prev =>
  if idx < repOrder.length then
    .ok ⟨prev, if idx = repOrder.length - 1 then none else repOrder[idx + 1]?⟩
  else .error .panic

/-- `disseminate`: the message sent. -/
def disseminate (src : NodeId) (blk : Block τ) : Res (List (Msg τ)) :=
  LinearBlockDissemination.new id cfg.order >>= fun stage =>
  if src ≠ stage.prev then .error .panic
  else match stage.next with
    | some next => .ok [.newBlock id next blk]
    | none => .ok []

end Management

/-! ## `ChainReplicationDecision` -/

/-- `Role`. -/
inductive Role where
  | head
  | intermediate
  | tail
deriving DecidableEq

/-- The role of a node. -/
def role (cfg : ChainReplicationConfig τ) (me : NodeId) : Role :=
  if cfg.order.head? = some me then .head
  else if cfg.order.getLast? = some me then .tail
  else .intermediate

/-- The state of the stage; the other fields are constants of the node. -/
structure Decision (τ : Type) where
  inflightBlks : Nat → Option (Block τ)
  commitReady : Finset Nat
  nextToCommit : Nat

def Decision.new : Decision τ := ⟨fun _ => none, ∅, 1⟩

section Decide

variable (cfg : ChainReplicationConfig τ) (me : NodeId)

/-- `new_tail`: the state, and the message the tail sends to the head. -/
def newTail (d : Decision τ) : List (Block τ) → Res (Decision τ × List (Msg τ))
  | [] => .ok (d, [])
  | [newBlk] =>
    match role cfg me with
    | .head =>
      .ok ({ d with inflightBlks := Function.update d.inflightBlks newBlk.blkId (some newBlk) }, [])
    | .tail =>
      unwrap cfg.order.head? >>= fun head => .ok (d, [.ack me head newBlk.blkId])
    | .intermediate => .ok (d, [])
  | _ => .error .panic

/-- `U256::as_u64`. -/
def asU64 (n : Nat) : Res Nat := if n < 2 ^ 64 then .ok n else .error .panic

/-- `commit_ready`. -/
def commitReady (d : Decision τ) : Res Unit :=
  if d.nextToCommit ∈ d.commitReady then .ok () else .error .diverge

/-- `next_to_commit`. -/
def nextToCommit (d : Decision τ) : Res (Decision τ × Nat × List τ) :=
  if d.nextToCommit ∈ d.commitReady then
    unwrap (d.inflightBlks d.nextToCommit) >>= fun blk =>
    asU64 d.nextToCommit >>= fun height =>
    .ok (⟨Function.update d.inflightBlks d.nextToCommit none, d.commitReady.erase d.nextToCommit,
      d.nextToCommit + 1⟩, height, blk.txns)
  else .error .panic

/-- `handle_peer_msg`. -/
def handlePeerMsg (d : Decision τ) (src : NodeId) (recved : Nat) : Res (Decision τ) :=
  if role cfg me = .head ∧ cfg.order.getLast? = some src then
    if (d.inflightBlks recved).isSome then
      .ok { d with commitReady := insert recved d.commitReady }
    else .ok d -- received block that is not inflight
  else .error .panic

end Decide

/-! ## Nodes and their messages -/

/-- The stages of a node with what is in transit between them: blocks whose check
is under way, checked blocks, new blocks, the one the dissemination stage has
sent and not queued yet, and those queued for the decision stage; each with the
node it came from, oldest first. -/
structure Replica (τ : Type) where
  mgmt : BlockManagement τ
  blksSeen : Finset Nat
  checking : List (NodeId × Block τ)
  pendingBlk : List (NodeId × Block τ)
  newBlock : List (NodeId × Block τ)
  sent : Option (NodeId × Block τ)
  blockReady : List (NodeId × Block τ)
  decision : Decision τ

def Replica.new : Replica τ := ⟨.new, ∅, [], [], [], none, [], .new⟩

/-- All nodes, and the messages on their way. -/
structure Cluster (τ : Type) where
  replicas : NodeId → Replica τ
  net : List (Msg τ)

def Cluster.new : Cluster τ := ⟨fun _ => .new, []⟩

/-- A node in a new state, and new messages. -/
def Cluster.set (s : Cluster τ) (n : NodeId) (r : Replica τ) (msgs : List (Msg τ)) : Cluster τ :=
  ⟨Function.update s.replicas n r, s.net ++ msgs⟩

/-- What happens. -/
inductive Event (τ : Type) where
  | recorded (n : NodeId) (txn : τ)
  | made (n : NodeId) (blk : Block τ)
  | validated (n : NodeId) (blk : Block τ)
  | disseminated (n : NodeId) (blk : Block τ)
  | tailed (n : NodeId) (blk : Block τ)
  | committed (n : NodeId) (height : Nat) (txns : List τ)
deriving DecidableEq

/-- The turns of the loops of node `n`, and what the network does to the message at
place `i`. -/
inductive Act (τ : Type) where
  -- `block_management_thread`
  | recordNewTxn (n : NodeId) (txn : τ)
  | prepareNewBlock (n : NodeId)
  | getNewBlock (n : NodeId)
  | recvBlock (i : Nat)
  | checked (n : NodeId) (i : Nat) (valid : Bool)
  | validateBlock (n : NodeId)
  -- `block_dissemination_thread`
  | disseminate (n : NodeId)
  | queue (n : NodeId)
  -- `decision_thread`
  | newTail (n : NodeId)
  | recvAck (i : Nat)
  | commit (n : NodeId)
  -- the network
  | lose (i : Nat)
  | duplicate (i : Nat)

/-- One turn. -/
def act (cfg : ChainReplicationConfig τ) (s : Cluster τ) :
    Act τ → Res (Cluster τ × List (Event τ))
  | .recordNewTxn n txn =>
    let r := s.replicas n
    .ok (s.set n { r with mgmt := recordNewTxn cfg n r.mgmt txn } [], [.recorded n txn])
  | .prepareNewBlock n =>
    let r := s.replicas n
    .ok (s.set n { r with mgmt := (prepareNewBlock cfg n r.mgmt).1 } [], [])
  | .getNewBlock n =>
    let r := s.replicas n
    waitToPropose cfg n r.mgmt >>= fun _ =>
    getNewBlock cfg n r.mgmt >>= fun (mgmt, newBlk) =>
    .ok (s.set n { r with
      mgmt := mgmt
      blksSeen := insert newBlk.blkId r.blksSeen
      newBlock := r.newBlock ++ [(n, newBlk)] } [], [.made n newBlk])
  | .recvBlock i =>
    match s.net[i]? with
    | some (.newBlock src dst blk) =>
      let r := s.replicas dst
      let s := { s with net := s.net.eraseIdx i }
      -- ignore blocks proposed by myself, and blocks seen before
      if src = dst ∨ blk.blkId ∈ r.blksSeen then .ok (s, [])
      else
        .ok (s.set dst { r with
          blksSeen := insert blk.blkId r.blksSeen
          checking := r.checking ++ [(src, blk)] } [], [])
    | _ => .error .diverge
  | .checked n i valid =>
    let r := s.replicas n
    match r.checking[i]? with
    | some m =>
      .ok (s.set n { r with
        checking := r.checking.eraseIdx i
        pendingBlk := if valid then r.pendingBlk ++ [m] else r.pendingBlk } [], [])
    | none => .error .diverge
  | .validateBlock n =>
    let r := s.replicas n
    match r.pendingBlk with
    | [] => .error .diverge
    | (src, blk) :: rest =>
      validateBlock cfg n blk >>= fun newTail =>
      .ok (s.set n { r with
        pendingBlk := rest
        newBlock := r.newBlock ++ newTail.map fun blk => (src, blk) } [], [.validated n blk])
  | .disseminate n =>
    let r := s.replicas n
    match r.sent, r.newBlock with
    | none, (src, blk) :: rest =>
      disseminate cfg n src blk >>= fun msgs =>
      .ok (s.set n { r with newBlock := rest, sent := some (src, blk) } msgs,
        [.disseminated n blk])
    | _, _ => .error .diverge
  | .queue n =>
    let r := s.replicas n
    match r.sent with
    | none => .error .diverge
    | some m => .ok (s.set n { r with sent := none, blockReady := r.blockReady ++ [m] } [], [])
  | .newTail n =>
    let r := s.replicas n
    match r.blockReady with
    | [] => .error .diverge
    | (_, blk) :: rest =>
      newTail cfg n r.decision [blk] >>= fun (d, msgs) =>
      .ok (s.set n { r with blockReady := rest, decision := d } msgs, [.tailed n blk])
  | .recvAck i =>
    match s.net[i]? with
    | some (.ack src dst recved) =>
      let r := s.replicas dst
      let s := { s with net := s.net.eraseIdx i }
      handlePeerMsg cfg dst r.decision src recved >>= fun d =>
      .ok (s.set dst { r with decision := d } [], [])
    | _ => .error .diverge
  | .commit n =>
    let r := s.replicas n
    commitReady r.decision >>= fun _ =>
    nextToCommit r.decision >>= fun (d, height, txns) =>
    .ok (s.set n { r with decision := d } [], [.committed n height txns])
  | .lose i =>
    match s.net[i]? with
    | some _ => .ok ({ s with net := s.net.eraseIdx i }, [])
    | none => .error .diverge
  | .duplicate i =>
    match s.net[i]? with
    | some msg => .ok ({ s with net := s.net ++ [msg] }, [])
    | none => .error .diverge

/-- What a turn that returns has done. -/
inductive Turn (cfg : ChainReplicationConfig τ) (s : Cluster τ) :
    Act τ → Cluster τ → List (Event τ) → Prop
  | record (n : NodeId) (txn : τ) :
      Turn cfg s (.recordNewTxn n txn)
        (s.set n { s.replicas n with mgmt := recordNewTxn cfg n (s.replicas n).mgmt txn } [])
        [.recorded n txn]
  | prepare (n : NodeId) :
      Turn cfg s (.prepareNewBlock n)
        (s.set n { s.replicas n with mgmt := (prepareNewBlock cfg n (s.replicas n).mgmt).1 } []) []
  | make {n : NodeId} {mgmt : BlockManagement τ} {blk : Block τ} :
      waitToPropose cfg n (s.replicas n).mgmt = .ok () →
      getNewBlock cfg n (s.replicas n).mgmt = .ok (mgmt, blk) →
      Turn cfg s (.getNewBlock n)
        (s.set n { s.replicas n with
          mgmt := mgmt
          blksSeen := insert blk.blkId (s.replicas n).blksSeen
          newBlock := (s.replicas n).newBlock ++ [(n, blk)] } []) [.made n blk]
  | ignore {i : Nat} {src dst : NodeId} {blk : Block τ} :
      s.net[i]? = some (.newBlock src dst blk) →
      src = dst ∨ blk.blkId ∈ (s.replicas dst).blksSeen →
      Turn cfg s (.recvBlock i) { s with net := s.net.eraseIdx i } []
  | arrive {i : Nat} {src dst : NodeId} {blk : Block τ} :
      s.net[i]? = some (.newBlock src dst blk) →
      ¬ (src = dst ∨ blk.blkId ∈ (s.replicas dst).blksSeen) →
      Turn cfg s (.recvBlock i)
        (({ s with net := s.net.eraseIdx i } : Cluster τ).set dst { s.replicas dst with
          blksSeen := insert blk.blkId (s.replicas dst).blksSeen
          checking := (s.replicas dst).checking ++ [(src, blk)] } []) []
  | check {n : NodeId} {i : Nat} {valid : Bool} {m : NodeId × Block τ} :
      (s.replicas n).checking[i]? = some m →
      Turn cfg s (.checked n i valid)
        (s.set n { s.replicas n with
          checking := (s.replicas n).checking.eraseIdx i
          pendingBlk := if valid then (s.replicas n).pendingBlk ++ [m]
            else (s.replicas n).pendingBlk } []) []
  | validate {n src : NodeId} {blk : Block τ} {rest : List (NodeId × Block τ)} :
      (s.replicas n).pendingBlk = (src, blk) :: rest → ¬ isHead cfg n →
      Turn cfg s (.validateBlock n)
        (s.set n { s.replicas n with
          pendingBlk := rest
          newBlock := (s.replicas n).newBlock ++ [(src, blk)] } []) [.validated n blk]
  | disseminate {n src : NodeId} {blk : Block τ} {rest : List (NodeId × Block τ)}
      {msgs : List (Msg τ)} :
      (s.replicas n).sent = none → (s.replicas n).newBlock = (src, blk) :: rest →
      disseminate cfg n src blk = .ok msgs →
      Turn cfg s (.disseminate n)
        (s.set n { s.replicas n with newBlock := rest, sent := some (src, blk) } msgs)
        [.disseminated n blk]
  | queue {n : NodeId} {m : NodeId × Block τ} :
      (s.replicas n).sent = some m →
      Turn cfg s (.queue n)
        (s.set n { s.replicas n with
          sent := none
          blockReady := (s.replicas n).blockReady ++ [m] } []) []
  | newTail {n src : NodeId} {blk : Block τ} {rest : List (NodeId × Block τ)} {d : Decision τ}
      {msgs : List (Msg τ)} :
      (s.replicas n).blockReady = (src, blk) :: rest →
      newTail cfg n (s.replicas n).decision [blk] = .ok (d, msgs) →
      Turn cfg s (.newTail n)
        (s.set n { s.replicas n with blockReady := rest, decision := d } msgs) [.tailed n blk]
  | ack {i : Nat} {src dst : NodeId} {recved : Nat} {d : Decision τ} :
      s.net[i]? = some (.ack src dst recved) →
      handlePeerMsg cfg dst (s.replicas dst).decision src recved = .ok d →
      Turn cfg s (.recvAck i)
        (({ s with net := s.net.eraseIdx i } : Cluster τ).set dst
          { s.replicas dst with decision := d } []) []
  | commit {n : NodeId} {d : Decision τ} {height : Nat} {txns : List τ} :
      nextToCommit (s.replicas n).decision = .ok (d, height, txns) →
      Turn cfg s (.commit n) (s.set n { s.replicas n with decision := d } [])
        [.committed n height txns]
  | lose {i : Nat} {msg : Msg τ} : s.net[i]? = some msg →
      Turn cfg s (.lose i) { s with net := s.net.eraseIdx i } []
  | duplicate {i : Nat} {msg : Msg τ} : s.net[i]? = some msg →
      Turn cfg s (.duplicate i) { s with net := s.net ++ [msg] } []

theorem act_turn {cfg : ChainReplicationConfig τ} {s s' : Cluster τ} {a : Act τ}
    {evs : List (Event τ)} (h : act cfg s a = .ok (s', evs)) : Turn cfg s a s' evs := by
  have hinj : ∀ {x : Cluster τ × List (Event τ)}, Except.ok x = act cfg s a → x = (s', evs) :=
    fun hx => Except.ok.inj (hx.trans h)
  cases a with
  | recordNewTxn n txn =>
    obtain ⟨rfl, rfl⟩ := Prod.mk.inj (hinj rfl)
    exact .record n txn
  | prepareNewBlock n =>
    obtain ⟨rfl, rfl⟩ := Prod.mk.inj (hinj rfl)
    exact .prepare n
  | getNewBlock n =>
    obtain ⟨_, hwait, h⟩ := bind_eq_ok.mp h
    obtain ⟨⟨mgmt, blk⟩, hblk, h⟩ := bind_eq_ok.mp h
    obtain ⟨rfl, rfl⟩ := Prod.mk.inj (Except.ok.inj h)
    exact .make hwait hblk
  | recvBlock i =>
    rw [act] at h
    split at h
    · rename_i src dst blk hmsg
      dsimp only at h
      split at h
      · rename_i hseen
        obtain ⟨rfl, rfl⟩ := Prod.mk.inj (Except.ok.inj h)
        exact .ignore hmsg hseen
      · rename_i hnew
        obtain ⟨rfl, rfl⟩ := Prod.mk.inj (Except.ok.inj h)
        exact .arrive hmsg hnew
    · exact absurd h (by simp)
  | checked n i valid =>
    rw [act] at h
    split at h
    · rename_i m hm
      obtain ⟨rfl, rfl⟩ := Prod.mk.inj (Except.ok.inj h)
      exact .check hm
    · exact absurd h (by simp)
  | validateBlock n =>
    rw [act] at h
    split at h
    · exact absurd h (by simp)
    · rename_i src blk rest hpending
      obtain ⟨tail, htail, h⟩ := bind_eq_ok.mp h
      unfold validateBlock at htail
      split at htail
      · exact absurd htail (by simp)
      · rename_i hhead
        rw [← Except.ok.inj htail] at h
        obtain ⟨rfl, rfl⟩ := Prod.mk.inj (Except.ok.inj h)
        exact .validate hpending hhead
  | disseminate n =>
    rw [act] at h
    split at h
    · rename_i src blk rest hsent hnew
      obtain ⟨msgs, hmsgs, h⟩ := bind_eq_ok.mp h
      obtain ⟨rfl, rfl⟩ := Prod.mk.inj (Except.ok.inj h)
      exact .disseminate hsent hnew hmsgs
    · exact absurd h (by simp)
  | queue n =>
    rw [act] at h
    split at h
    · exact absurd h (by simp)
    · rename_i m hsent
      obtain ⟨rfl, rfl⟩ := Prod.mk.inj (Except.ok.inj h)
      exact .queue hsent
  | newTail n =>
    rw [act] at h
    dsimp only at h
    split at h
    · exact absurd h (by simp)
    · rename_i src blk rest hready
      obtain ⟨⟨d, msgs⟩, hd, h⟩ := bind_eq_ok.mp h
      obtain ⟨rfl, rfl⟩ := Prod.mk.inj (Except.ok.inj h)
      exact .newTail hready hd
  | recvAck i =>
    rw [act] at h
    split at h
    · rename_i src dst recved hmsg
      obtain ⟨d, hd, h⟩ := bind_eq_ok.mp h
      obtain ⟨rfl, rfl⟩ := Prod.mk.inj (Except.ok.inj h)
      exact .ack hmsg hd
    · exact absurd h (by simp)
  | commit n =>
    obtain ⟨_, -, h⟩ := bind_eq_ok.mp h
    obtain ⟨⟨d, height, txns⟩, hd, h⟩ := bind_eq_ok.mp h
    obtain ⟨rfl, rfl⟩ := Prod.mk.inj (Except.ok.inj h)
    exact .commit hd
  | lose i =>
    rw [act] at h
    split at h
    · rename_i msg hmsg
      obtain ⟨rfl, rfl⟩ := Prod.mk.inj (Except.ok.inj h)
      exact .lose hmsg
    · exact absurd h (by simp)
  | duplicate i =>
    rw [act] at h
    split at h
    · rename_i msg hmsg
      obtain ⟨rfl, rfl⟩ := Prod.mk.inj (Except.ok.inj h)
      exact .duplicate hmsg
    · exact absurd h (by simp)

/-- The node whose turn it is: it stands in the order, as its dissemination stage
could not be made otherwise. -/
def Act.node : Act τ → Option NodeId
  | recordNewTxn n _ | prepareNewBlock n | getNewBlock n | checked n _ _ | validateBlock n
  | disseminate n | queue n | newTail n | commit n => some n
  | recvBlock _ | recvAck _ | lose _ | duplicate _ => none

/-- The nodes as a machine; the label is a turn with its events. -/
def cluster (cfg : ChainReplicationConfig τ) : Machine (Cluster τ) (Act τ × List (Event τ)) where
  start := .new
  step s l s' := (∀ n, l.1.node = some n → n ∈ cfg.order) ∧ act cfg s l.1 = .ok (s', l.2)

/-- The events of a run. -/
def events (tr : List (Act τ × List (Event τ))) : List (Event τ) := tr.flatMap Prod.snd

/-! ## `ChainReplicationFlowGen` -/

/-- `txn_committed`, with the number of blocks of each node; what is measured is
left out. -/
def txnCommitted (numBlks : NodeId → Nat) (node : NodeId) (blkHeight : Nat) :
    Res (NodeId → Nat) :=
  if blkHeight = numBlks node + 1 then
    .ok (Function.update numBlks node (numBlks node + 1))
  else .error .panic

end Copycat.ChainReplication
