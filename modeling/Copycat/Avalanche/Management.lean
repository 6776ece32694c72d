import Copycat.Avalanche.Decision
import Copycat.Avalanche.TxnValidation
import Copycat.Bitcoin.Management

/-!
# `AvalancheBlockManagement`

The block-management stage of an Avalanche node
(`src/stage/consensus/block_management/avalanche/basic.rs`): the pool of the
transactions it knows, the DAG of those it has not proposed yet, the batch under
construction, and the peer blocks it has parked until their missing
transactions arrive. The definitions follow the source function by function.

Time is left out (`next_propose_time`, `proposal_timeout`), and so are the
counters that are only reported. A transaction context holds nothing but the
transaction's id, which is computed where the source reads it, so the second
of the three vectors in `pending_blks` is not kept. Sending is modelled by what
is sent: a request is part of the result of `validateBlock`, a reply is the
result of `handlePeerBlkReq`. `usize` is 64 bits wide, and counters wrap.
-/

namespace Copycat.Avalanche

open Copycat.Lib
open Copycat.Bitcoin (CurBlockState)

/-- `DagNode` of this stage. -/
structure ProposalNode where
  numParents : UInt64
  children : Finset Hash
deriving DecidableEq

/-- `PeerReq`. -/
structure PeerReq where
  proposer : NodeId
  blkId : Nat
  depth : Nat
  depSet : List Hash
deriving DecidableEq, Repr

/-- An entry of `pending_blks`: the transactions of a parked block, and the
positions that are to be rechecked. -/
structure ParkedBlk where
  txns : List AvalancheTxn
  recheckIdx : List Nat
deriving DecidableEq, Repr

/-- `txn_pool` and `txn_dag`. -/
structure ProposalDag where
  txnPool : Hash → Option AvalancheTxn
  txnDag : Hash → Option ProposalNode

/-- `AvalancheBlockManagement`. -/
structure BlockManagement extends ProposalDag where
  dagFrontier : List Hash
  blkCounter : Nat
  currBatch : List Hash
  pendingBlks : NodeId × Nat × Nat → Option ParkedBlk
  blkQuota : Nat

/-- The constants of a node. -/
structure StageConfig where
  self : NodeId
  blkLen : Nat

namespace BlockManagement

/-- `AvalancheBlockManagement::new`. -/
def new : BlockManagement where
  txnPool := fun _ => none
  txnDag := fun _ => none
  dagFrontier := []
  blkCounter := 0
  currBatch := []
  pendingBlks := fun _ => none
  blkQuota := 0

/-- `validate_txn`; the inner error is the list of missing parents. -/
def validateTxn (txnPool : Hash → Option AvalancheTxn) :
    AvalancheTxn → Res (Except (List Hash) Bool)
  | .send txnSender txnInUtxo _ txnOutUtxo txnRemainder _ =>
    let missingDeps := txnInUtxo.filter (fun h => (txnPool h).isNone)
    if missingDeps.length > 0 then
      -- we cannot reject the txn since the source utxo may not been received yet
      .ok (.error missingDeps)
    else
      AvalancheTxn.parentsValue txnSender (txnInUtxo.filterMap txnPool) 0 >>= fun inputValue =>
      .ok (.ok (inputValue = some (txnOutUtxo + txnRemainder)))
  | .grant .. | .noop _ => .ok (.ok true)
  | .placeHolder => .error .panic

/-! ## The proposal DAG -/

/-- The loop that makes a transaction a child of its parents in the DAG, and
counts these. -/
def linkParents (txnHash : Hash) (txnDag : Hash → Option ProposalNode) (parents : List Hash) :
    (Hash → Option ProposalNode) × UInt64 :=
  parents.foldl
    (fun acc parent =>
      match acc.1 parent with
      | some node =>
        (Function.update acc.1 parent
          (some { node with children := insert txnHash node.children }), acc.2 + 1)
      | none => acc)
    (txnDag, 0)

/-- `record_new_txn`. -/
def recordNewTxn (ids : UniqueIds) (s : BlockManagement) (txn : AvalancheTxn) :
    Res (BlockManagement × Bool) :=
  let txnHash := ids.txnId txn
  -- ignore duplicates
  if (s.txnPool txnHash).isSome then .ok (s, false)
  else
    match txn with
    | .noop _ | .placeHolder => .error .panic -- since Noops are generated by nodes only
    | _ =>
      let linked := linkParents txnHash s.txnDag txn.parents
      .ok ({ s with
              txnPool := Function.update s.txnPool txnHash (some txn)
              txnDag := Function.update linked.1 txnHash
                (some ⟨UInt64.ofNat txn.parents.length, ∅⟩)
              dagFrontier :=
                if linked.2 = 0 then s.dagFrontier ++ [txnHash] else s.dagFrontier }, true)

/-- Take a proposed transaction off the parents of one of its children, which is
free once it has none left. -/
def releaseChild (acc : (Hash → Option ProposalNode) × List Hash) (child : Hash) :
    (Hash → Option ProposalNode) × List Hash :=
  match acc.1 child with
  | none => acc
  | some node =>
    let node := { node with numParents := node.numParents - 1 }
    (Function.update acc.1 child (some node),
      if node.numParents = 0 then acc.2 ++ [child] else acc.2)

/-- `prepare_new_block`. -/
def prepareNewBlock (blkLen : Nat) (ord : HashOrder) :
    Nat → BlockManagement → Res (BlockManagement × CurBlockState)
  | 0, _ => .error .diverge
  | fuel + 1, s =>
    if s.currBatch.length ≥ blkLen then .ok (s, .full)
    else match s.dagFrontier with
      | [] => .ok (s, .emptyMempool)
      | nextTxn :: rest =>
        match s.txnDag nextTxn with
        | none => prepareNewBlock blkLen ord fuel { s with dagFrontier := rest }
        | some node =>
          let released := (ord.iter node.children).foldl releaseChild
            (Function.update s.txnDag nextTxn none, rest)
          prepareNewBlock blkLen ord fuel { s with
            txnDag := released.1
            dagFrontier := released.2
            currBatch := s.currBatch ++ [nextTxn] }

/-- `get_new_block`. -/
def getNewBlock (self : NodeId) (s : BlockManagement) : Res (BlockManagement × Block) :=
  if s.blkQuota > 0 then
    unwrap (s.currBatch.mapM s.txnPool) >>= fun txns =>
    .ok ({ s with
            currBatch := []
            blkCounter := s.blkCounter + 1
            blkQuota := s.blkQuota - 1 }, ⟨self, s.blkCounter, 0, txns⟩)
  else .error .panic

/-- `handle_pmaker_msg`. -/
def handlePmakerMsg (s : BlockManagement) : BlockManagement :=
  { s with blkQuota := s.blkQuota + 1 }

/-! ## Block validation -/

/-- Add a transaction to the pool and to the DAG, and to `pending_frontier` if
it has no parent there. -/
def addTxn (ids : UniqueIds) (m : ProposalDag × List Hash) (txn : AvalancheTxn) :
    ProposalDag × List Hash :=
  let txnHash := ids.txnId txn
  let linked := linkParents txnHash m.1.txnDag txn.parents
  (⟨Function.update m.1.txnPool txnHash (some txn),
    Function.update linked.1 txnHash (some ⟨linked.2, ∅⟩)⟩,
    if linked.2 = 0 then m.2 ++ [txnHash] else m.2)

/-- What the loop of `validate_block` over the transactions carries along: the
pool and the DAG with `pending_frontier`, `filtered_txns`, `blk_missing_deps`
and `recheck_txn_idx`. -/
structure Filtered where
  dag : ProposalDag × List Hash
  txns : List AvalancheTxn
  missingDeps : List Hash
  recheckIdx : List Nat

/-- The loop body. -/
def filterTxn (ids : UniqueIds) (f : Filtered) (x : AvalancheTxn × Nat) : Res Filtered :=
  let txn := x.1
  let txnHash := ids.txnId txn
  if (f.dag.1.txnPool txnHash).isSome then
    -- txn has been validated before
    let frontier :=
      match f.dag.1.txnDag txnHash with
      | some node => if node.numParents = 0 then f.dag.2 ++ [txnHash] else f.dag.2
      | none => f.dag.2
    .ok { f with dag := (f.dag.1, frontier), txns := f.txns ++ [txn] }
  else match txn with
    -- noops are just used to drive consensus, placeholders are kept as they are
    | .noop _ | .placeHolder => .ok { f with txns := f.txns ++ [txn] }
    | .grant .. => .ok { f with dag := addTxn ids f.dag txn, txns := f.txns ++ [txn] }
    | .send .. =>
      validateTxn f.dag.1.txnPool txn >>= fun res =>
      match res with
      | .ok true => .ok { f with dag := addTxn ids f.dag txn, txns := f.txns ++ [txn] }
      | .ok false => .ok { f with txns := f.txns ++ [.placeHolder] }
      | .error txnMissingDeps =>
        .ok { f with
          txns := f.txns ++ [txn]
          missingDeps := f.missingDeps ++ txnMissingDeps
          recheckIdx := f.recheckIdx ++ [x.2] }

/-- Validate one transaction of a parked block that had missing dependencies;
by now the peer has been asked for them. -/
def recheckTxn (ids : UniqueIds) (acc : (ProposalDag × List Hash) × List AvalancheTxn)
    (idx : Nat) : Res ((ProposalDag × List Hash) × List AvalancheTxn) :=
  unwrap acc.2[idx]? >>= fun txn =>
  if (acc.1.1.txnPool (ids.txnId txn)).isSome then .ok acc
  else match txn with
    | .send .. =>
      validateTxn acc.1.1.txnPool txn >>= fun res =>
      match res with
      | .ok true => .ok (addTxn ids acc.1 txn, acc.2)
      | .ok false | .error _ => .ok (acc.1, acc.2.set idx .placeHolder)
    | _ => .ok acc

/-- The loop of `validate_block` over the smaller depths: recheck what is parked
there. The result is `none` if nothing is, which is the early return on a block
nobody asked for. -/
def recheckBlks (ids : UniqueIds) (proposer blkId : Nat) :
    Nat → ProposalDag × List Hash → (NodeId × Nat × Nat → Option ParkedBlk) → List AvalancheTxn →
      Res ((ProposalDag × List Hash) × (NodeId × Nat × Nat → Option ParkedBlk) ×
        Option (List AvalancheTxn))
  | 0, dag, pendingBlks, filteredTxns => .ok (dag, pendingBlks, some filteredTxns)
  | currDepth + 1, dag, pendingBlks, filteredTxns =>
    match pendingBlks (proposer, blkId, currDepth) with
    | none => .ok (dag, pendingBlks, none)
    | some parked =>
      parked.recheckIdx.foldlM (recheckTxn ids) (dag, parked.txns) >>= fun (dag, currTxns) =>
      recheckBlks ids proposer blkId currDepth dag
        (Function.update pendingBlks (proposer, blkId, currDepth) none)
        -- depth 0 is the block the peer actually asked for voting
        (if currDepth = 0 then currTxns else filteredTxns)

/-- What `validate_block` hands back: the state, the blocks it emits, and the
request it sends to the proposer. -/
structure Validated where
  state : BlockManagement
  newTail : List Block
  req : Option PeerReq

/-- `validate_block`. -/
def validateBlock (ids : UniqueIds) (s : BlockManagement) (block : Block) : Res Validated :=
  block.txns.zipIdx.foldlM (filterTxn ids) ⟨(s.toProposalDag, []), [], [], []⟩ >>= fun f =>
  if f.missingDeps.length > 0 then
    .ok
      { state := { s with
          toProposalDag := f.dag.1
          dagFrontier := f.dag.2 ++ s.dagFrontier
          pendingBlks := Function.update s.pendingBlks (block.proposer, block.id, block.depth)
            (some ⟨f.txns, f.recheckIdx⟩) }
        newTail := []
        req := some ⟨block.proposer, block.id, block.depth, f.missingDeps⟩ }
  else
    recheckBlks ids block.proposer block.id block.depth f.dag s.pendingBlks f.txns
      >>= fun (dag, pendingBlks, filteredTxns) =>
    match filteredTxns with
    | none => .ok ⟨{ s with toProposalDag := dag.1, pendingBlks := pendingBlks }, [], none⟩
    | some filteredTxns =>
      .ok
        { state := { s with
            toProposalDag := dag.1
            -- so that txns from peers will be voted early
            dagFrontier := dag.2 ++ s.dagFrontier
            pendingBlks := pendingBlks }
          newTail := [⟨block.proposer, block.id, 0, filteredTxns⟩]
          req := none }

/-- `handle_peer_blk_req`: the block sent in reply. Hashes that are not in the
pool are ignored. -/
def handlePeerBlkReq (s : BlockManagement) (peerReq : PeerReq) : Block where
  proposer := peerReq.proposer
  id := peerReq.blkId
  depth := peerReq.depth + 1
  txns := peerReq.depSet.filterMap s.txnPool

/-! ## Runs -/

/-- The calls of `block_management_thread` that change the state. -/
inductive Act where
  | recordNewTxn (txn : AvalancheTxn)
  | prepareNewBlock
  | getNewBlock
  | handlePmakerMsg
  | validateBlock (block : Block)

/-- A call, with the blocks of peers it emits. -/
def act (ids : UniqueIds) (cfg : StageConfig) (ord : HashOrder) (fuel : Nat)
    (s : BlockManagement) : Act → Res (BlockManagement × List Block)
  | .recordNewTxn txn => recordNewTxn ids s txn >>= fun r => .ok (r.1, [])
  | .prepareNewBlock => prepareNewBlock cfg.blkLen ord fuel s >>= fun r => .ok (r.1, [])
  | .getNewBlock => getNewBlock cfg.self s >>= fun r => .ok (r.1, [])
  | .handlePmakerMsg => .ok (handlePmakerMsg s, [])
  | .validateBlock block => validateBlock ids s block >>= fun v => .ok (v.state, v.newTail)

/-- The stage as a machine; the label is a call and the blocks it emits. -/
def stage (ids : UniqueIds) (cfg : StageConfig) : Machine BlockManagement (Act × List Block) where
  start := new
  step s l s' := ∃ ord fuel, act ids cfg ord fuel s l.1 = .ok (s', l.2)

end BlockManagement

end Copycat.Avalanche
