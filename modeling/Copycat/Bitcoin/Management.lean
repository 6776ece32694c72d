import Copycat.Lib.Delta
import Copycat.Lib.Machine
import Copycat.Protocol

/-!
# `BitcoinBlockManagement`

The block-management stage of a Bitcoin node
(`src/stage/consensus/block_management/bitcoin/basic.rs`): the mempool, the
block under construction, the pool of every block ever seen with its height,
the orphans waiting for an ancestor, and the UTXO set of the chain the node is
on. The definitions follow the source function by function.

What is left out is time: script runtimes, hashing delays and the proof-of-work
timer change when a call returns. `prepare_new_block` and the loop that redoes
blocks add up script runtimes, and a sum too long for a `Duration` panics there;
that panic is left out with the runtimes. Of `pow_time` only its being set is
kept, because `prepare_new_block` reads that. The network
message sent for a missing ancestor is part of the result of `validateBlock`.
A call that fails in the middle (`?` on a broken channel) leaves the state as
it is at that point, which is the state `validateBlock` returns.
-/

namespace Copycat.Bitcoin

open Copycat.Lib

/-- `block_pool` and `orphan_blocks`: the part of the state that
`update_orphans_and_return_tail` works on. A pooled block comes with its
height, `0` while an ancestor is missing. -/
structure Pools where
  blockPool : Hash → Option (Block × Nat)
  orphanBlocks : Hash → Option (Finset Hash)

/-- `BitcoinBlockManagement`. -/
structure BlockManagement extends Pools where
  txnPool : Hash → Option BitcoinTxn
  utxo : Finset Utxo
  chainTail : Hash
  pendingTxns : List Hash
  blockUnderConstruction : List Hash
  merkleRoot : Option Hash
  blockSize : Nat
  newUtxo : Finset Utxo
  utxoSpent : Finset Utxo
  powTime : Bool

/-- `CurBlockState`. -/
inductive CurBlockState where
  | working
  | full
  | emptyMempool
deriving DecidableEq, Repr

/-- `BitcoinBlockManagement::new`. -/
def BlockManagement.new : BlockManagement where
  blockPool := fun _ => none
  orphanBlocks := fun _ => none
  txnPool := fun _ => none
  utxo := ∅
  chainTail := 0
  pendingTxns := []
  blockUnderConstruction := []
  merkleRoot := none
  blockSize := 0
  newUtxo := ∅
  utxoSpent := ∅
  powTime := false

/-- `get_chain_length`. -/
def getChainLength (s : BlockManagement) : Res Nat :=
  if s.chainTail = 0 then .ok 0
  else match s.blockPool s.chainTail with
    | some (_, height) => .ok height
    | none => .error .panic

/-- `update_orphans_and_return_tail`: give the waiting descendants of
`blockHash` their heights and return the deepest one. -/
def updateOrphansAndReturnTail (ord : HashOrder) :
    Nat → Pools → Hash → Nat → Res (Pools × Hash × Nat)
  | 0, _, _, _ => .error .diverge
  | fuel + 1, s, blockHash, height =>
    match s.orphanBlocks blockHash with
    | none => .ok (s, blockHash, height)
    | some children =>
      (ord.iter children).foldlM
        (fun (acc : Pools × Hash × Nat) child =>
          match acc.1.blockPool child with
          | none => .error .panic
          | some (block, _) =>
            (updateOrphansAndReturnTail ord fuel
              { acc.1 with
                blockPool := Function.update acc.1.blockPool child (some (block, height + 1)) }
              child (height + 1)) >>= fun r =>
            .ok (if r.2.2 > acc.2.2 then r else (r.1, acc.2)))
        ({ s with orphanBlocks := Function.update s.orphanBlocks blockHash none },
          blockHash, height)

/-! ## Transactions and block building -/

/-- The input loop of `validate_txn`: `none` is its early `return Ok(false)`. -/
def inputValue (txnPool : Hash → Option BitcoinTxn) (sender : PubKey) :
    List Hash → UInt64 → Option UInt64
  | [], value => some value
  | h :: hs, value =>
    match txnPool h with
    | none => none
    | some utxo =>
      match utxo.ownedValue sender with
      | none => none
      | some v => inputValue txnPool sender hs (value + v)

/-- `validate_txn`. -/
def validateTxn (txnPool : Hash → Option BitcoinTxn) : BitcoinTxn → Res Bool
  | .send t => .ok (inputValue txnPool t.sender t.inUtxo 0 = some (t.outUtxo + t.remainder))
  | .grant .. => .ok true
  | .incentive .. => .error .panic

/-- `record_new_txn`. -/
def recordNewTxn (ids : IdScheme) (s : BlockManagement) (txn : BitcoinTxn) :
    BlockManagement × Bool :=
  let txnHash := ids.txnId txn
  if (s.txnPool txnHash).isSome then (s, false)
  else
    ({ s with
        txnPool := Function.update s.txnPool txnHash (some txn)
        pendingTxns := s.pendingTxns ++ [txnHash] }, true)

/-- Whether `prepare_new_block` finds an input spendable. -/
def BlockManagement.spendable (s : BlockManagement) (k : Utxo) : Bool :=
  (k ∈ s.utxo || k ∈ s.newUtxo) && !(k ∈ s.utxoSpent)

/-- Whether `prepare_new_block` puts a transaction in the block: every input
spendable, all of them looked at before any is marked, and the script
succeeds. -/
def BlockManagement.includable (s : BlockManagement) (txn : BitcoinTxn) : Bool :=
  txn.inputs.all s.spendable && txn.scriptOk

/-- Put a transaction in the block under construction. -/
def includeTxn (enumSize : Nat) (s : BlockManagement) (txnHash : Hash) (txn : BitcoinTxn) :
    BlockManagement :=
  { s with
    blockUnderConstruction := s.blockUnderConstruction ++ [txnHash]
    utxoSpent := s.utxoSpent ∪ txn.inputs.toFinset
    newUtxo := s.newUtxo ∪ (txn.outputs txnHash).toFinset
    blockSize := (s.blockSize + txn.getSize enumSize) % 2 ^ 64 }

/-- The loop of `prepare_new_block`; the flag is the source's `modified`. -/
def prepareLoop (enumSize : Nat) :
    Nat → BlockManagement → Bool → Res (BlockManagement × CurBlockState × Bool)
  | 0, _, _ => .error .diverge
  | fuel + 1, s, modified =>
    if s.blockSize > 0x100000 then .ok (s, .full, modified)
    else match s.pendingTxns with
      | [] => .ok (s, .emptyMempool, modified)
      | txnHash :: rest =>
        match s.txnPool txnHash with
        | none => .error .panic
        | some (.incentive ..) => .error .panic
        | some txn =>
          if s.includable txn then
            prepareLoop enumSize fuel
              (includeTxn enumSize { s with pendingTxns := rest } txnHash txn) true
          else
            -- some dependencies might be missing, retry later
            prepareLoop enumSize fuel { s with pendingTxns := rest ++ [txnHash] } modified

/-- `prepare_new_block`, with the root `DummyMerkleTree::new` draws. -/
def prepareNewBlock (enumSize fuel : Nat) (root : Hash) (s : BlockManagement) :
    Res (BlockManagement × CurBlockState) :=
  prepareLoop enumSize fuel s false >>= fun (s, blkFull, modified) =>
    if modified || !s.powTime then
      .ok ({ s with merkleRoot := some root, powTime := true }, blkFull)
    else .ok (s, blkFull)

/-- The header `get_new_block` writes, on top of the current tail. -/
def newHeader (self : NodeId) (s : BlockManagement) (root : Hash) : BlockHeader where
  proposer := self
  prevHash := s.chainTail
  merkleRoot := root
  nonce := 1

/-- `get_new_block`. -/
def getNewBlock (ids : IdScheme) (self : NodeId) (s : BlockManagement) :
    Res (BlockManagement × Block) :=
  unwrap (s.blockUnderConstruction.mapM s.txnPool) >>= fun txns =>
  unwrap s.merkleRoot >>= fun root =>
  getChainLength s >>= fun chainLength =>
  let block : Block := { header := newHeader self s root, txns := txns }
  let hash := ids.blkId block.header
  if s.powTime then
    .ok ({ s with
            blockPool := Function.update s.blockPool hash (some (block, chainLength + 1))
            chainTail := hash
            utxo := (s.utxo ∪ s.newUtxo) \ s.utxoSpent
            newUtxo := ∅
            utxoSpent := ∅
            blockUnderConstruction := []
            merkleRoot := none
            powTime := false
            blockSize := 0 }, block)
  else .error .panic

/-! ## Block validation -/

/-- The transaction loop of `validate_block`: every unknown transaction that
passes is stored before the next one is looked at, and stays stored when a
later one fails. -/
def validateTxns (ids : IdScheme) (txnPool : Hash → Option BitcoinTxn) :
    List BitcoinTxn → Res ((Hash → Option BitcoinTxn) × Bool)
  | [] => .ok (txnPool, true)
  | txn :: txns =>
    if (txnPool (ids.txnId txn)).isSome then validateTxns ids txnPool txns
    else
      validateTxn txnPool txn >>= fun valid =>
      if valid then
        validateTxns ids (Function.update txnPool (ids.txnId txn) (some txn)) txns
      else .ok (txnPool, false)

/-- `blk_height` of a block with parent `prevHash`; `0` if the height is
unknown because an ancestor has not been seen yet. -/
def blkHeight (blockPool : Hash → Option (Block × Nat)) (prevHash : Hash) : Nat :=
  if prevHash = 0 then 1
  else match blockPool prevHash with
    | some (_, parentHeight) => if parentHeight > 0 then parentHeight + 1 else 0
    | none => 0

/-- Park `blockHash` under its missing parent. -/
def addOrphan (orphanBlocks : Hash → Option (Finset Hash)) (prevHash blockHash : Hash) :
    Hash → Option (Finset Hash) :=
  Function.update orphanBlocks prevHash
    (some (insert blockHash ((orphanBlocks prevHash).getD ∅)))

/-- The loop that looks for the ancestor to request. -/
def findMissingAncestor (blockPool : Hash → Option (Block × Nat)) : Nat → Hash → Res Hash
  | 0, _ => .error .diverge
  | fuel + 1, parent =>
    if parent = 0 then .error .panic
    else match blockPool parent with
      | none => .ok parent
      | some (block, height) =>
        if height = 0 then findMissingAncestor blockPool fuel block.prev else .error .panic

/-- The loop that walks the new branch down to the height of the old tail. The
chain is collected tail first. -/
def descendTo (blockPool : Hash → Option (Block × Nat)) (chainLength : Nat) :
    Nat → Hash → List Block → Res (Hash × List Block)
  | 0, ancester, chain => .ok (ancester, chain)
  | height + 1, ancester, chain =>
    if height + 1 > chainLength then
      match blockPool ancester with
      | none => .error .panic
      | some (parent, parentHeight) =>
        if parentHeight = height + 1 then
          descendTo blockPool chainLength height parent.prev (chain ++ [parent])
        else .error .panic
    else .ok (ancester, chain)

/-- The loop that walks both branches down to their common ancestor. -/
def findCommonAncester (blockPool : Hash → Option (Block × Nat)) :
    Nat → Hash → Hash → List Block → List Block → Res (List Block × List Block)
  | 0, _, _, _, _ => .error .diverge
  | fuel + 1, newAncester, oldAncester, newChain, oldChain =>
    if newAncester = oldAncester then .ok (newChain, oldChain)
    else match blockPool newAncester, blockPool oldAncester with
      | some (newParent, newHeight), some (oldParent, oldHeight) =>
        if newHeight = oldHeight then
          findCommonAncester blockPool fuel newParent.prev oldParent.prev
            (newChain ++ [newParent]) (oldChain ++ [oldParent])
        else .error .panic
      | _, _ => .error .panic

/-- `undo_utxo_spent` and `undo_new_utxo`, as the delta `add`/`del` over
`utxo`, and `undo_txns`. -/
structure Undo where
  delta : Delta Utxo
  undoTxns : Finset Hash

/-- Undo one transaction. -/
def undoTxn (ids : IdScheme) (u : Undo) (txn : BitcoinTxn) : Undo where
  delta := (txn.outputs (ids.txnId txn)).foldl Delta.unput (txn.inputs.foldl Delta.untake u.delta)
  undoTxns :=
    -- incentive txns should not be returned back to pending txns
    if txn.isIncentive then u.undoTxns else insert (ids.txnId txn) u.undoTxns

/-- Undo a block, last transaction first. -/
def undoBlock (ids : IdScheme) (u : Undo) (blk : Block) : Undo :=
  blk.txns.reverse.foldl (undoTxn ids) u

/-- Undo the old branch, tail first. -/
def undoChain (ids : IdScheme) (oldChain : List Block) : Undo :=
  oldChain.foldl (undoBlock ids) { delta := ⟨∅, ∅⟩, undoTxns := ∅ }

/-- The state of the redo loop: `new_utxos` and `utxos_spent` as a delta over
`utxo`, what is left of `undo_txns`, and `txns_applied`. -/
structure Redo where
  delta : Delta Utxo
  undoTxns : Finset Hash
  txnsApplied : Finset Hash

/-- Apply one transaction of the new branch; `none` is the early return on a
double spend or a failing script. -/
def redoTxn (ids : IdScheme) (utxo : Finset Utxo) (r : Redo) (txn : BitcoinTxn) : Option Redo :=
  (txn.inputs.foldlM (fun d k => Delta.take d utxo k) r.delta).bind fun spent =>
  if txn.scriptOk then
    some
      { delta := (txn.outputs (ids.txnId txn)).foldl Delta.put spent
        undoTxns :=
          if txn.isIncentive then r.undoTxns else r.undoTxns.erase (ids.txnId txn)
        txnsApplied :=
          if txn.isIncentive || ids.txnId txn ∈ r.undoTxns then r.txnsApplied
          else insert (ids.txnId txn) r.txnsApplied }
  else none

/-- Apply the new branch, oldest block first. -/
def redoChain (ids : IdScheme) (utxo : Finset Utxo) (r : Redo) (newChain : List Block) :
    Option Redo :=
  newChain.foldlM (fun r blk => blk.txns.foldlM (redoTxn ids utxo) r) r

/-- What `validate_block` hands back: the state, the new tail, and the id of
the ancestor it asks its peers for. -/
structure Validated where
  state : BlockManagement
  newTail : List Block
  blockReq : Option Hash

/-- Move over to the longer chain. -/
def moveOver (ord : HashOrder) (s : BlockManagement) (newTail : Hash) (r : Redo) :
    BlockManagement :=
  { s with
    merkleRoot := none
    powTime := false
    pendingTxns :=
      (s.pendingTxns ++ s.blockUnderConstruction ++ ord.iter r.undoTxns).filter
        (fun txnHash => txnHash ∉ r.txnsApplied)
    blockUnderConstruction := []
    blockSize := 0
    utxoSpent := ∅
    newUtxo := ∅
    chainTail := newTail
    utxo := (s.utxo ∪ r.delta.add) \ r.delta.del }

/-- The part of `validate_block` that follows once the deepest descendant of
the new block is known: find the branch point, undo the old branch, redo the
new one, and move over if it is valid. -/
def tryNewTail (ids : IdScheme) (ord : HashOrder) (fuel : Nat) (s : BlockManagement)
    (newTail : Hash) (newTailHeight : Nat) : Res Validated :=
  unwrap (s.blockPool newTail) >>= fun (newTailBlock, _) =>
  getChainLength s >>= fun chainLength =>
  if newTailHeight ≤ chainLength then .ok ⟨s, [], none⟩
  else
    descendTo s.blockPool chainLength (newTailHeight - 1) newTailBlock.prev [newTailBlock]
      >>= fun (newAncester, newChain) =>
    findCommonAncester s.blockPool fuel newAncester s.chainTail newChain []
      >>= fun (newChain, oldChain) =>
    let undo := undoChain ids oldChain
    let newChain := newChain.reverse
    match redoChain ids s.utxo ⟨undo.delta, undo.undoTxns, ∅⟩ newChain with
    | none => .ok ⟨s, [], none⟩
    | some r => .ok ⟨moveOver ord s newTail r, newChain, none⟩

/-- `validate_block`. `DummyMerkleTree::verify` accepts every root. -/
def validateBlock (ids : IdScheme) (ord : HashOrder) (fuel : Nat) (s : BlockManagement)
    (block : Block) : Res Validated :=
  let blockHash := ids.blkId block.header
  if (s.blockPool blockHash).isSome then .ok ⟨s, [], none⟩
  else if block.header.nonce ≠ 1 then .ok ⟨s, [], none⟩
  else
    validateTxns ids s.txnPool block.txns >>= fun (txnPool, valid) =>
    if !valid then .ok ⟨{ s with txnPool := txnPool }, [], none⟩
    else
      let height := blkHeight s.blockPool block.prev
      let blockPool := Function.update s.blockPool blockHash (some (block, height))
      if height = 0 then
        findMissingAncestor blockPool fuel block.prev >>= fun parent =>
        .ok ⟨{ s with
                txnPool := txnPool
                blockPool := blockPool
                orphanBlocks := addOrphan s.orphanBlocks block.prev blockHash }, [], some parent⟩
      else
        updateOrphansAndReturnTail ord fuel ⟨blockPool, s.orphanBlocks⟩ blockHash height
          >>= fun (pools, newTail, newTailHeight) =>
        tryNewTail ids ord fuel { s with txnPool := txnPool, toPools := pools }
          newTail newTailHeight

end Copycat.Bitcoin
