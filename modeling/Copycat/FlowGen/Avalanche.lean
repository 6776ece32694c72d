import Copycat.Avalanche.TxnValidation
import Copycat.FlowGen.Bitcoin

/-!
# `AvalancheFlowGen`

The generator of the load of an Avalanche experiment
(`copycat_flowgen/src/avalanche.rs`). Besides payments it makes, at a given rate,
conflicts: two payments with the same output, and behind each of them as many more
as it takes to have it committed. All of them are registered in pairs, and sent to
two clients in different orders.

Draws are used up as in `Copycat.FlowGen.Bitcoin`; `rand::random::<f64>` is a
multiple of `2 ^ -53`, and the rate an exact number. `usize` subtraction panics in
`get_inflight_count`, where it never underflows, and wraps in `next_txn_batch`.
-/

namespace Copycat.FlowGen

open Avalanche (AvalancheTxn UniqueIds)

/-- `DagInfo`. -/
structure DagInfo where
  numBlks : Nat
  txnCount : Nat

/-- An output that a conflict starts from: the client and the index of the account
that owns it, the transaction, its value, and the clients that all of it is sent
to. -/
structure ConflictingUtxo where
  owner : ClientId × Nat
  txnHash : Hash
  value : UInt64
  clients : ClientId × ClientId

/-- `AvalancheFlowGen`. -/
structure AvalancheFlowGen where
  avaxCommitDepth : Nat
  maxInflight : Nat
  batchSize : Nat
  conflictRate : ℚ
  crypto : CryptoScheme
  clientList : List ClientId
  utxos : ClientId → Option (List (Nat × Hash × UInt64))
  accounts : Accounts
  inFlight : Finset Hash
  nonce : UInt64
  inFlightConflict : AList fun _ : Hash => Hash
  conflictingUtxos : List ConflictingUtxo
  conflictSet : Finset Hash
  conflictsSent : Nat
  conflictsRecv : Nat
  conflictsCommitted : Nat
  dagInfo : AList fun _ : NodeId => DagInfo

/-- `client_local_accounts`, from account number `i` on, and the next number. -/
def localAccounts (crypto : CryptoScheme) (id : UInt64) :
    Nat → UInt64 → List (PubKey × PrivKey) × UInt64
  | 0, i => ([], i)
  | n + 1, i =>
    let rest := localAccounts crypto id n (i + 1)
    (crypto.genKeyPair (seed id i) :: rest.1, rest.2)

/-- What `new` has made so far. -/
structure NewClients where
  i : UInt64
  accounts : Accounts
  utxos : ClientId → Option (List (Nat × Hash × UInt64))

/-- One more client with `n` accounts. -/
def addClient (crypto : CryptoScheme) (id : UInt64) (n : Nat) (s : NewClients)
    (client : ClientId) : NewClients :=
  let made := localAccounts crypto id n s.i
  { i := made.2
    accounts := Function.update s.accounts client (some made.1)
    utxos := Function.update s.utxos client (some ((s.utxos client).getD [])) }

/-- `AvalancheFlowGen::new`. -/
def AvalancheFlowGen.new (id : UInt64) (clientList : List ClientId)
    (numAccounts maxInflight frequency : Nat) (conflictRate : ℚ) (crypto : CryptoScheme) :
    Res AvalancheFlowGen :=
  let n := accountsPerNode clientList numAccounts
  if n > 1 then
    let made := clientList.foldl (addClient crypto id n) ⟨0, fun _ => none, fun _ => none⟩
    .ok {
      avaxCommitDepth := 50
      maxInflight := maxInflight
      batchSize := newBatchSize 100 maxInflight frequency
      conflictRate := conflictRate
      crypto := crypto
      clientList := clientList
      utxos := made.utxos
      accounts := made.accounts
      inFlight := ∅
      nonce := 2
      inFlightConflict := ∅
      conflictingUtxos := []
      conflictSet := ∅
      conflictsSent := 0
      conflictsRecv := 0
      conflictsCommitted := 0
      dagInfo := ∅ }
  else .error .panic

/-- Subtraction that must not underflow. -/
def checkedSub (a b : Nat) : Res Nat := if b ≤ a then .ok (a - b) else .error .panic

/-- `rand::random::<f64>`. -/
def drawF64 (draws : List Nat) : Res (ℚ × List Nat) :=
  draw draws >>= fun (d, draws) => .ok (((d % 2 ^ 53 : Nat) : ℚ) / 2 ^ 53, draws)

namespace AvalancheFlowGen

/-- `get_inflight_count`. -/
def getInflightCount (g : AvalancheFlowGen) : Res Nat :=
  checkedSub g.inFlight.card g.inFlightConflict.entries.length >>= fun single =>
  checkedSub (single + g.conflictsSent) g.conflictsRecv

variable (ids : UniqueIds)

/-- The grant of one account. -/
def setupTxn (client : ClientId) (acc : AvalancheFlowGen × List (ClientId × AvalancheTxn))
    (x : (PubKey × PrivKey) × Nat) : Res (AvalancheFlowGen × List (ClientId × AvalancheTxn)) :=
  let txn : AvalancheTxn := .grant 10 x.1.1 0
  unwrap (acc.1.utxos client) >>= fun utxos =>
  .ok ({ acc.1 with
      utxos := Function.update acc.1.utxos client (some (utxos ++ [(x.2, ids.txnId txn, 10)])) },
    acc.2 ++ [(client, txn)])

/-- The grants of all accounts of a client. -/
def setupClient (acc : AvalancheFlowGen × List (ClientId × AvalancheTxn)) (client : ClientId) :
    Res (AvalancheFlowGen × List (ClientId × AvalancheTxn)) :=
  unwrap (acc.1.accounts client) >>= fun accounts =>
  accounts.zipIdx.foldlM (setupTxn ids client) acc

/-- `setup_txns`, with the clients in the order of the map. -/
def setupTxns (order : List ClientId) (g : AvalancheFlowGen) :
    Res (AvalancheFlowGen × List (ClientId × AvalancheTxn)) :=
  order.foldlM (setupClient ids) (g, [])

/-- A payment between two accounts of a client. -/
def transfer (crypto : CryptoScheme) (accounts : List (PubKey × PrivKey))
    (senderIdx recverIdx : Nat) (inUtxo : Hash) (outUtxo remainder : UInt64) : Res AvalancheTxn :=
  unwrap accounts[senderIdx]? >>= fun (senderPk, senderSk) =>
  unwrap accounts[recverIdx]? >>= fun (recverPk, _) =>
  .ok (.send senderPk [inUtxo] recverPk outUtxo remainder (crypto.sign senderSk [inUtxo]))

/-- Put the output in the list, unless it is worth nothing. -/
def pushUtxo (utxos : List (Nat × Hash × UInt64)) (owner : Nat) (txnHash : Hash) (value : UInt64) :
    List (Nat × Hash × UInt64) :=
  if value > 0 then utxos ++ [(owner, txnHash, value)] else utxos

/-- The branch of `next_txn_batch` without a conflict. -/
def nextSend (g : AvalancheFlowGen) (draws : List Nat) :
    Res (AvalancheFlowGen × List (ClientId × AvalancheTxn) × List Nat) :=
  draw draws >>= fun (d, draws) =>
  rem d g.clientList.length >>= fun clientIdx =>
  unwrap g.clientList[clientIdx]? >>= fun client =>
  unwrap (g.accounts client) >>= fun accounts =>
  unwrap (g.utxos client) >>= fun utxos =>
  draw draws >>= fun (d, draws) =>
  rem d utxos.length >>= fun sendUtxoIdx =>
  unwrap utxos[sendUtxoIdx]? >>= fun (senderIdx, inUtxo, inUtxoAmount) =>
  let utxos := utxos.eraseIdx sendUtxoIdx
  let outUtxo := min inUtxoAmount 10
  let remainder := inUtxoAmount - outUtxo
  draw draws >>= fun (d, draws) =>
  recver1Idx accounts.length senderIdx d >>= fun recverIdx =>
  transfer g.crypto accounts senderIdx recverIdx inUtxo outUtxo remainder >>= fun txn =>
  let txnHash := ids.txnId txn
  let utxos := pushUtxo utxos senderIdx txnHash remainder
  let utxos := pushUtxo utxos recverIdx txnHash outUtxo
  .ok ({ g with
      utxos := Function.update g.utxos client (some utxos)
      inFlight := insert txnHash g.inFlight }, [(client, txn)], draws)

/-- The output that a conflict starts from, and the grants that are sent for it. -/
def takeConflict (g : AvalancheFlowGen) (draws : List Nat) :
    Res (AvalancheFlowGen × ConflictingUtxo × List (ClientId × AvalancheTxn) × List Nat) :=
  if g.conflictingUtxos.length > 0 then
    draw draws >>= fun (d, draws) =>
    rem d g.conflictingUtxos.length >>= fun idx =>
    unwrap g.conflictingUtxos[idx]? >>= fun utxo =>
    .ok ({ g with conflictingUtxos := g.conflictingUtxos.eraseIdx idx }, utxo, [], draws)
  else
    -- create a new grant txn
    draw draws >>= fun (d, draws) =>
    rem d g.clientList.length >>= fun clientIdx =>
    unwrap g.clientList[clientIdx]? >>= fun client =>
    unwrap (g.accounts client) >>= fun accounts =>
    draw draws >>= fun (d, draws) =>
    rem d accounts.length >>= fun ownerIdx =>
    unwrap accounts[ownerIdx]? >>= fun (pk, _) =>
    let grantTxn : AvalancheTxn := .grant 10 pk g.nonce
    let grantTxnHash := ids.txnId grantTxn
    unwrap g.clientList[(clientIdx + 1) % g.clientList.length]? >>= fun client2 =>
    .ok ({ g with nonce := g.nonce + 1, inFlight := insert grantTxnHash g.inFlight },
      ⟨(client, ownerIdx), grantTxnHash, 10, (client, client2)⟩,
      [(client, grantTxn), (client2, grantTxn)], draws)

/-- Register two transactions as a conflict, and send them. -/
def sendPair (g : AvalancheFlowGen) (clients : ClientId × ClientId) (txn1 txn2 : AvalancheTxn) :
    AvalancheFlowGen × List (ClientId × AvalancheTxn) :=
  let hash1 := ids.txnId txn1
  let hash2 := ids.txnId txn2
  ({ g with
      inFlight := insert hash2 (insert hash1 g.inFlight)
      inFlightConflict := (g.inFlightConflict.insert hash1 hash2).insert hash2 hash1
      conflictsSent := g.conflictsSent + 1 },
    [(clients.1, txn1), (clients.1, txn2), (clients.2, txn2), (clients.2, txn1)])

/-- The last transactions on the two sides of a conflict, and who was paid. -/
structure Ends where
  recver1Idx : Nat
  txn1Hash : Hash
  recver2Idx : Nat
  txn2Hash : Hash

/-- The two transactions with the same output. -/
def basePair (accounts : List (PubKey × PrivKey)) (utxo : ConflictingUtxo) (g : AvalancheFlowGen)
    (draws : List Nat) :
    Res (AvalancheFlowGen × Ends × List (ClientId × AvalancheTxn) × List Nat) :=
  let senderIdx := utxo.owner.2
  draw draws >>= fun (d, draws) =>
  FlowGen.recver1Idx accounts.length senderIdx d >>= fun recver1Idx =>
  transfer g.crypto accounts senderIdx recver1Idx utxo.txnHash utxo.value 0 >>= fun txn1 =>
  draw draws >>= fun (d, draws) =>
  FlowGen.recver2Idx accounts.length senderIdx recver1Idx d >>= fun recver2Idx =>
  transfer g.crypto accounts senderIdx recver2Idx utxo.txnHash utxo.value 0 >>= fun txn2 =>
  let sent := sendPair ids g utxo.clients txn1 txn2
  .ok (sent.1, ⟨recver1Idx, ids.txnId txn1, recver2Idx, ids.txnId txn2⟩, sent.2, draws)

/-- One more transaction on each side. -/
def extendPair (accounts : List (PubKey × PrivKey)) (utxo : ConflictingUtxo) (g : AvalancheFlowGen)
    (ends : Ends) (draws : List Nat) :
    Res (AvalancheFlowGen × Ends × List (ClientId × AvalancheTxn) × List Nat) :=
  draw draws >>= fun (d, draws) =>
  FlowGen.recver1Idx accounts.length ends.recver1Idx d >>= fun recver1Idx =>
  transfer g.crypto accounts ends.recver1Idx recver1Idx ends.txn1Hash utxo.value 0 >>= fun txn1 =>
  draw draws >>= fun (d, draws) =>
  FlowGen.recver1Idx accounts.length ends.recver2Idx d >>= fun recver2Idx =>
  transfer g.crypto accounts ends.recver2Idx recver2Idx ends.txn2Hash utxo.value 0 >>= fun txn2 =>
  let sent := sendPair ids g utxo.clients txn1 txn2
  .ok (sent.1, ⟨recver1Idx, ids.txnId txn1, recver2Idx, ids.txnId txn2⟩, sent.2, draws)

/-- Extend both sides enough that they will be committed. -/
def extendPairs (accounts : List (PubKey × PrivKey)) (utxo : ConflictingUtxo) :
    Nat → AvalancheFlowGen → Ends → List Nat →
      Res (AvalancheFlowGen × Ends × List (ClientId × AvalancheTxn) × List Nat)
  | 0, g, ends, draws => .ok (g, ends, [], draws)
  | n + 1, g, ends, draws =>
    extendPair ids accounts utxo g ends draws >>= fun (g, ends, txns, draws) =>
    extendPairs accounts utxo n g ends draws >>= fun (g, ends, rest, draws) =>
    .ok (g, ends, txns ++ rest, draws)

/-- The branch with a conflict. It counts for a transaction in the batch for each pair,
and for one if there are grants; the number returned is how many that is besides the
first pair. -/
def nextConflict (g : AvalancheFlowGen) (draws : List Nat) :
    Res (AvalancheFlowGen × List (ClientId × AvalancheTxn) × Nat × List Nat) :=
  takeConflict ids g draws >>= fun (g, utxo, grants, draws) =>
  unwrap (g.accounts utxo.owner.1) >>= fun accounts =>
  basePair ids accounts utxo g draws >>= fun (g, ends, base, draws) =>
  extendPairs ids accounts utxo g.avaxCommitDepth g ends draws >>= fun (g, ends, rest, draws) =>
  .ok ({ g with
      conflictingUtxos := g.conflictingUtxos ++
        [⟨(utxo.owner.1, ends.recver1Idx), ends.txn1Hash, utxo.value, utxo.clients⟩,
          ⟨(utxo.owner.1, ends.recver2Idx), ends.txn2Hash, utxo.value, utxo.clients⟩] },
    grants ++ base ++ rest, (if grants = [] then 0 else 1) + g.avaxCommitDepth, draws)

/-- One pass of the loop of `next_txn_batch`; `cur_batch_size` grows by one and the
number returned. -/
def nextRound (g : AvalancheFlowGen) (draws : List Nat) :
    Res (AvalancheFlowGen × List (ClientId × AvalancheTxn) × Nat × List Nat) :=
  drawF64 draws >>= fun (r, draws) =>
  if r > g.conflictRate then
    nextSend ids g draws >>= fun (g, txns, draws) => .ok (g, txns, 0, draws)
  else nextConflict ids g draws

/-- The loop of `next_txn_batch`, with that many to go. -/
def nextRounds : Nat → AvalancheFlowGen → List Nat →
    Res (AvalancheFlowGen × List (ClientId × AvalancheTxn) × List Nat)
  | 0, g, draws => .ok (g, [], draws)
  | left + 1, g, draws =>
    nextRound ids g draws >>= fun (g, txns, more, draws) =>
    nextRounds (left - more) g draws >>= fun (g, batch, draws) => .ok (g, txns ++ batch, draws)
termination_by left => left
decreasing_by omega

/-- `next_txn_batch`. -/
def nextTxnBatch (g : AvalancheFlowGen) (draws : List Nat) :
    Res (AvalancheFlowGen × List (ClientId × AvalancheTxn) × List Nat) :=
  if g.maxInflight = unset then nextRounds ids g.batchSize g draws
  else
    g.getInflightCount >>= fun inflight =>
    nextRounds ids (min g.batchSize (wrappingSub g.maxInflight inflight)) g draws

/-- What `txn_committed` does for one transaction. -/
def commitTxn (g : AvalancheFlowGen) (txn : AvalancheTxn) : AvalancheFlowGen :=
  let hash := ids.txnId txn
  let g := { g with inFlight := g.inFlight.erase hash }
  -- check for conflicts
  match g.inFlightConflict.lookup hash with
  | none => g
  | some conflictHash =>
    let g := { g with inFlightConflict := g.inFlightConflict.erase hash }
    if hash ∈ g.conflictSet then
      { g with
        conflictsCommitted := g.conflictsCommitted + 1
        conflictSet := g.conflictSet.erase hash } -- to avoid double counting
    else
      { g with
        conflictsRecv := g.conflictsRecv + 1
        conflictSet := insert conflictHash g.conflictSet }

/-- `txn_committed`. -/
def txnCommitted (g : AvalancheFlowGen) (node : NodeId) (txns : List AvalancheTxn) :
    AvalancheFlowGen :=
  let info := (g.dagInfo.lookup node).getD ⟨0, 0⟩
  txns.foldl (commitTxn ids)
    { g with dagInfo := g.dagInfo.insert node ⟨info.numBlks + 1, info.txnCount + txns.length⟩ }

/-- `get_stats`. -/
def getStats (g : AvalancheFlowGen) : Res Stats :=
  let counts := g.dagInfo.entries.map fun x => (x.2.txnCount, x.2.numBlks)
  g.getInflightCount >>= fun inflight =>
  .ok ⟨(reduceMax counts).1, (reduceMax counts).2, inflight⟩

end AvalancheFlowGen

end Copycat.FlowGen

