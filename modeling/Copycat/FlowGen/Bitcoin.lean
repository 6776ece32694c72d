import Copycat.FlowGen.Receivers

/-!
# `BitcoinFlowGen`

The generator of the load of a Bitcoin experiment
(`copycat_flowgen/src/bitcoin.rs`). It makes the accounts of its clients and a
grant for each, then sends payments between accounts of a client, and it counts
what the nodes report as committed.

`rand::random` is a list of draws that is used up from the front. A list that is
too short ends in `diverge`; the loop that looks for a sender with money draws
again and again. Of the maps from hashes to the time of sending only the keys are
kept, and the statistics over times and in floating point are left out. What is
iterated in the order of a `HashMap` is given that order.
-/

namespace Copycat.FlowGen

/-- `u64`. -/
abbrev ClientId := Nat

/-- `Box<[u8]>`. -/
abbrev PrivKey := List UInt8

/-- `CryptoScheme`: `gen_key_pair`, and `sign` over the serialised inputs. A
generated key can sign. -/
structure CryptoScheme where
  genKeyPair : UInt64 → PubKey × PrivKey
  sign : PrivKey → List Hash → Signature

/-- The accounts of each client. -/
abbrev Accounts := ClientId → Option (List (PubKey × PrivKey))

/-- Subtraction of `usize`. -/
def wrappingSub (a b : Nat) : Nat := (a + 2 ^ 64 - b) % 2 ^ 64

/-- `UNSET`. -/
def unset : Nat := 0

/-- The next draw. -/
def draw : List Nat → Res (Nat × List Nat)
  | [] => .error .diverge
  | d :: draws => .ok (d, draws)

/-- `accounts_per_node`. -/
def accountsPerNode (clientList : List ClientId) (numAccounts : Nat) : Nat :=
  if clientList.length = 0 then 0 else numAccounts / clientList.length

/-- The seed of account number `i` of generator `id`. -/
def seed (id i : UInt64) : UInt64 := (id <<< 32) ||| i

/-- `batch_size`, of which there are at most `maxBatchFreq` in a second. -/
def newBatchSize (maxBatchFreq maxInflight frequency : Nat) : Nat :=
  if frequency = unset then maxInflight
  else if frequency < maxBatchFreq then 1
  else frequency / maxBatchFreq

/-! ## What nodes commit -/

/-- `ChainInfo`. -/
structure ChainInfo where
  chainLength : Nat
  txnCount : Nat → Option Nat
  totalCommitted : Nat

def ChainInfo.new : ChainInfo := ⟨0, fun _ => none, 0⟩

/-- The loop that takes out the replaced heights. -/
def removeHeights (txnCount : Nat → Option Nat) (heights : List Nat) : Nat → Option Nat :=
  heights.foldl (fun txnCount height => Function.update txnCount height none) txnCount

/-- What `txn_committed` does for the node that reports. -/
def ChainInfo.commit (info : ChainInfo) (numTxns blkHeight : Nat) : Res ChainInfo :=
  if blkHeight ≤ info.chainLength + 1 then
    -- make sure we are not skipping over some parents
    let txnCount := removeHeights info.txnCount
      (List.range' blkHeight (info.chainLength + 1 - blkHeight))
    .ok ⟨blkHeight, Function.update txnCount blkHeight (some numTxns),
      info.totalCommitted + numTxns⟩
  else .error .panic

/-- `num_committed` of one node. -/
def ChainInfo.numCommitted (info : ChainInfo) : Res Nat :=
  if info.chainLength > 0 then
    (List.range' 1 info.chainLength).mapM (fun height => unwrap (info.txnCount height))
      >>= fun counts => .ok counts.sum
  else .ok 0

/-! ## The generator -/

/-- `BitcoinFlowGen`. -/
structure BitcoinFlowGen where
  maxInflight : Nat
  batchSize : Nat
  crypto : CryptoScheme
  clientList : List ClientId
  utxos : ClientId → Option (PubKey → Option (List (Hash × UInt64)))
  accounts : Accounts
  inFlight : Finset Hash
  chainInfo : AList fun _ : NodeId => ChainInfo

/-- What `new` has made so far: the next account number, the accounts and the empty
queues. -/
structure NewAccounts where
  i : UInt64
  accounts : Accounts
  utxos : ClientId → Option (PubKey → Option (List (Hash × UInt64)))

/-- One more account of a client. -/
def newAccount (crypto : CryptoScheme) (id : UInt64) (client : ClientId) (s : NewAccounts) :
    NewAccounts :=
  let keyPair := crypto.genKeyPair (seed id s.i)
  { i := s.i + 1
    accounts := Function.update s.accounts client
      (some ((s.accounts client).getD [] ++ [keyPair]))
    utxos := Function.update s.utxos client
      (some (Function.update ((s.utxos client).getD fun _ => none) keyPair.1 (some []))) }

/-- All accounts of a client. -/
def newClient (crypto : CryptoScheme) (id : UInt64) (client : ClientId) :
    Nat → NewAccounts → NewAccounts
  | 0, s => s
  | n + 1, s => newClient crypto id client n (newAccount crypto id client s)

/-- `BitcoinFlowGen::new`. -/
def BitcoinFlowGen.new (id : UInt64) (clientList : List ClientId)
    (numAccounts maxInflight frequency : Nat) (crypto : CryptoScheme) : BitcoinFlowGen :=
  let made := clientList.foldl
    (fun s client => newClient crypto id client (accountsPerNode clientList numAccounts) s)
    ⟨0, fun _ => none, fun _ => none⟩
  { maxInflight := maxInflight
    batchSize := newBatchSize 20 maxInflight frequency
    crypto := crypto
    clientList := clientList
    utxos := made.utxos
    accounts := made.accounts
    inFlight := ∅
    chainInfo := ∅ }

namespace BitcoinFlowGen

variable (ids : IdScheme)

/-- Put an output at the end of an account's queue. -/
def pushBack (utxos : PubKey → Option (List (Hash × UInt64))) (account : PubKey)
    (utxo : Hash × UInt64) : Res (PubKey → Option (List (Hash × UInt64))) :=
  unwrap (utxos account) >>= fun queue =>
  .ok (Function.update utxos account (some (queue ++ [utxo])))

/-- The grant of one account. -/
def setupTxn (acc : BitcoinFlowGen × List (ClientId × BitcoinTxn)) (x : ClientId × PubKey) :
    Res (BitcoinFlowGen × List (ClientId × BitcoinTxn)) :=
  let txn : BitcoinTxn := .grant 100 x.2
  unwrap (acc.1.utxos x.1) >>= fun utxoMap =>
  pushBack utxoMap x.2 (ids.txnId txn, 100) >>= fun utxoMap =>
  .ok ({ acc.1 with utxos := Function.update acc.1.utxos x.1 (some utxoMap) },
    acc.2 ++ [(x.1, txn)])

/-- `setup_txns`, with the accounts in the order of the two maps. -/
def setupTxns (order : List (ClientId × PubKey)) (g : BitcoinFlowGen) :
    Res (BitcoinFlowGen × List (ClientId × BitcoinTxn)) :=
  order.foldlM (setupTxn ids) (g, [])

/-- What the loop that looks for a sender ends with: the two accounts, and the output
at the front of the sender's queue. -/
structure Picked where
  senderPk : PubKey
  senderSk : PrivKey
  recverPk : PubKey
  inUtxo : Hash
  amount : UInt64
  queue : List (Hash × UInt64)

/-- The loop that looks for a sender whose queue is not empty. -/
def pickSender (accounts : List (PubKey × PrivKey))
    (utxos : PubKey → Option (List (Hash × UInt64))) : List Nat → Res (Picked × List Nat)
  | d1 :: d2 :: draws =>
    rem d1 accounts.length >>= fun sender =>
    recver1Idx accounts.length sender d2 >>= fun receiver =>
    unwrap accounts[sender]? >>= fun (senderPk, senderSk) =>
    unwrap accounts[receiver]? >>= fun (recverPk, _) =>
    unwrap (utxos senderPk) >>= fun senderUtxos =>
    match senderUtxos with
    | [] => pickSender accounts utxos draws -- retry
    | (inUtxo, amount) :: queue =>
      .ok (⟨senderPk, senderSk, recverPk, inUtxo, amount, queue⟩, draws)
  | _ => .error .diverge

/-- The payment `next_txn_batch` makes of it. -/
def payment (crypto : CryptoScheme) (p : Picked) : Send where
  sender := p.senderPk
  inUtxo := [p.inUtxo]
  receiver := p.recverPk
  outUtxo := min p.amount 10
  remainder := p.amount - min p.amount 10
  senderSignature := crypto.sign p.senderSk [p.inUtxo]
  scriptBytes := 400
  scriptRuntime := 1 -- in milliseconds
  scriptSucceed := true

/-- Put the output in the queue, unless it is worth nothing. -/
def pushOutput (utxos : PubKey → Option (List (Hash × UInt64))) (account : PubKey)
    (txnHash : Hash) (value : UInt64) : Res (PubKey → Option (List (Hash × UInt64))) :=
  if value > 0 then pushBack utxos account (txnHash, value) else .ok utxos

/-- One transaction of a batch. -/
def nextTxn (g : BitcoinFlowGen) (draws : List Nat) :
    Res (BitcoinFlowGen × (ClientId × BitcoinTxn) × List Nat) :=
  draw draws >>= fun (d, draws) =>
  rem d g.clientList.length >>= fun idx =>
  unwrap g.clientList[idx]? >>= fun node =>
  unwrap (g.accounts node) >>= fun accounts =>
  unwrap (g.utxos node) >>= fun utxos =>
  pickSender accounts utxos draws >>= fun (p, draws) =>
  let txn := payment g.crypto p
  let txnHash := ids.txnId (.send txn)
  let utxos := Function.update utxos p.senderPk (some p.queue)
  pushOutput utxos p.senderPk txnHash txn.remainder >>= fun utxos =>
  pushOutput utxos p.recverPk txnHash txn.outUtxo >>= fun utxos =>
  .ok ({ g with
      utxos := Function.update g.utxos node (some utxos)
      inFlight := insert txnHash g.inFlight }, (node, .send txn), draws)

/-- The loop of `next_txn_batch`. -/
def nextTxns : Nat → BitcoinFlowGen → List Nat →
    Res (BitcoinFlowGen × List (ClientId × BitcoinTxn) × List Nat)
  | 0, g, draws => .ok (g, [], draws)
  | n + 1, g, draws =>
    nextTxn ids g draws >>= fun (g, txn, draws) =>
    nextTxns n g draws >>= fun (g, batch, draws) => .ok (g, txn :: batch, draws)

/-- `next_txn_batch`. -/
def nextTxnBatch (g : BitcoinFlowGen) (draws : List Nat) :
    Res (BitcoinFlowGen × List (ClientId × BitcoinTxn) × List Nat) :=
  let batchSize := if g.maxInflight = unset then g.batchSize
    else min g.batchSize (wrappingSub g.maxInflight g.inFlight.card)
  nextTxns ids batchSize g draws

/-- `txn_committed`. -/
def txnCommitted (g : BitcoinFlowGen) (node : NodeId) (txns : List BitcoinTxn)
    (blkHeight : Nat) : Res BitcoinFlowGen :=
  ((g.chainInfo.lookup node).getD .new).commit txns.length blkHeight >>= fun info =>
  .ok { g with
    chainInfo := g.chainInfo.insert node info
    inFlight := txns.foldl (fun inFlight txn => inFlight.erase (ids.txnId txn)) g.inFlight }

end BitcoinFlowGen

/-- `Stats`. -/
structure Stats where
  numCommitted : Nat
  chainLength : Nat
  inflightTxns : Nat

/-- `reduce` by the larger one in each place, and `unwrap_or((0, 0))`. -/
def reduceMax : List (Nat × Nat) → Nat × Nat
  | [] => (0, 0)
  | x :: xs => xs.foldl (fun acc e => (max acc.1 e.1, max acc.2 e.2)) x

/-- `get_stats`. -/
def BitcoinFlowGen.getStats (g : BitcoinFlowGen) : Res Stats :=
  g.chainInfo.entries.mapM (fun x =>
      x.2.numCommitted >>= fun numCommitted => .ok (numCommitted, x.2.chainLength))
    >>= fun counts =>
  .ok ⟨(reduceMax counts).1, (reduceMax counts).2, g.inFlight.card⟩

end Copycat.FlowGen
