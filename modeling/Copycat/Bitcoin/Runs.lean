import Copycat.Bitcoin.Management

/-!
# Runs of the block-management stage

`block_management_thread` owns one `BitcoinBlockManagement` and calls it from
a single loop, so a run is a sequence of whole calls. `Step` has one
constructor per call; a call that panics or does not return has no successor.
The label keeps the call and the tail the thread sends on to dissemination
(`new_block_send`): the mined block, or the result of `validate_block` when it
is not empty.

What the environment promises is stated call by call. `FreshId` is the
randomness of the merkle root: the id of a block mined here has not been seen
before, neither as a block nor as the parent of one.
-/

namespace Copycat.Bitcoin

open Copycat.Lib

/-- The constants of a node. -/
structure Config where
  ids : IdScheme
  self : NodeId
  enumSize : Nat

/-- The calls of `block_management_thread`. -/
inductive Call where
  | recordNewTxn (txn : BitcoinTxn)
  | prepareNewBlock (root : Hash)
  | getNewBlock
  | validateBlock (block : Block)

/-- The transactions a call hands over. -/
def Call.txns : Call → List BitcoinTxn
  | recordNewTxn txn => [txn]
  | validateBlock block => block.txns
  | _ => []

/-- A call and the blocks it sends on. -/
abbrev Label := Call × List Block

/-- One call. -/
inductive Step (cfg : Config) : BlockManagement → Label → BlockManagement → Prop
  | record (s : BlockManagement) (txn : BitcoinTxn) :
      Step cfg s (.recordNewTxn txn, []) (recordNewTxn cfg.ids s txn).1
  | prepare {s s' : BlockManagement} {fuel : Nat} {root : Hash} {blkFull : CurBlockState} :
      prepareNewBlock cfg.enumSize fuel root s = .ok (s', blkFull) →
      Step cfg s (.prepareNewBlock root, []) s'
  | mine {s s' : BlockManagement} {block : Block} :
      getNewBlock cfg.ids cfg.self s = .ok (s', block) →
      Step cfg s (.getNewBlock, [block]) s'
  | validate {s : BlockManagement} {ord : HashOrder} {fuel : Nat} {block : Block}
      {v : Validated} :
      validateBlock cfg.ids ord fuel s block = .ok v →
      Step cfg s (.validateBlock block, v.newTail) v.state

/-- The label of a call of `validate_block`, by the tail it hands on. -/
theorem step_of_validate (cfg : Config) {s : BlockManagement} {ord : HashOrder} {fuel : Nat}
    {block : Block} {v : Validated} {tail : List Block}
    (h : validateBlock cfg.ids ord fuel s block = .ok v) (htail : v.newTail = tail) :
    Step cfg s (.validateBlock block, tail) v.state := by
  rw [← htail]
  exact .validate h

/-- The stage as a machine. -/
def stage (cfg : Config) : Machine BlockManagement Label where
  start := BlockManagement.new
  step := Step cfg

/-! ## Guards -/

/-- A mined id has not been seen before. -/
def FreshId (cfg : Config) (s : BlockManagement) (l : Label) : Prop :=
  l.1 = .getNewBlock → ∀ block ∈ l.2,
    s.blockPool (cfg.ids.blkId block.header) = none ∧
    ∀ h b n, s.blockPool h = some (b, n) → b.prev ≠ cfg.ids.blkId block.header

/-! ## A node to evaluate on

Four transactions: a grant, a `Send` that spends it, a `Send` that lists it
twice as an input, and a `Send` that spends it with a failing script. -/

def demoGrant : BitcoinTxn := .grant 10 [1]

def demoPay : BitcoinTxn := .send
  { sender := [1], inUtxo := [1], receiver := [2], outUtxo := 4, remainder := 6,
    senderSignature := [], scriptBytes := 0, scriptRuntime := 0, scriptSucceed := true }

def demoTwice : BitcoinTxn := .send
  { sender := [1], inUtxo := [1, 1], receiver := [2], outUtxo := 20, remainder := 0,
    senderSignature := [], scriptBytes := 0, scriptRuntime := 0, scriptSucceed := true }

def demoFail : BitcoinTxn := .send
  { sender := [1], inUtxo := [1], receiver := [2], outUtxo := 4, remainder := 6,
    senderSignature := [], scriptBytes := 0, scriptRuntime := 0, scriptSucceed := false }

noncomputable def demo : Config where
  ids := .ofTable [demoGrant, demoPay, demoTwice, demoFail]
  self := 0
  enumSize := 144

/-- The first block the node mines over the root `7`. -/
def demoBlock (txns : List BitcoinTxn) : Block where
  header := { proposer := 0, prevHash := 0, merkleRoot := 7, nonce := 1 }
  txns := txns

/-- A block of a peer. -/
def demoPeer (prevHash : Hash) (txns : List BitcoinTxn) : Block where
  header := { proposer := 1, prevHash := prevHash, merkleRoot := 9, nonce := 1 }
  txns := txns

end Copycat.Bitcoin
