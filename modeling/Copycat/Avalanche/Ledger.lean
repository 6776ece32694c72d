import Copycat.Lib.Machine
import Copycat.Protocol

/-!
# The transaction DAG of an Avalanche node

`AvalancheDecision` and `BlizzardDecision`
(`src/stage/consensus/decide/avalanche/`) share everything but the counter a
conflict set keeps and the rule that reads it. `VoteRule` is that difference;
`avalancheRule` and `blizzardRule` are the two files' versions of it, and every
definition below takes a rule.

This module models the part of the state that transactions live in: the DAG of
the transactions that are not accepted yet, their conflict sets, their
confidence and the cache of `is_strongly_preferred`. The votes that drive it
are in `Copycat.Avalanche.Decision`.

`history` is not in the source. It lists the operations made on the ledger,
oldest first; nothing reads it, it is what the theorems about whole runs speak
about. For its sake the two walks of `handle_votes` are told the query slot
they are made for. Logging and statistics are left out, and the counters are
natural numbers: `u64` counters that grow by one per query do not overflow,
and the one subtraction does not underflow (`confidence_le_totalRounds`).
-/

namespace Copycat.Avalanche

open Copycat.Lib

/-- `AvalancheTxn`. -/
inductive AvalancheTxn where
  | send (sender : PubKey) (inUtxo : List Hash) (receiver : PubKey) (outUtxo : UInt64)
      (remainder : UInt64) (senderSignature : Signature)
  | grant (outUtxo : UInt64) (receiver : PubKey) (nonce : UInt64)
  | noop (parents : List Hash)
  | placeHolder
deriving DecidableEq, Repr

namespace AvalancheTxn

/-- The parents a transaction gets in the DAG. -/
def parents : AvalancheTxn → List Hash
  | send _ inUtxo .. => inUtxo
  | noop parents => parents
  | _ => []

/-- The conflict sets a transaction is in, in the order it lists its inputs. -/
def utxos : AvalancheTxn → List Utxo
  | send sender inUtxo .. => inUtxo.map fun h => (h, sender)
  | _ => []

/-- Whether the transaction is committed once it is accepted. -/
def commits : AvalancheTxn → Bool
  | send .. => true
  | grant .. => true
  | _ => false

end AvalancheTxn

/-- `AvalancheTxn::compute_id`. A parent's id is part of what is hashed, so the
parents of a transaction have been made before it (`rank`). -/
structure TxnIds where
  txnId : AvalancheTxn → Hash
  rank : Hash → Nat
  rank_parent : ∀ txn : AvalancheTxn, ∀ p ∈ txn.parents, rank p < rank (txnId txn)

/-! ## The two voting rules -/

/-- What the two decision stages do differently: the counter of a conflict set,
what a successful query through a transaction does to it, what a failed one
does (in Blizzard nothing is walked), and how the counters of a transaction's
conflict sets are drawn together and compared with `beta`. -/
structure VoteRule (C : Type) where
  fresh : C
  bump : Hash → C → C
  reset : Option (C → C)
  start : Nat → Nat
  tally : Nat → C → Nat → Nat
  accepts : UInt64 → Nat → Nat → Bool

/-- `last` and `count` of Avalanche's `ConflictSet`. -/
structure Streak where
  last : Option Hash
  count : Nat
deriving DecidableEq, Repr

/-- The rule of `AvalancheDecision`: the lowest of the confidence and the
consecutive counters. -/
def avalancheRule : VoteRule Streak where
  fresh := ⟨none, 0⟩
  bump txnId ct :=
    if some txnId = ct.last then { ct with count := ct.count + 1 } else ⟨some txnId, 1⟩
  reset := some fun ct => { ct with count := 0 }
  start confidenceScore := confidenceScore
  tally _ ct count := if ct.count < count then ct.count else count
  accepts beta _ count := decide (count ≥ beta.toNat)

/-- The rule of `BlizzardDecision`, whose conflict sets count `total_rounds`:
the confidence against the rounds that went to others. The sum with `beta` is
one of `u64`s and wraps in a release build. -/
def blizzardRule : VoteRule Nat where
  fresh := 0
  bump _ totalRounds := totalRounds + 1
  reset := none
  start _ := 0
  tally confidenceScore totalRounds conflictCount :=
    conflictCount + (totalRounds - confidenceScore)
  accepts beta confidenceScore conflictCount :=
    decide (confidenceScore ≥ (beta + UInt64.ofNat conflictCount).toNat)

/-- `ConflictSet`. -/
structure ConflictSet (C : Type) where
  hasConflicts : Bool
  pref : Hash
  ctr : C
deriving DecidableEq, Repr

/-- `DagNode`. -/
structure DagNode where
  parents : List Hash
  children : List Hash
deriving DecidableEq, Repr

/-- A position in a block of this node: the block id and the index. -/
abbrev Slot := Nat × Nat

/-- The operations on the ledger: a transaction is recorded, its preference is
checked, the query of a slot is decided, a transaction is bumped by a
successful query (with the verdict on its acceptance), accepted, or reset by a
failed query. -/
inductive Op where
  | record (txn : AvalancheTxn)
  | check (txnHash : Hash)
  | ask (slot : Slot) (txnHash : Hash) (acceptVotes : Nat)
  | bump (slot : Slot) (txnHash : Hash) (isAccepted : Bool)
  | accept (txnHash : Hash)
  | reset (slot : Slot) (txnHash : Hash)
deriving DecidableEq, Repr

/-- `txn_dag`. -/
abbrev TxnDag := Hash → Option DagNode

/-- `preference_cache`. -/
abbrev PrefCache := Hash → Option Bool

/-- The part of the decision stage that transactions live in. -/
structure Ledger (C : Type) where
  txnPool : Hash → Option AvalancheTxn
  txnDag : TxnDag
  conflictSets : Utxo → Option (ConflictSet C)
  confidence : Hash → Option Nat
  preferenceCache : PrefCache
  history : List Op

/-- The ledger of a fresh node. -/
def Ledger.new (C : Type) : Ledger C where
  txnPool := fun _ => none
  txnDag := fun _ => none
  conflictSets := fun _ => none
  confidence := fun _ => none
  preferenceCache := fun _ => none
  history := []

/-- The constants of a node. `verify` is the signature check of the crypto
scheme on a vote. -/
structure Config (C : Type) where
  ids : TxnIds
  rule : VoteRule C
  self : NodeId
  k : Nat
  voteThresh : Nat
  beta1 : UInt64
  beta2 : UInt64
  voteTimeout : Nat
  verify : NodeId → Nat × List Bool → Signature → Bool

variable {C : Type}

/-! ## Recording a transaction -/

/-- Add `child` to the children of `parent`, if `parent` is in the DAG. -/
def addChild (child : Hash) (dag : TxnDag) (parent : Hash) : TxnDag :=
  match dag parent with
  | some node =>
    Function.update dag parent (some { node with children := node.children ++ [child] })
  | none => dag

/-- Enter a transaction in a conflict set. -/
def openSet (rule : VoteRule C) (txnHash : Hash) (sets : Utxo → Option (ConflictSet C))
    (utxo : Utxo) : Utxo → Option (ConflictSet C) :=
  match sets utxo with
  | none => Function.update sets utxo (some ⟨false, txnHash, rule.fresh⟩)
  | some ct => Function.update sets utxo (some { ct with hasConflicts := true })

/-- The branch of `new_tail` for a transaction that has not been seen. -/
def recordTxn (cfg : Config C) (l : Ledger C) (txn : AvalancheTxn) : Ledger C :=
  let txnHash := cfg.ids.txnId txn
  { txnPool := Function.update l.txnPool txnHash (some txn)
    txnDag := txn.parents.foldl (addChild txnHash)
      (Function.update l.txnDag txnHash (some ⟨txn.parents, []⟩))
    conflictSets := txn.utxos.foldl (openSet cfg.rule txnHash) l.conflictSets
    confidence := Function.update l.confidence txnHash (some 0)
    preferenceCache := l.preferenceCache
    history := l.history ++ [.record txn] }

/-! ## Preference -/

/-- `is_preferred`. -/
def isPreferred (l : Ledger C) (txnHash : Hash) : Res Bool :=
  unwrap (l.txnPool txnHash) >>= fun txn =>
  match txn with
  | .placeHolder => .error .panic
  | _ => txn.utxos.foldlM
      (fun preferred utxo =>
        unwrap (l.conflictSets utxo) >>= fun ct =>
        .ok (if ct.pref ≠ txnHash then false else preferred)) true

/-- The loop over the parents, which breaks at the first one that is not
strongly preferred. -/
def allParents (f : PrefCache → Hash → Res (PrefCache × Bool)) :
    PrefCache → List Hash → Res (PrefCache × Bool)
  | cache, [] => .ok (cache, true)
  | cache, parent :: rest =>
    f cache parent >>= fun (cache, b) =>
    if b then allParents f cache rest else .ok (cache, false)

/-- `is_strongly_preferred`, which writes nothing but the cache. -/
def stronglyPreferred (l : Ledger C) : Nat → PrefCache → Hash → Res (PrefCache × Bool)
  | 0, _, _ => .error .diverge
  | fuel + 1, cache, txnHash =>
    match l.txnDag txnHash with
    | none => .ok (cache, true) -- since the txn is already accepted
    | some dagNode =>
      match cache txnHash with
      | some b => .ok (cache, b)
      | none =>
        isPreferred l txnHash >>= fun preferred =>
        (if preferred then allParents (stronglyPreferred l fuel) cache dagNode.parents
          else .ok (cache, false)) >>= fun (cache, result) =>
        .ok (Function.update cache txnHash (some result), result)

/-- `is_strongly_preferred` on the ledger. -/
def isStronglyPreferred (fuel : Nat) (l : Ledger C) (txnHash : Hash) : Res (Ledger C × Bool) :=
  stronglyPreferred l fuel l.preferenceCache txnHash >>= fun (cache, result) =>
  .ok ({ l with preferenceCache := cache, history := l.history ++ [.check txnHash] }, result)

/-! ## A successful query -/

/-- The loop that invalidates the cache below a frontier. -/
def invalidate (dag : TxnDag) : Nat → PrefCache → List Hash → Res PrefCache
  | _, cache, [] => .ok cache
  | 0, _, _ :: _ => .error .diverge
  | fuel + 1, cache, txn :: rest =>
    match dag txn with
    | some node => invalidate dag fuel (Function.update cache txn none) (rest ++ node.children)
    | none => invalidate dag fuel (Function.update cache txn none) rest

/-- What the loop over the inputs carries along: the conflict sets, the cache,
`has_conflicts` and `count` (`conflict_count` in Blizzard). -/
structure Tally (C : Type) where
  conflictSets : Utxo → Option (ConflictSet C)
  preferenceCache : PrefCache
  hasConflicts : Bool
  count : Nat

/-- Hand the preference over, if the transaction has overtaken the preferred
one. By the time the frontier is filled, `ct.pref` is the new preference. -/
def switchPref (fuel : Nat) (l : Ledger C) (txnId : Hash) (confidenceScore : Nat)
    (cache : PrefCache) (ct : ConflictSet C) : Res (ConflictSet C × PrefCache) :=
  if ct.pref = txnId then .ok (ct, cache)
  else
    unwrap (l.confidence ct.pref) >>= fun prefConfidenceScore =>
    if prefConfidenceScore < confidenceScore then
      let ct := { ct with pref := txnId }
      invalidate l.txnDag fuel cache [ct.pref, txnId] >>= fun cache => .ok (ct, cache)
    else .ok (ct, cache)

/-- One iteration of the loop over the inputs. -/
def bumpInput (cfg : Config C) (fuel : Nat) (l : Ledger C) (txnId : Hash)
    (confidenceScore : Nat) (t : Tally C) (utxo : Utxo) : Res (Tally C) :=
  unwrap (t.conflictSets utxo) >>= fun ct =>
  switchPref fuel l txnId confidenceScore t.preferenceCache ct >>= fun (ct, cache) =>
  let ct := { ct with ctr := cfg.rule.bump txnId ct.ctr }
  .ok
    { conflictSets := Function.update t.conflictSets utxo (some ct)
      preferenceCache := cache
      hasConflicts := t.hasConflicts || ct.hasConflicts
      count := cfg.rule.tally confidenceScore ct.ctr t.count }

/-- The part of `handle_votes_helper` after the parents: update the confidence
and the conflict sets of the transaction, and decide whether it is accepted. -/
def bump (cfg : Config C) (slot : Slot) (fuel : Nat) (l : Ledger C) (txnId : Hash)
    (dagNode : DagNode) : Res (Ledger C × Bool) :=
  unwrap (l.confidence txnId) >>= fun confidence =>
  let confidenceScore := confidence + 1
  let l := { l with confidence := Function.update l.confidence txnId (some confidenceScore) }
  unwrap (l.txnPool txnId) >>= fun txn =>
  match txn with
  | .placeHolder => .error .panic
  | _ =>
    txn.utxos.foldlM (bumpInput cfg fuel l txnId confidenceScore)
      ⟨l.conflictSets, l.preferenceCache, false, cfg.rule.start confidenceScore⟩ >>= fun t =>
    let parentsAccepted := dagNode.parents.all fun parent => (l.txnDag parent).isNone
    let isAccepted :=
      if parentsAccepted && !t.hasConflicts then
        cfg.rule.accepts cfg.beta1 confidenceScore t.count -- safe early commitment
      else cfg.rule.accepts cfg.beta2 confidenceScore t.count
    .ok ({ l with
            conflictSets := t.conflictSets
            preferenceCache := t.preferenceCache
            history := l.history ++ [.bump slot txnId isAccepted] }, isAccepted)

/-- Take an accepted transaction out of the DAG. -/
def acceptTxn (l : Ledger C) (txnId : Hash) : Ledger C :=
  { l with
    txnDag := Function.update l.txnDag txnId none
    preferenceCache := Function.update l.preferenceCache txnId none
    history := l.history ++ [.accept txnId] }

/-- `handle_votes_helper`: the ancestors first, then the transaction itself.
Returns the `dedup` set and the list of committed transactions. -/
def handleVotesHelper (cfg : Config C) (slot : Slot) :
    Nat → Ledger C → Finset Hash → Hash → Res (Ledger C × Finset Hash × List Hash)
  | 0, _, _, _ => .error .diverge
  | fuel + 1, l, dedup, txnId =>
    if txnId ∈ dedup then .ok (l, dedup, [])
    else
      match l.txnDag txnId with
      | none => .ok (l, insert txnId dedup, []) -- the txn is already committed
      | some dagNode =>
        dagNode.parents.foldlM
          (fun (acc : Ledger C × Finset Hash × List Hash) parent =>
            handleVotesHelper cfg slot fuel acc.1 acc.2.1 parent >>= fun r =>
            .ok (r.1, r.2.1, acc.2.2 ++ r.2.2))
          (l, insert txnId dedup, []) >>= fun (l, dedup, commitList) =>
        bump cfg slot fuel l txnId dagNode >>= fun (l, isAccepted) =>
        if isAccepted then
          .ok (acceptTxn l txnId, dedup,
            if ((l.txnPool txnId).map AvalancheTxn.commits).getD false then commitList ++ [txnId]
            else commitList)
        else .ok (l, dedup, commitList)

/-! ## A failed query -/

/-- Set the counters of a transaction's conflict sets back. -/
def resetTxn (reset : C → C) (slot : Slot) (l : Ledger C) (txnHash : Hash) : Res (Ledger C) :=
  unwrap (l.txnPool txnHash) >>= fun txn =>
  txn.utxos.foldlM
    (fun sets utxo =>
      unwrap (sets utxo) >>= fun ct =>
      .ok (Function.update sets utxo (some { ct with ctr := reset ct.ctr }))) l.conflictSets
    >>= fun sets =>
  .ok { l with conflictSets := sets, history := l.history ++ [.reset slot txnHash] }

/-- The walk over the ancestors after a failed query. -/
def resetWalk (reset : C → C) (slot : Slot) :
    Nat → Ledger C → Finset Hash → List Hash → Res (Ledger C)
  | _, l, _, [] => .ok l
  | 0, _, _, _ :: _ => .error .diverge
  | fuel + 1, l, dedup, txnHash :: rest =>
    if txnHash ∈ dedup then resetWalk reset slot fuel l dedup rest
    else
      match l.txnDag txnHash with
      | none => resetWalk reset slot fuel l (insert txnHash dedup) rest
      | some dagNode =>
        resetTxn reset slot l txnHash >>= fun l =>
        resetWalk reset slot fuel l (insert txnHash dedup) (rest ++ dagNode.parents)

/-- Decide the query of one slot: returns the transactions it commits. -/
def decideSlot (cfg : Config C) (fuel : Nat) (slot : Slot) (l : Ledger C) (txnHash : Hash)
    (acceptVotes : Nat) : Res (Ledger C × List Hash) :=
  let l := { l with history := l.history ++ [.ask slot txnHash acceptVotes] }
  if acceptVotes ≥ cfg.voteThresh then
    handleVotesHelper cfg slot fuel l ∅ txnHash >>= fun r => .ok (r.1, r.2.2)
  else
    match cfg.rule.reset with
    | some reset => resetWalk reset slot fuel l ∅ [txnHash] >>= fun l => .ok (l, [])
    | none => .ok (l, [])

end Copycat.Avalanche
