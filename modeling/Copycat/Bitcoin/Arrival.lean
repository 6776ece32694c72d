import Copycat.Bitcoin.Network
import Copycat.TxnsSeen

/-!
# The order in which blocks arrive

The peer-block path of `block_management_thread`: a block whose id is in
`blks_seen` is skipped, any other is entered there, goes through the signature
pre-check and then to `validate_block`. The pre-checks run in tasks of their
own; the order of arrival is the order in which they hand their blocks over.

A block is entered in `blks_seen` before it is validated, and it is validated
against the transactions that happen to be in `txn_pool`. `admitted` says which
blocks of an order get past that check, by looking at ids only: every `Send`
must name transactions met before. What the check refuses is gone for good,
since a second delivery is skipped.

What the node leaves behind when it moves to a longer branch is undone, and
that loses outputs where an undone transaction stands on the chain a second
time. `LeavesUnrepeated` asks of a delivery that it does not come to that; a set
that does not fork never does (`leavesUnrepeated_of_forks`).

`arrival_order` settles what the two do to a finite set of valid blocks: where
nothing repeated is undone, the final chain length is the maximal height iff
some block of that height has only admitted blocks on its path.
`arrival_order_matters` is the order in which none has.
-/

namespace Copycat.Bitcoin

open Copycat.Lib

variable {ids : IdScheme}

/-- `BitcoinTxn::validate`, over the `verify` of the crypto scheme. -/
def BitcoinTxn.validate (verify : PubKey → List Hash → Signature → Option Bool) :
    BitcoinTxn → Res (Option Bool)
  | .send t => .ok (verify t.sender t.inUtxo t.senderSignature)
  | .grant .. | .incentive .. => .ok (some true)

/-- What the peer-block path works on. -/
structure PeerPath where
  blksSeen : Finset Hash
  txnsSeen : SeenMap
  management : BlockManagement

def PeerPath.new : PeerPath where
  blksSeen := ∅
  txnsSeen := fun _ => none
  management := .new

/-- The branches `peer_blk` and `pending_blk` for one block of a peer. -/
def receive (ids : IdScheme) (validate : BitcoinTxn → Res (Option Bool)) (ord : HashOrder)
    (fuel : Nat) (s : PeerPath) (block : Block) : Res PeerPath :=
  let blkId := ids.blkId block.header
  if blkId ∈ s.blksSeen then .ok s
  else
    let checked := preCheck ids.txnId validate s.txnsSeen block.txns
    let s := { s with blksSeen := insert blkId s.blksSeen, txnsSeen := checked.1 }
    if checked.2 then
      validateBlock ids ord fuel s.management block >>= fun v =>
      .ok { s with management := v.state }
    else .ok s

/-- The path as a machine: one block after the other. -/
def peerPath (ids : IdScheme) (validate : BitcoinTxn → Res (Option Bool)) :
    Machine PeerPath Block where
  start := .new
  step s block s' := ∃ ord fuel, receive ids validate ord fuel s block = .ok s'

/-! ## Which blocks get past the transaction check -/

/-- The ids known after a list of transactions has been met, and whether all of
them named only known transactions. -/
def meet (ids : IdScheme) (known : Finset Hash) : List BitcoinTxn → Finset Hash × Bool
  | [] => (known, true)
  | t :: txns =>
    if t.inputs.all fun k => k.1 ∈ known then meet ids (insert (ids.txnId t) known) txns
    else (known, false)

/-- The blocks of an order all of whose transactions name transactions met
before. -/
def admitted (ids : IdScheme) (known : Finset Hash) : List Block → List Block
  | [] => []
  | block :: order =>
    if (meet ids known block.txns).2 then
      block :: admitted ids (meet ids known block.txns).1 order
    else admitted ids (meet ids known block.txns).1 order

/-- The ids known after an order. -/
def metAfter (ids : IdScheme) (known : Finset Hash) (order : List Block) : Finset Hash :=
  order.foldl (fun known block => (meet ids known block.txns).1) known

theorem admitted_append (xs ys : List Block) : ∀ known : Finset Hash,
    admitted ids known (xs ++ ys) =
      admitted ids known xs ++ admitted ids (metAfter ids known xs) ys := by
  induction xs with
  | nil => exact fun _ => rfl
  | cons block xs ih =>
    intro known
    rw [List.cons_append, admitted, admitted, ih]
    split
    · rfl
    · rfl

theorem admitted_subset {order : List Block} : ∀ {known : Finset Hash},
    ∀ b ∈ admitted ids known order, b ∈ order := by
  induction order with
  | nil => intro known b hb; exact hb
  | cons block order ih =>
    intro known b hb
    rw [admitted] at hb
    split at hb
    · rcases List.mem_cons.mp hb with rfl | hb
      · exact List.mem_cons_self ..
      · exact List.mem_cons_of_mem _ (ih b hb)
    · exact List.mem_cons_of_mem _ (ih b hb)

/-- `known` is the set of stored ids, and what a stored transaction names is
stored. -/
structure Knows (ids : IdScheme) (pool : Hash → Option BitcoinTxn) (known : Finset Hash) :
    Prop where
  stored : Stored ids (Balanced ids) pool
  mem : ∀ h, h ∈ known ↔ (pool h).isSome
  closed : ∀ h t, pool h = some t → ∀ k ∈ t.inputs, k.1 ∈ known

theorem Knows.insert {pool : Hash → Option BitcoinTxn} {known : Finset Hash}
    (h : Knows ids pool known) {t : BitcoinTxn} (hbal : Balanced ids t)
    (hin : ∀ k ∈ t.inputs, k.1 ∈ known) :
    Knows ids (Function.update pool (ids.txnId t) (some t)) (insert (ids.txnId t) known) := by
  refine ⟨stored_insert h.stored hbal, fun x => ?_, fun x t' ht' k hk => ?_⟩
  · by_cases hx : x = ids.txnId t
    · simp [hx]
    · rw [Function.update_of_ne hx, Finset.mem_insert, h.mem]
      simp [hx]
  · refine Finset.mem_insert_of_mem ?_
    by_cases hx : x = ids.txnId t
    · rw [hx, Function.update_self, Option.some.injEq] at ht'
      exact hin k (ht' ▸ hk)
    · rw [Function.update_of_ne hx] at ht'
      exact h.closed x t' ht' k hk

/-- The transaction loop of `validate_block`, on balanced transactions, is
`meet`. -/
theorem validateTxns_eq_meet {txns : List BitcoinTxn} (hbal : ∀ t ∈ txns, Balanced ids t) :
    ∀ {pool : Hash → Option BitcoinTxn} {known : Finset Hash}, Knows ids pool known →
      ∃ pool', validateTxns ids pool txns = .ok (pool', (meet ids known txns).2) ∧
        Knows ids pool' (meet ids known txns).1 := by
  induction txns with
  | nil =>
    intro pool known h
    exact ⟨pool, rfl, h⟩
  | cons t txns ih =>
    intro pool known h
    have ih' := @ih fun t' ht' => hbal t' (List.mem_cons_of_mem _ ht')
    have hb := hbal t (List.mem_cons_self ..)
    rw [validateTxns, meet]
    by_cases hknown : (pool (ids.txnId t)).isSome
    · -- what it names was known when it was stored
      obtain ⟨t', ht'⟩ := Option.isSome_iff_exists.mp hknown
      have he : t' = t := ids.txnId_inj (h.stored _ _ ht').1
      subst he
      have hin : t'.inputs.all (fun k => k.1 ∈ known) = true := by
        rw [List.all_eq_true]
        intro k hk
        simpa using h.closed _ _ ht' k hk
      rw [if_pos hknown, if_pos hin, Finset.insert_eq_of_mem ((h.mem _).mpr hknown)]
      exact ih' h
    · rw [if_neg hknown]
      by_cases hin : t.inputs.all (fun k => k.1 ∈ known) = true
      · have hin' : ∀ k ∈ t.inputs, k.1 ∈ known := by
          intro k hk
          simpa using List.all_eq_true.mp hin k hk
        rw [if_pos hin, validateTxn_of_balanced h.stored hb fun k hk => (h.mem _).mp (hin' k hk)]
        exact ih' (h.insert hb hin')
      · have hfalse : validateTxn pool t = .ok false := by
          cases t with
          | incentive o r => exact absurd hb (by simp [Balanced])
          | grant o r => exact absurd hin (by simp [BitcoinTxn.inputs])
          | send t =>
            have hne : inputValue pool t.sender t.inUtxo 0 ≠ some (t.outUtxo + t.remainder) := by
              intro hv
              refine hin (List.all_eq_true.mpr fun k hk => ?_)
              obtain ⟨x, hx, rfl⟩ := List.mem_map.mp hk
              simpa using (h.mem _).mpr (isSome_of_inputValue hv x hx)
            simp [validateTxn, hne]
        rw [if_neg hin, hfalse]
        exact ⟨pool, rfl, h⟩

/-- What `validate_block` does with a new block, by the outcome of its
transaction loop. -/
theorem Outcome.admits {ord : HashOrder} {s : BlockManagement} {block : Block} {v : Validated}
    {txnPool : Hash → Option BitcoinTxn} {valid : Bool} (hinv : ChainInv ids s)
    (hfresh : s.blockPool (ids.blkId block.header) = none) (hnonce : block.header.nonce = 1)
    (htx : validateTxns ids s.txnPool block.txns = .ok (txnPool, valid))
    (h : Outcome ids ord s block v) :
    v.state.txnPool = txnPool ∧ Extends s.blockPool v.state.blockPool ∧
      (valid = false → v.state.blockPool = s.blockPool) ∧
      (valid = true → ∃ n, v.state.blockPool (ids.blkId block.header) = some (block, n)) := by
  have hrefl : Extends s.blockPool s.blockPool := fun _ b n hb => ⟨n, hb⟩
  have hsame : ∀ {pool valid'}, validateTxns ids s.txnPool block.txns = .ok (pool, valid') →
      pool = txnPool ∧ valid' = valid := by
    intro pool valid' h'
    rw [htx, Except.ok.injEq, Prod.mk.injEq] at h'
    exact ⟨h'.1.symm, h'.2.symm⟩
  have hconn : ∀ {pool r}, Connects ids s block pool r → pool = txnPool ∧ valid = true ∧
      r.1.blockPool (ids.blkId block.header) =
        some (block, blkHeight s.blockPool block.prev) := by
    intro pool r hc
    obtain ⟨hpool, hvalid⟩ := hsame hc.txns
    refine ⟨hpool, hvalid.symm, ?_⟩
    rw [hc.updated.pool_frame _ hinv.pools.not_below_self]
    exact Function.update_self ..
  cases h with
  | ignored hign =>
    rcases hign with hign | hign
    · rw [hfresh] at hign
      exact absurd hign (by simp)
    · exact absurd hnonce hign
  | rejected _ htx' =>
    obtain ⟨rfl, rfl⟩ := hsame htx'
    exact ⟨rfl, hrefl, fun _ => rfl, fun h => absurd h (by simp)⟩
  | parked _ htx' _ =>
    obtain ⟨rfl, rfl⟩ := hsame htx'
    exact ⟨rfl, extends_insert hfresh, fun h => absurd h (by simp),
      fun _ => ⟨0, Function.update_self ..⟩⟩
  | shorter hc _ _ =>
    obtain ⟨rfl, rfl, hself⟩ := hconn hc
    exact ⟨rfl, hc.extends, fun h => absurd h (by simp), fun _ => ⟨_, hself⟩⟩
  | invalid hc _ _ =>
    obtain ⟨rfl, rfl, hself⟩ := hconn hc
    exact ⟨rfl, hc.extends, fun h => absurd h (by simp), fun _ => ⟨_, hself⟩⟩
  | adopted hc _ _ =>
    obtain ⟨rfl, rfl, hself⟩ := hconn hc
    exact ⟨rfl, hc.extends, fun h => absurd h (by simp), fun _ => ⟨_, hself⟩⟩

/-! ## Sets of valid blocks -/

/-- A finite set of blocks, closed under parents, each valid along its own
path. -/
structure ValidTree (ids : IdScheme) (validate : BitcoinTxn → Res (Option Bool))
    (blocks : List Block) : Prop where
  distinct : (blocks.map fun b => ids.blkId b.header).Nodup
  closed : ∀ b ∈ blocks, b.prev = 0 ∨ ∃ b' ∈ blocks, ids.blkId b'.header = b.prev
  nonce : ∀ b ∈ blocks, b.header.nonce = 1
  signed : ∀ b ∈ blocks, ∀ t ∈ b.txns, validate t = .ok (some true)
  valid : ∀ h p, PathTo (netPool ids blocks) h p →
    ValidPath ids p ∧ ∀ t ∈ chainTxns p, Balanced ids t

/-- Where two branches of the set fork, the shorter one has no transaction
twice, and none of those below the fork. -/
def ForksUnrepeated (ids : IdScheme) (blocks : List Block) : Prop :=
  ∀ h h' anc new old, PathTo (netPool ids blocks) h (anc ++ old) →
    PathTo (netPool ids blocks) h' (anc ++ new) → Apart new old → old.length < new.length →
    Unrepeated ids (chainTxns anc) (chainTxns old)

/-- The heights of the set. -/
def heights (ids : IdScheme) (blocks : List Block) : Set Nat :=
  fun n => ∃ h p, PathTo (netPool ids blocks) h p ∧ p.length = n

section Tree

variable {validate : BitcoinTxn → Res (Option Bool)} {order : List Block}

/-- Every block of the set has its path in it. -/
theorem ValidTree.path (h : ValidTree ids validate order) :
    ∀ b ∈ order, ∃ p, PathTo (netPool ids order) (ids.blkId b.header) p := by
  have hrank : ∀ r, ∀ b ∈ order, ids.rank (ids.blkId b.header) ≤ r →
      ∃ p, PathTo (netPool ids order) (ids.blkId b.header) p := by
    intro r
    induction r with
    | zero =>
      intro b hb hr
      have := ids.rank_prev b.header
      omega
    | succ r ih =>
      intro b hb hr
      have hself := netPool_of_mem h.distinct b hb
      rcases h.closed b hb with h0 | ⟨b', hb', hprev⟩
      · exact ⟨_, .snoc hself (PathTo.nil_iff.mpr h0)⟩
      · have hlt := ids.rank_prev b.header
        have hle : ids.rank (ids.blkId b'.header) ≤ r := by
          rw [hprev]
          show ids.rank b.header.prevHash ≤ r
          omega
        obtain ⟨p, hp⟩ := ih b' hb' hle
        exact ⟨_, .snoc hself (hprev ▸ hp)⟩
  exact fun b hb => hrank _ b hb (Nat.le_refl _)

theorem ValidTree.balanced (h : ValidTree ids validate order) {b : Block} (hb : b ∈ order)
    {t : BitcoinTxn} (ht : t ∈ b.txns) : Balanced ids t := by
  obtain ⟨p, hp⟩ := h.path b hb
  have hmem : b ∈ p := by
    rcases hp.end_cases with ⟨h0, -⟩ | ⟨b', n, q, rfl, hb', -⟩
    · exact absurd h0 (ids.blkId_ne_zero _)
    · rw [netPool_of_mem h.distinct b hb, Option.some.injEq, Prod.mk.injEq] at hb'
      simp [hb'.1]
  exact (h.valid _ p hp).2 t (List.mem_flatMap.mpr ⟨b, hmem, ht⟩)

/-! ## Deliveries -/

/-- Where the node stands after the first deliveries of `done`. -/
structure Arrived (ids : IdScheme) (done : List Block) (s : PeerPath) : Prop where
  seen : ∀ h, h ∈ s.blksSeen ↔ ∃ b ∈ done, ids.blkId b.header = h
  signed : ∀ h, s.txnsSeen h ≠ some false
  knows : Knows ids s.management.txnPool (metAfter ids ∅ done)
  pooled : ∀ h b n, s.management.blockPool h = some (b, n) → b ∈ admitted ids ∅ done
  kept : ∀ b ∈ admitted ids ∅ done,
    ∃ n, s.management.blockPool (ids.blkId b.header) = some (b, n)
  chain : ChainInv ids s.management

theorem arrived_new : Arrived ids [] PeerPath.new where
  seen h := by simp [PeerPath.new]
  signed h := by simp [PeerPath.new]
  knows := by
    refine ⟨fun h t ht => absurd ht (by simp [PeerPath.new, BlockManagement.new]), fun h => ?_,
      fun h t ht => absurd ht (by simp [PeerPath.new, BlockManagement.new])⟩
    simp [metAfter, PeerPath.new, BlockManagement.new]
  pooled h b n hb := absurd hb (by simp [PeerPath.new, BlockManagement.new])
  kept b hb := absurd hb (by simp [admitted])
  chain := chainInv_new

/-- The chain is a longest one, and what it leaves unspent is in the UTXO set. -/
def Leading (ids : IdScheme) (s : BlockManagement) : Prop :=
  ∃ p, PathTo s.blockPool s.chainTail p ∧ (∀ k, Left ids (chainTxns p) k → k ∈ s.utxo) ∧
    Longest ids s p

theorem leading_new : Leading ids BlockManagement.new := by
  refine ⟨[], .genesis, (tracked_nil ids).left, fun h q hq _ => ?_⟩
  rcases hq.end_cases with ⟨-, rfl⟩ | ⟨b, n, q', -, hb, -⟩
  · exact Nat.le_refl _
  · exact absurd hb (by simp [BlockManagement.new])

/-- On the block the node may move from the chain `p` to the chain `q`: the
block connects, and `q` is then a longest path, longer than `p`. -/
structure MayMove (ids : IdScheme) (s : BlockManagement) (block : Block) (p q : List Block) :
    Prop where
  connectable : Connectable ids s block
  chain : PathTo s.blockPool s.chainTail p
  path : ∃ h, PathTo (withBlock ids s.blockPool block) h q
  longer : p.length < q.length
  longest : ∀ h q', PathTo (withBlock ids s.blockPool block) h q' → q'.length ≤ q.length

/-- If a block that was not seen before makes the node leave a branch, that
branch has no transaction twice, and none of those below the fork. -/
def LeavesUnrepeated (ids : IdScheme) (s : PeerPath) (block : Block) : Prop :=
  ids.blkId block.header ∉ s.blksSeen → ∀ anc new old,
    MayMove ids s.management block (anc ++ old) (anc ++ new) → Apart new old →
    Unrepeated ids (chainTxns anc) (chainTxns old)

section Delivery

variable {done rest : List Block} {block : Block} {s : PeerPath}

/-- The pool of the node, with the next block, is part of the set. -/
theorem Arrived.extends (htree : ValidTree ids validate order)
    (ho : order = done ++ block :: rest) (h : Arrived ids done s) :
    Extends (withBlock ids s.management.blockPool block) (netPool ids order) := by
  intro hash b n hb
  have hmem : b ∈ order ∧ ids.blkId b.header = hash := by
    unfold withBlock at hb
    by_cases hh : hash = ids.blkId block.header
    · rw [hh, Function.update_self, Option.some.injEq, Prod.mk.injEq] at hb
      rw [← hb.1, hh, ho]
      simp
    · rw [Function.update_of_ne hh] at hb
      have := admitted_subset b (h.pooled hash b n hb)
      refine ⟨?_, h.chain.pools.keyed hash b n hb⟩
      rw [ho]
      simp [this]
  exact ⟨0, hmem.2 ▸ netPool_of_mem htree.distinct b hmem.1⟩

/-- The next block has not been seen, and is not pooled. -/
theorem Arrived.unseen (htree : ValidTree ids validate order)
    (ho : order = done ++ block :: rest) (h : Arrived ids done s) :
    ids.blkId block.header ∉ s.blksSeen ∧
      s.management.blockPool (ids.blkId block.header) = none := by
  have hnew : ∀ b ∈ done, ids.blkId b.header ≠ ids.blkId block.header := by
    intro b hb he
    have hd := htree.distinct
    rw [ho, List.map_append, List.map_cons] at hd
    exact (List.nodup_append.mp hd).2.2 _ (List.mem_map.mpr ⟨b, hb, rfl⟩) _
      (List.mem_cons_self ..) he
  constructor
  · intro hmem
    obtain ⟨b, hb, he⟩ := (h.seen _).mp hmem
    exact hnew b hb he
  · cases hx : s.management.blockPool (ids.blkId block.header) with
    | none => rfl
    | some x =>
      have hb := admitted_subset x.1 (h.pooled _ x.1 x.2 hx)
      exact absurd (h.chain.pools.keyed _ x.1 x.2 hx) (hnew x.1 hb)

/-- Everything on a path of the node is valid. -/
theorem Arrived.valid (htree : ValidTree ids validate order)
    (ho : order = done ++ block :: rest) (h : Arrived ids done s) {hash : Hash} {q : List Block}
    (hq : PathTo (withBlock ids s.management.blockPool block) hash q) : ValidPath ids q :=
  (htree.valid hash q (hq.mono (h.extends htree ho))).1

/-- The branches of the set bound what the next block can make the node
leave. -/
theorem leavesUnrepeated_of_forks (htree : ValidTree ids validate order)
    (hforks : ForksUnrepeated ids order) (ho : order = done ++ block :: rest)
    (h : Arrived ids done s) : LeavesUnrepeated ids s block := by
  intro _ anc new old hmove hapart
  obtain ⟨hash, hq⟩ := hmove.path
  have hext := h.extends htree ho
  have hlonger := hmove.longer
  rw [List.length_append, List.length_append] at hlonger
  refine hforks _ _ anc new old ((hmove.chain.mono ?_).mono hext) (hq.mono hext) hapart (by omega)
  exact extends_insert hmove.connectable.fresh

/-- A block that connects and makes a longer branch lets the node move there. -/
theorem Arrived.mayMove (htree : ValidTree ids validate order)
    (ho : order = done ++ block :: rest) (h : Arrived ids done s) {p : List Block}
    (hp : PathTo s.management.blockPool s.management.chainTail p)
    (hlong : Longest ids s.management p) {txnPool : Hash → Option BitcoinTxn}
    {r : Pools × Hash × Nat} {anc new old : List Block}
    (hc : Connects ids s.management block txnPool r)
    (hbr : Branch r.1.blockPool s.management.chainTail r.2.1 anc new old) :
    p = anc ++ old ∧ MayMove ids s.management block (anc ++ old) (anc ++ new) := by
  have hkeyed := (hc.pools h.chain).keyed
  obtain rfl := (hp.mono hc.extends).unique hkeyed hbr.oldPath
  have hext := hc.extends_withBlock h.chain
  have hlonger : (anc ++ old).length < (anc ++ new).length := by
    have := hbr.longer
    rw [List.length_append, List.length_append]
    omega
  obtain ⟨P, x, hP, hlenP, -⟩ := hc.tail_path h.chain
  have htail := hbr.newPath.unique hkeyed hP
  refine ⟨rfl, hc.connectable, hp, ⟨_, hbr.newPath.mono hext⟩, hlonger, fun hash q' hq' => ?_⟩
  refine hlong.connected h.chain hc (Nat.le_of_lt hlonger) (by rw [htail, hlenP])
    (hq'.mono fun x b n hb => ?_) (h.valid htree ho hq')
  -- the pool with the block is the connected pool, but for heights
  unfold withBlock at hb
  by_cases hx : x = ids.blkId block.header
  · rw [hx, Function.update_self, Option.some.injEq, Prod.mk.injEq] at hb
    rw [hx, ← hb.1, hc.updated.pool_frame _ h.chain.pools.not_below_self]
    exact ⟨_, Function.update_self ..⟩
  · rw [Function.update_of_ne hx] at hb
    exact hc.extends x b n hb

/-- Where nothing repeated is undone, the chain stays a longest one: every
branch of the set can be replayed, so none is refused. -/
theorem Arrived.leads (htree : ValidTree ids validate order)
    (ho : order = done ++ block :: rest) (h : Arrived ids done s)
    (hlead : Leading ids s.management) (hleaves : LeavesUnrepeated ids s block)
    {ord : HashOrder} {v : Validated} (hout : Outcome ids ord s.management block v) :
    Leading ids v.state := by
  obtain ⟨p, hp, hutxo, hlong⟩ := hlead
  have hredo : ∀ {txnPool r anc new old}, Connects ids s.management block txnPool r →
      Branch r.1.blockPool s.management.chainTail r.2.1 anc new old →
      ∃ rd, redoBranch ids s.management.utxo old new = some rd ∧
        ∀ k, Left ids (chainTxns (anc ++ new)) k →
          k ∈ (s.management.utxo ∪ rd.delta.add) \ rd.delta.del := by
    intro txnPool r anc new old hc hbr
    obtain ⟨rfl, hmove⟩ := h.mayMove htree ho hp hlong hc hbr
    have hext := hc.extends_withBlock h.chain
    obtain ⟨⟨S, hS⟩, -⟩ := h.valid htree ho (hbr.oldPath.mono hext)
    obtain ⟨⟨S', hS'⟩, hok⟩ := h.valid htree ho (hbr.newPath.mono hext)
    refine redoBranch_covers anc new old hutxo hS
      (hleaves (h.unseen htree ho).1 anc new old hmove hbr.apart) hS' fun t ht => hok t ?_
    rw [chainTxns_append]
    exact List.mem_append_right _ ht
  cases hout with
  | ignored => exact ⟨p, hp, hutxo, hlong⟩
  | rejected => exact ⟨p, hp, hutxo, hlong⟩
  | parked hfresh _ h0 =>
    exact ⟨p, hp.mono (extends_insert hfresh), hutxo,
      fun _ q hq hvalid => hlong.parked h.chain hfresh h0 hq hvalid⟩
  | shorter hc hQ hle =>
    rw [hQ.unique (hc.pools h.chain).keyed (hp.mono hc.extends)] at hle
    exact ⟨p, hp.mono hc.extends, hutxo,
      fun _ q hq hvalid => hlong.connected h.chain hc (Nat.le_refl _) hle hq hvalid⟩
  | invalid hc hbr hrd =>
    obtain ⟨rd, hrd', -⟩ := hredo hc hbr
    rw [hrd] at hrd'
    exact absurd hrd' (by simp)
  | @adopted txnPool r anc new old rd hc hbr hrd =>
    obtain ⟨rd', hrd', hleft⟩ := hredo hc hbr
    obtain rfl : rd = rd' := Option.some.inj (hrd.symm.trans hrd')
    obtain ⟨rfl, hmove⟩ := h.mayMove htree ho hp hlong hc hbr
    obtain ⟨P, x, hP, hlenP, -⟩ := hc.tail_path h.chain
    refine ⟨anc ++ new, hbr.newPath, hleft, fun _ q hq hvalid =>
      hlong.connected h.chain hc (Nat.le_of_lt hmove.longer) ?_ hq hvalid⟩
    rw [hbr.newPath.unique (hc.pools h.chain).keyed hP, hlenP]

/-- `validate_block` on the next block. -/
theorem Arrived.validates (htree : ValidTree ids validate order)
    (ho : order = done ++ block :: rest) (h : Arrived ids done s) {ord : HashOrder} {fuel : Nat}
    {v : Validated} {seen : SeenMap} (hseen : ∀ x, seen x ≠ some false)
    (hv : validateBlock ids ord fuel s.management block = .ok v) :
    Arrived ids (done ++ [block])
      ⟨insert (ids.blkId block.header) s.blksSeen, seen, v.state⟩ := by
  have hblock : block ∈ order := by
    rw [ho]
    simp
  obtain ⟨-, hnone⟩ := h.unseen htree ho
  have hout := (validateBlock_spec ord h.chain block).1 _ _ hv
  obtain ⟨pool, htx, hknows⟩ := validateTxns_eq_meet
    (fun t ht => htree.balanced hblock ht) h.knows
  obtain ⟨hpool, hext, hfalse, htrue⟩ :=
    hout.admits h.chain hnone (htree.nonce block hblock) htx
  have hstep : Step (nodeConfig ids 0 0) s.management (.validateBlock block, v.newTail) v.state :=
    Step.validate hv
  have hchain : ChainInv (nodeConfig ids 0 0).ids s.management := h.chain
  have hadm : admitted ids ∅ (done ++ [block]) = admitted ids ∅ done ++
      if (meet ids (metAfter ids ∅ done) block.txns).2 then [block] else [] := by
    rw [admitted_append]
    rfl
  refine ⟨fun x => ?_, hseen, ?_, ?_, ?_, ?_⟩
  · rw [Finset.mem_insert, h.seen]
    simp [or_comm, eq_comm]
  · show Knows ids v.state.txnPool (metAfter ids ∅ (done ++ [block]))
    rw [hpool, metAfter, List.foldl_append]
    exact hknows
  · intro hash b n hb
    rw [hadm]
    by_cases hvalid : (meet ids (metAfter ids ∅ done) block.txns).2 = true
    · rw [if_pos hvalid]
      rcases hout.pooled_cases h.chain hash b n hb with ⟨n', hn'⟩ | ⟨-, rfl⟩
      · exact List.mem_append_left _ (h.pooled hash b n' hn')
      · simp
    · rw [hfalse (by simpa using hvalid)] at hb
      exact List.mem_append_left _ (h.pooled hash b n hb)
  · intro b hb
    rw [hadm] at hb
    rcases List.mem_append.mp hb with hb | hb
    · obtain ⟨n, hn⟩ := h.kept b hb
      exact hext _ b n hn
    · split at hb
      · rename_i hvalid
        rw [List.mem_singleton.mp hb]
        exact htrue hvalid
      · exact absurd hb (by simp)
  · exact chainInv_step hchain (fun he => absurd he (by simp)) hstep

/-- The first delivery of the next block is a call of `validate_block`. -/
theorem Arrived.receives (htree : ValidTree ids validate order)
    (ho : order = done ++ block :: rest) (h : Arrived ids done s) :
    ∃ seen : SeenMap, (∀ x, seen x ≠ some false) ∧ ∀ ord fuel,
      receive ids validate ord fuel s block =
        (validateBlock ids ord fuel s.management block >>= fun v =>
          .ok ⟨insert (ids.blkId block.header) s.blksSeen, seen, v.state⟩) := by
  have hblock : block ∈ order := by
    rw [ho]
    simp
  obtain ⟨hunseen, -⟩ := h.unseen htree ho
  obtain ⟨hchecked, hseen⟩ := preCheck_of_valid ids.txnId (htree.signed block hblock) h.signed
  refine ⟨_, hseen, fun ord fuel => ?_⟩
  unfold receive
  dsimp only
  rw [if_neg hunseen, if_pos hchecked]

/-- It returns, and moves the node on. -/
theorem Arrived.step (htree : ValidTree ids validate order)
    (ho : order = done ++ block :: rest) (h : Arrived ids done s) :
    (∀ s', (peerPath ids validate).step s block s' → Arrived ids (done ++ [block]) s' ∧
      (Leading ids s.management → LeavesUnrepeated ids s block → Leading ids s'.management)) ∧
      ∃ s', (peerPath ids validate).step s block s' := by
  obtain ⟨seen, hseen, hreceive⟩ := h.receives htree ho
  constructor
  · intro s' hstep
    obtain ⟨ord, fuel, hstep⟩ := hstep
    rw [hreceive, bind_eq_ok] at hstep
    obtain ⟨v, hv, hs'⟩ := hstep
    rw [← Except.ok.inj hs']
    exact ⟨h.validates htree ho hseen hv, fun hlead hleaves =>
      h.leads htree ho hlead hleaves ((validateBlock_spec ord h.chain block).1 _ _ hv)⟩
  · have hblock : block ∈ order := by
      rw [ho]
      simp
    obtain ⟨N, hN⟩ := (validateBlock_spec .sorted h.chain block).2
      fun t ht => (htree.balanced hblock ht).plain
    obtain ⟨v, hv⟩ := hN (N + 1) (Nat.lt_succ_self N)
    refine ⟨⟨insert (ids.blkId block.header) s.blksSeen, seen, v.state⟩, .sorted, N + 1, ?_⟩
    rw [hreceive, hv]
    rfl

end Delivery

/-- A second delivery is skipped. -/
theorem Arrived.again {s : PeerPath} (h : Arrived ids order s) {block : Block}
    (hb : block ∈ order) {s' : PeerPath} :
    (peerPath ids validate).step s block s' ↔ s' = s := by
  have hskip : ∀ ord fuel, receive ids validate ord fuel s block = .ok s := by
    intro ord fuel
    unfold receive
    dsimp only
    rw [if_pos ((h.seen _).mpr ⟨block, hb, rfl⟩)]
  constructor
  · intro hstep
    obtain ⟨ord, fuel, hstep⟩ := hstep
    rw [hskip] at hstep
    exact (Except.ok.inj hstep).symm
  · intro he
    rw [he]
    exact ⟨.sorted, 0, hskip _ _⟩

/-- The first deliveries move the node on, under any guard, and they can be
made. -/
theorem arrived_run (htree : ValidTree ids validate order) {G : PeerPath → Block → Prop} :
    ∀ {done rest : List Block}, order = done ++ rest →
      (∀ s, (peerPath ids validate).Run G done s → Arrived ids done s ∧
        ((∀ s block, G s block → LeavesUnrepeated ids s block) → Leading ids s.management)) ∧
      ((∀ done rest s block, order = done ++ block :: rest → Arrived ids done s → G s block) →
        ∃ s, (peerPath ids validate).Run G done s) := by
  intro done
  induction done using List.reverseRecOn with
  | nil =>
    intro rest _
    refine ⟨fun s hs => ?_, fun _ => ⟨_, .nil⟩⟩
    rw [hs.nil_inv]
    exact ⟨arrived_new, fun _ => leading_new⟩
  | append_singleton done block ih =>
    intro rest ho
    have ho' : order = done ++ block :: rest := by
      rw [ho]
      simp
    obtain ⟨hall, hexists⟩ := ih ho'
    constructor
    · intro s' hs'
      obtain ⟨s₀, hs₀, hg, hstep⟩ := hs'.snoc_inv
      obtain ⟨harr, hlead⟩ := hall s₀ hs₀
      obtain ⟨harr', hlead'⟩ := (harr.step htree ho').1 s' hstep
      exact ⟨harr', fun hG => hlead' (hlead hG) (hG _ _ hg)⟩
    · intro hG
      obtain ⟨s, hs⟩ := hexists hG
      obtain ⟨s', hs'⟩ := ((hall s hs).1.step htree ho').2
      exact ⟨s', .snoc hs (hG _ _ _ _ ho' (hall s hs).1) hs'⟩

/-- Later deliveries add nothing, and they can be made. -/
theorem again_run (htree : ValidTree ids validate order) {G : PeerPath → Block → Prop} :
    ∀ {again : List Block}, (∀ b ∈ again, b ∈ order) →
      (∀ s, (peerPath ids validate).Run G (order ++ again) s →
        (peerPath ids validate).Run G order s) ∧
      ((∀ s block, Arrived ids order s → block ∈ order → G s block) →
        ∀ s, (peerPath ids validate).Run G order s →
          (peerPath ids validate).Run G (order ++ again) s) := by
  have harrived : ∀ {s}, (peerPath ids validate).Run G order s → Arrived ids order s :=
    fun hs => ((arrived_run htree (List.append_nil order).symm).1 _ hs).1
  intro again
  induction again using List.reverseRecOn with
  | nil =>
    intro _
    rw [List.append_nil]
    exact ⟨fun _ hs => hs, fun _ _ hs => hs⟩
  | append_singleton again block ih =>
    intro hmem
    obtain ⟨hback, hforth⟩ := ih fun b hb => hmem b (by simp [hb])
    have hb := hmem block (by simp)
    rw [← List.append_assoc]
    constructor
    · intro s hs
      obtain ⟨s₀, hs₀, -, hstep⟩ := hs.snoc_inv
      have hs₀ := hback s₀ hs₀
      rw [((harrived hs₀).again hb).mp hstep]
      exact hs₀
    · intro hG s hs
      have harr := harrived hs
      exact .snoc (hforth hG s hs) (hG s block harr hb) ((harr.again hb).mpr rfl)

/-- A block that has been delivered is not asked about. -/
theorem Arrived.leavesUnrepeated_again {s : PeerPath} (h : Arrived ids order s) {block : Block}
    (hb : block ∈ order) : LeavesUnrepeated ids s block :=
  fun hunseen => absurd ((h.seen _).mpr ⟨block, hb, rfl⟩) hunseen

end Tree

/-- **When the order of arrival does not matter.** For a finite set of valid
blocks, in any order and with any deliveries again: the node gets through, and
where no delivery makes it leave a branch that repeats a transaction, its final
chain length is the maximal height of the set iff some block of maximal height
has only admitted blocks on its path. -/
theorem arrival_order (ids : IdScheme) (validate : BitcoinTxn → Res (Option Bool))
    (order again : List Block) (htree : ValidTree ids validate order)
    (hagain : ∀ b ∈ again, b ∈ order) :
    (∃ s, (peerPath ids validate).Run (fun _ _ => True) (order ++ again) s) ∧
    ∀ s, (peerPath ids validate).Run (LeavesUnrepeated ids) (order ++ again) s →
      ∃ n, getChainLength s.management = .ok n ∧
        (IsGreatest (heights ids order) n ↔
          ∃ h p, PathTo (netPool ids order) h p ∧ IsGreatest (heights ids order) p.length ∧
            ∀ b ∈ p, b ∈ admitted ids ∅ order) := by
  have hself := (List.append_nil order).symm
  constructor
  · obtain ⟨s, hs⟩ := (arrived_run htree hself).2 fun _ _ _ _ _ _ => trivial
    exact ⟨s, (again_run htree hagain).2 (fun _ _ _ _ => trivial) s hs⟩
  intro s hs
  obtain ⟨h, hlead⟩ := (arrived_run htree hself).1 s ((again_run htree hagain).1 s hs)
  obtain ⟨p, hp, -, hlong⟩ := hlead fun _ _ hg => hg
  have hext : Extends s.management.blockPool (netPool ids order) := by
    intro hash b n hb
    have hmem := admitted_subset b (h.pooled hash b n hb)
    exact ⟨0, h.chain.pools.keyed hash b n hb ▸ netPool_of_mem htree.distinct b hmem⟩
  refine ⟨p.length, getChainLength_eq h.chain.pools hp, ?_, ?_⟩
  · intro hmax
    refine ⟨_, p, hp.mono hext, hmax, fun b hb => ?_⟩
    obtain ⟨hash, n, hpool⟩ := hp.mem_pooled b hb
    exact h.pooled hash b n hpool
  · intro hadm
    obtain ⟨hash, q, hq, hmax, hblocks⟩ := hadm
    -- the admitted path is pooled, and the chain is not shorter
    have hpath := hq.transfer (netPool_keyed order) fun b hb => h.kept b (hblocks b hb)
    have hle := hlong hash q hpath (htree.valid hash q hq).1
    have hge : p.length ≤ q.length := hmax.2 ⟨_, p, hp.mono hext, rfl⟩
    rw [Nat.le_antisymm hge hle]
    exact hmax

/-! ## Small sets of blocks -/

/-- A child of the first block that spends its grant. -/
def demoSpend : Block where
  header := { proposer := 1, prevHash := 3250, merkleRoot := 8, nonce := 1 }
  txns := [demoPay]

/-- Another child of the first block that spends its grant. -/
def demoRival : Block where
  header := { proposer := 1, prevHash := 3250, merkleRoot := 9, nonce := 1 }
  txns := [demoPay]

/-- A child of `demoSpend` with the grant once more. -/
def demoAgain : Block where
  header := { proposer := 1, prevHash := 10565826, merkleRoot := 8, nonce := 1 }
  txns := [demoGrant]

/-- The crypto scheme `Dummy` accepts every signature. -/
def dummyVerify : PubKey → List Hash → Signature → Option Bool :=
  fun _ _ _ => some true

/-- The transactions of the examples, in blocks whose paths can be replayed. -/
theorem demo_tree {order : List Block} {paths : List (List Block)}
    (hdistinct : (order.map fun b => demo.ids.blkId b.header).Nodup)
    (hnonce : ∀ b ∈ order, b.header.nonce = 1)
    (hpaths : ∀ b ∈ order, ∃ p ∈ paths,
      PathTo (netPool demo.ids order) (demo.ids.blkId b.header) p)
    (hvalid : ∀ p ∈ paths, ((replay demo.ids ∅ (chainTxns p)).isSome ∧
      ∀ t ∈ chainTxns p, t.scriptOk) ∧ ∀ t ∈ chainTxns p, t ∈ [demoGrant, demoPay]) :
    ValidTree demo.ids (BitcoinTxn.validate dummyVerify) order := by
  refine ⟨hdistinct, fun b hb => ?_, hnonce, fun _ _ t _ => ?_, fun h p hp => ?_⟩
  · obtain ⟨p, -, hp⟩ := hpaths b hb
    rcases hp.end_cases with ⟨h0, -⟩ | ⟨b', n, q, -, hb', hq⟩
    · exact absurd h0 (demo.ids.blkId_ne_zero _)
    · rw [netPool_of_mem hdistinct b hb, Option.some.injEq, Prod.mk.injEq] at hb'
      rw [← hb'.1] at hq
      rcases hq.end_cases with ⟨h0, -⟩ | ⟨c, m, -, -, hc, -⟩
      · exact Or.inl h0
      · exact Or.inr ⟨c, netPool_mem hc, netPool_keyed order _ c m hc⟩
  · cases t <;> rfl
  · rcases path_mem hpaths hp with rfl | hmem
    · exact ⟨⟨⟨∅, rfl⟩, by simp⟩, by simp⟩
    · obtain ⟨⟨hreplay, hok⟩, hknown⟩ := hvalid p hmem
      refine ⟨⟨Option.isSome_iff_exists.mp hreplay, hok⟩, fun t ht => ?_⟩
      refine balanced_of_accepted (accepted_demo ?_)
      have hmem := hknown t ht
      simp only [List.mem_cons, List.not_mem_nil, or_false] at hmem ⊢
      exact hmem.elim Or.inl fun h => Or.inr (Or.inl h)

/-- The maximal height of such a set. -/
theorem demo_heights {order : List Block} {paths : List (List Block)} {n : Nat}
    (hpaths : ∀ b ∈ order, ∃ p ∈ paths, PathTo (netPool ids order) (ids.blkId b.header) p)
    (hle : ∀ p ∈ paths, p.length ≤ n) {h : Hash} {p : List Block}
    (hp : PathTo (netPool ids order) h p) (hn : p.length = n) :
    IsGreatest (heights ids order) n := by
  refine ⟨⟨h, p, hp, hn⟩, fun m hm => ?_⟩
  obtain ⟨h', q, hq, rfl⟩ := hm
  rcases path_mem hpaths hq with rfl | hmem
  · exact Nat.zero_le n
  · exact hle q hmem

/-- The ids of the blocks that others build on. -/
theorem demo_parents : demo.ids.blkId (demoBlock [demoGrant]).header = 3250 ∧
    demo.ids.blkId demoSpend.header = 10565826 := by
  decide +kernel

/-- The paths to the blocks of the examples, in any set that has them. -/
theorem demo_pathTo {order : List Block}
    (hdistinct : (order.map fun b => demo.ids.blkId b.header).Nodup)
    (hfirst : demoBlock [demoGrant] ∈ order) :
    PathTo (netPool demo.ids order) 3250 [demoBlock [demoGrant]] ∧
    (demoRival ∈ order → PathTo (netPool demo.ids order) (demo.ids.blkId demoRival.header)
      [demoBlock [demoGrant], demoRival]) ∧
    (demoSpend ∈ order → PathTo (netPool demo.ids order) 10565826
      [demoBlock [demoGrant], demoSpend]) ∧
    (demoSpend ∈ order → demoAgain ∈ order →
      PathTo (netPool demo.ids order) (demo.ids.blkId demoAgain.header)
        [demoBlock [demoGrant], demoSpend, demoAgain]) := by
  have hone : PathTo (netPool demo.ids order) 3250 [demoBlock [demoGrant]] :=
    demo_parents.1 ▸ .snoc (netPool_of_mem hdistinct _ hfirst) .genesis
  have htwo : demoSpend ∈ order → PathTo (netPool demo.ids order) 10565826
      [demoBlock [demoGrant], demoSpend] := fun h =>
    demo_parents.2 ▸ .snoc (netPool_of_mem hdistinct _ h) hone
  exact ⟨hone, fun h => .snoc (netPool_of_mem hdistinct _ h) hone, htwo,
    fun h h' => .snoc (netPool_of_mem hdistinct _ h') (htwo h)⟩

/-- Four blocks, the rival first: the node moves from the rival's branch to the
longer one, whose last block repeats the grant, and has all heights. -/
theorem arrival_order_demo :
    ∃ s, (peerPath demo.ids (BitcoinTxn.validate dummyVerify)).Run (LeavesUnrepeated demo.ids)
        ([demoBlock [demoGrant], demoRival, demoSpend, demoAgain] ++ [demoRival]) s ∧
      ∃ n, getChainLength s.management = .ok n ∧ IsGreatest (heights demo.ids
        [demoBlock [demoGrant], demoRival, demoSpend, demoAgain]) n := by
  set order := [demoBlock [demoGrant], demoRival, demoSpend, demoAgain]
  have hdistinct : (order.map fun b => demo.ids.blkId b.header).Nodup := by decide +kernel
  obtain ⟨h₁, h₂, h₃, h₄⟩ := demo_pathTo hdistinct (by simp [order])
  have h₂ := h₂ (by simp [order])
  have h₃ := h₃ (by simp [order])
  have h₄ := h₄ (by simp [order]) (by simp [order])
  let paths := [[demoBlock [demoGrant]], [demoBlock [demoGrant], demoRival],
    [demoBlock [demoGrant], demoSpend], [demoBlock [demoGrant], demoSpend, demoAgain]]
  have hpaths : ∀ b ∈ order, ∃ p ∈ paths,
      PathTo (netPool demo.ids order) (demo.ids.blkId b.header) p := by
    intro b hb
    simp only [order, List.mem_cons, List.not_mem_nil, or_false] at hb
    rcases hb with rfl | rfl | rfl | rfl
    · exact ⟨_, by simp [paths], demo_parents.1 ▸ h₁⟩
    · exact ⟨_, by simp [paths], h₂⟩
    · exact ⟨_, by simp [paths], demo_parents.2 ▸ h₃⟩
    · exact ⟨_, by simp [paths], h₄⟩
  have htree : ValidTree demo.ids (BitcoinTxn.validate dummyVerify) order :=
    demo_tree hdistinct (by decide) hpaths (by decide +kernel)
  have hmax : IsGreatest (heights demo.ids order) 3 :=
    demo_heights hpaths (by decide) h₄ rfl
  -- what the node can leave is one of the shorter paths
  have hforks : ForksUnrepeated demo.ids order := by
    intro h h' anc new old hold hnew _ hlt
    refine unrepeated_of_nodup ?_
    rw [← chainTxns_append]
    have hle := hmax.2 ⟨h', _, hnew, rfl⟩
    have hshort : (anc ++ old).length < 3 := by
      rw [List.length_append] at hle ⊢
      omega
    have hall : ∀ p ∈ paths, p.length < 3 → (txnIds demo.ids (chainTxns p)).Nodup := by
      decide +kernel
    rcases path_mem hpaths hold with he | hmem
    · rw [he]
      exact List.nodup_nil
    · exact hall _ hmem hshort
  have hself := (List.append_nil order).symm
  have hagain : ∀ b ∈ [demoRival], b ∈ order := by simp [order]
  obtain ⟨s, hs⟩ := (arrived_run htree hself).2
    fun _ _ _ _ ho h => leavesUnrepeated_of_forks htree hforks ho h
  have hs := (again_run htree hagain).2 (fun _ _ h hb => h.leavesUnrepeated_again hb) s hs
  obtain ⟨n, hn, hiff⟩ := (arrival_order demo.ids _ order [demoRival] htree hagain).2 s hs
  refine ⟨s, hs, n, hn, hiff.mpr ⟨_, _, h₄, hmax, ?_⟩⟩
  decide +kernel

/-- Child first: its payment spends a grant the node does not know, the block is
dropped, and delivering it again does not help. The chain ends at length one
where the maximal height is two. -/
theorem arrival_order_matters :
    ValidTree demo.ids (BitcoinTxn.validate dummyVerify) [demoSpend, demoBlock [demoGrant]] ∧
    IsGreatest (heights demo.ids [demoSpend, demoBlock [demoGrant]]) 2 ∧
    ∃ s, (peerPath demo.ids (BitcoinTxn.validate dummyVerify)).Run (fun _ _ => True)
        ([demoSpend, demoBlock [demoGrant]] ++ [demoSpend]) s ∧
      getChainLength s.management = .ok 1 := by
  have hdistinct : ([demoSpend, demoBlock [demoGrant]].map fun b =>
      demo.ids.blkId b.header).Nodup := by
    decide +kernel
  obtain ⟨h₁, -, h₃, -⟩ := demo_pathTo hdistinct (by simp)
  have h₃ := h₃ (by simp)
  have hpaths : ∀ b ∈ [demoSpend, demoBlock [demoGrant]],
      ∃ p ∈ [[demoBlock [demoGrant]], [demoBlock [demoGrant], demoSpend]],
        PathTo (netPool demo.ids [demoSpend, demoBlock [demoGrant]])
          (demo.ids.blkId b.header) p := by
    intro b hb
    simp only [List.mem_cons, List.not_mem_nil, or_false] at hb
    rcases hb with rfl | rfl
    · exact ⟨_, by simp, demo_parents.2 ▸ h₃⟩
    · exact ⟨_, by simp, demo_parents.1 ▸ h₁⟩
  refine ⟨demo_tree hdistinct (by decide) hpaths (by decide +kernel),
    demo_heights hpaths (by decide) h₃ rfl, ?_⟩
  have hcheck : returns
      (receive demo.ids (BitcoinTxn.validate dummyVerify) .sorted 5 .new demoSpend)
      (fun s₁ => returns (receive demo.ids (BitcoinTxn.validate dummyVerify) .sorted 5 s₁
          (demoBlock [demoGrant])) (fun s₂ =>
        returns (receive demo.ids (BitcoinTxn.validate dummyVerify) .sorted 5 s₂ demoSpend)
          (fun s₃ => getChainLength s₃.management = .ok 1))) = true := by
    decide +kernel
  obtain ⟨s₁, hs₁, hcheck⟩ := returns_iff.mp hcheck
  obtain ⟨s₂, hs₂, hcheck⟩ := returns_iff.mp hcheck
  obtain ⟨s₃, hs₃, hcheck⟩ := returns_iff.mp hcheck
  have hrun₁ : (peerPath demo.ids (BitcoinTxn.validate dummyVerify)).Run (fun _ _ => True)
      [demoSpend] s₁ := .snoc .nil trivial
          (⟨.sorted, 5, hs₁⟩ : ∃ ord fuel, receive _ _ ord fuel _ _ = _)
  have hrun₂ : (peerPath demo.ids (BitcoinTxn.validate dummyVerify)).Run (fun _ _ => True)
      [demoSpend, demoBlock [demoGrant]] s₂ := .snoc hrun₁ trivial ⟨.sorted, 5, hs₂⟩
  exact ⟨s₃, .snoc hrun₂ trivial ⟨.sorted, 5, hs₃⟩, by simpa using hcheck⟩

end Copycat.Bitcoin
