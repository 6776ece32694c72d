import Copycat.Avalanche.Levels
import Mathlib.Logic.Relation

/-!
# Asking for missing transactions

A node that gets a block with transactions whose parents it does not know asks
the proposer for them, and gets a block of depth one; if that again misses
parents, it asks for those, and so on. This module puts the two nodes and the
messages between them together, with everything else the two do in between.

A node that knows a transaction never asks for its parents, and does not look
at what it was told to record. So what decides a position is whether the
transaction is `Rejected`: whether it fails the check, or an ancestor does that
is reached through unknown transactions. An invalid transaction behind a known
one goes unnoticed (`hidden_ancestor`).

The invariant is `Phase`: one message of the query is on its way, on top of a
stack of parked blocks (`Levels`), until the query is answered. Ranks fall from
level to level, which bounds the stack.
-/

namespace Copycat.Avalanche

open Copycat.Lib
open BlockManagement

/-- A message between the two nodes. -/
inductive Message where
  | block (block : Block)
  | req (peerReq : PeerReq)
deriving DecidableEq

/-- The two nodes, the messages of the query that are on their way, and the
blocks that the requester has emitted. -/
structure Exchange where
  requester : BlockManagement
  proposer : BlockManagement
  inFlight : List Message
  emitted : List Block

/-- What happens next: a call on either side, or the delivery of a message. -/
inductive Move where
  | atRequester (a : Act)
  | atProposer (a : Act)
  | deliver (m : Message)

def Move.isDelivery : Move → Bool
  | deliver _ => true
  | _ => false

variable {ids : UniqueIds} {cfg peer : StageConfig}

/-- The steps. The requester's requests go to the proposer, which answers them
with `handlePeerBlkReq`. -/
inductive ExchangeStep (ids : UniqueIds) (cfg peer : StageConfig) :
    Exchange → Move → Exchange → Prop
  | atRequester {s : Exchange} {a : Act} {ord : HashOrder} {fuel : Nat}
      {r : BlockManagement × List Block} : act ids cfg ord fuel s.requester a = .ok r →
      ExchangeStep ids cfg peer s (.atRequester a)
        { s with requester := r.1, emitted := s.emitted ++ r.2 }
  | atProposer {s : Exchange} {a : Act} {ord : HashOrder} {fuel : Nat}
      {r : BlockManagement × List Block} : act ids peer ord fuel s.proposer a = .ok r →
      ExchangeStep ids cfg peer s (.atProposer a) { s with proposer := r.1 }
  | block {s : Exchange} {b : Block} {v : Validated} : .block b ∈ s.inFlight →
      validateBlock ids s.requester b = .ok v →
      ExchangeStep ids cfg peer s (.deliver (.block b))
        { s with
          requester := v.state
          inFlight := s.inFlight.erase (.block b) ++ v.req.toList.map .req
          emitted := s.emitted ++ v.newTail }
  | req {s : Exchange} {r : PeerReq} : .req r ∈ s.inFlight →
      ExchangeStep ids cfg peer s (.deliver (.req r))
        { s with
          inFlight := s.inFlight.erase (.req r) ++ [.block (handlePeerBlkReq s.proposer r)] }

/-- The exchange, from a state of the two nodes and a block on its way. -/
def exchange (ids : UniqueIds) (cfg peer : StageConfig) (requester proposer : BlockManagement)
    (block : Block) : Machine Exchange Move where
  start := ⟨requester, proposer, [.block block], []⟩
  step := ExchangeStep ids cfg peer

/-- The moves of the requester that are not deliveries are about other
blocks. -/
def OtherMove (proposer blkId : Nat) (_ : Exchange) (m : Move) : Prop :=
  ∀ a, m = .atRequester a → a.Other proposer blkId

/-- The transactions the requester records in the course of a run. -/
def recordedIn (tr : List Move) : Set AvalancheTxn :=
  fun t => .atRequester (.recordNewTxn t) ∈ tr

/-- `p` is an input of `t`. -/
def Parent (ids : UniqueIds) (p t : AvalancheTxn) : Prop :=
  ids.txnId p ∈ (avalancheKind ids).deps t

/-- All ancestors of `t` are in the pool. -/
def Supplied (ids : UniqueIds) (pool : Hash → Option AvalancheTxn) (t : AvalancheTxn) : Prop :=
  ∀ a, Relation.ReflTransGen (Parent ids) a t → ∀ h ∈ (avalancheKind ids).deps a, (pool h).isSome

theorem Supplied.mono {pool pool' : Hash → Option AvalancheTxn} (hgrow : Grows pool pool')
    {t : AvalancheTxn} (h : Supplied ids pool t) : Supplied ids pool' t :=
  fun a ha x hx => hgrow.isSome (h a ha x hx)

theorem Supplied.parent {pool : Hash → Option AvalancheTxn} {p t : AvalancheTxn}
    (h : Supplied ids pool t) (hp : Parent ids p t) : Supplied ids pool p :=
  fun a ha x hx => h a (ha.tail hp) x hx

/-- The blocks of a query. -/
def answers (proposer blkId : Nat) (emitted : List Block) : List Block :=
  emitted.filter fun b => b.proposer = proposer ∧ b.id = blkId

/-- The query is answered: one block, of depth 0 and of the right length, in
which what is rejected has been replaced, and nothing is left over. -/
structure Answered (ids : UniqueIds) (proposer blkId : Nat) (txns : List AvalancheTxn)
    (known known' : Set AvalancheTxn) (s : Exchange) : Prop where
  quiet : s.inFlight = []
  cleared : ∀ j, s.requester.pendingBlks (proposer, blkId, j) = none
  emits : ∃ out : List AvalancheTxn,
      answers proposer blkId s.emitted = [⟨proposer, blkId, 0, out⟩] ∧
    out.length = txns.length ∧
    ∀ (i : Nat) (t x : AvalancheTxn), txns[i]? = some t → out[i]? = some x →
      (¬ Rejected ids known t → x = t) ∧ (Rejected ids known' t → x = .placeHolder)

/-- What a message on its way says about the requester's parked blocks. -/
def Expected (proposer blkId : Nat) (pending : Nat → Option ParkedBlk) : Message → Prop
  | .block b => b.proposer = proposer ∧ b.id = blkId ∧ ∀ j, (pending j).isSome ↔ j < b.depth
  | .req r => r.proposer = proposer ∧ r.blkId = blkId ∧ ∀ j, (pending j).isSome ↔ j ≤ r.depth

/-- The query is under way: nothing has been emitted for it, and there is one
message, which can be delivered. -/
structure UnderWay (ids : UniqueIds) (cfg peer : StageConfig) (blkId : Nat) (s : Exchange) :
    Prop where
  silent : answers peer.self blkId s.emitted = []
  message : ∃ m, s.inFlight = [m] ∧
    Expected peer.self blkId (fun j => s.requester.pendingBlks (peer.self, blkId, j)) m ∧
    ∃ s', ExchangeStep ids cfg peer s (.deliver m) s'

/-! ## The invariant -/

/-- The requester has got down to depth `d`, where the block is `orig`. -/
structure AtLevel (ids : UniqueIds) (pool₀ : Hash → Option AvalancheTxn)
    (txns : List AvalancheTxn) (proposer blkId bound d : Nat) (orig : List AvalancheTxn)
    (s : Exchange) : Prop where
  levels : Levels ids (knownIn ids pool₀) s.requester.txnPool
    (fun j => s.requester.pendingBlks (proposer, blkId, j)) txns d orig
  supplied : ∀ t ∈ orig, Supplied ids s.proposer.txnPool t
  ranks : ∀ t ∈ orig, ids.rank (ids.txnId t) + d < bound
  nonempty : 0 < d → orig ≠ []
  silent : answers proposer blkId s.emitted = []

/-- Where a query is after a number of deliveries. -/
inductive Phase (ids : UniqueIds) (pool₀ : Hash → Option AvalancheTxn) (txns : List AvalancheTxn)
    (proposer blkId bound : Nat) (s : Exchange) : Nat → Prop
  | block {d : Nat} {orig : List AvalancheTxn} :
      AtLevel ids pool₀ txns proposer blkId bound d orig s →
      s.inFlight = [.block ⟨proposer, blkId, d, orig⟩] →
      (∀ j, (s.requester.pendingBlks (proposer, blkId, j)).isSome ↔ j < d) →
      Phase ids pool₀ txns proposer blkId bound s (2 * d)
  | req {d : Nat} {orig : List AvalancheTxn} {asked : List Hash} {parked : ParkedBlk} :
      AtLevel ids pool₀ txns proposer blkId bound d orig s →
      s.inFlight = [.req ⟨proposer, blkId, d, asked⟩] →
      s.requester.pendingBlks (proposer, blkId, d) = some parked →
      Parked ids (knownIn ids pool₀) s.requester.txnPool orig asked parked.txns
        parked.recheckIdx →
      (∀ j, (s.requester.pendingBlks (proposer, blkId, j)).isSome ↔ j ≤ d) → asked ≠ [] →
      (∀ h ∈ asked, ∃ t ∈ orig, h ∈ (avalancheKind ids).deps t) →
      Phase ids pool₀ txns proposer blkId bound s (2 * d + 1)
  | done {n : Nat} {out : List AvalancheTxn} : s.inFlight = [] →
      (∀ j, s.requester.pendingBlks (proposer, blkId, j) = none) →
      answers proposer blkId s.emitted = [⟨proposer, blkId, 0, out⟩] →
      Parked ids (knownIn ids pool₀) s.requester.txnPool txns [] out [] → n ≤ 2 * bound + 1 →
      Phase ids pool₀ txns proposer blkId bound s n

variable {pool₀ : Hash → Option AvalancheTxn} {txns : List AvalancheTxn}
variable {proposer blkId bound d n : Nat} {s : Exchange}

/-- What the two nodes do otherwise leaves a level as it is. -/
theorem AtLevel.frame {orig : List AvalancheTxn} {requester proposer' : BlockManagement}
    {out : List Block} (h : AtLevel ids pool₀ txns proposer blkId bound d orig s)
    (hgrow : Grows s.requester.txnPool requester.txnPool)
    (hsame : ∀ j, j < d → requester.pendingBlks (proposer, blkId, j) =
      s.requester.pendingBlks (proposer, blkId, j))
    (hgrow' : Grows s.proposer.txnPool proposer'.txnPool)
    (hout : answers proposer blkId out = []) (inFlight : List Message) :
    AtLevel ids pool₀ txns proposer blkId bound d orig
      ⟨requester, proposer', inFlight, s.emitted ++ out⟩ where
  levels := h.levels.mono hgrow hsame
  supplied t ht := (h.supplied t ht).mono hgrow'
  ranks := h.ranks
  nonempty := h.nonempty
  silent := by
    have hs := h.silent
    unfold answers at hs hout ⊢
    rw [List.filter_append, hs, hout]
    rfl

/-- So it does the phase. -/
theorem Phase.frame {requester proposer' : BlockManagement} {out : List Block}
    (h : Phase ids pool₀ txns proposer blkId bound s n)
    (hgrow : Grows s.requester.txnPool requester.txnPool)
    (hsame : ∀ j, requester.pendingBlks (proposer, blkId, j) =
      s.requester.pendingBlks (proposer, blkId, j))
    (hgrow' : Grows s.proposer.txnPool proposer'.txnPool)
    (hout : answers proposer blkId out = []) :
    Phase ids pool₀ txns proposer blkId bound
      ⟨requester, proposer', s.inFlight, s.emitted ++ out⟩ n := by
  cases h with
  | block hlevel hflight hparked =>
    exact .block (hlevel.frame hgrow (fun j _ => hsame j) hgrow' hout _) hflight
      fun j => by rw [hsame j, hparked j]
  | req hlevel hflight hpending hpos hparked hne hasked =>
    exact .req (hlevel.frame hgrow (fun j _ => hsame j) hgrow' hout _) hflight
      ((hsame _).trans hpending) (hpos.mono hgrow) (fun j => by rw [hsame j, hparked j]) hne hasked
  | done hflight hcleared hanswer hpos hle =>
    refine .done hflight (fun j => (hsame j).trans (hcleared j)) ?_ (hpos.mono hgrow) hle
    unfold answers at hanswer hout ⊢
    rw [List.filter_append, hanswer, hout]
    rfl

/-- A block arrives. -/
theorem Phase.deliver_block {known : Set AvalancheTxn} {orig : List AvalancheTxn}
    (hlevel : AtLevel ids pool₀ txns proposer blkId bound d orig s)
    (hparked : ∀ j, (s.requester.pendingBlks (proposer, blkId, j)).isSome ↔ j < d)
    (hpool : PoolInv ids known pool₀ s.requester.txnPool) :
    ∃ v, validateBlock ids s.requester ⟨proposer, blkId, d, orig⟩ = .ok v ∧
      PoolInv ids known pool₀ v.state.txnPool ∧
      Phase ids pool₀ txns proposer blkId bound
        ⟨v.state, s.proposer, v.req.toList.map .req, s.emitted ++ v.newTail⟩ (2 * d + 1) := by
  obtain ⟨v, hv, hpool', houtcome⟩ := validateBlock_spec hpool hlevel.levels
  have hgrow : Grows s.requester.txnPool v.state.txnPool :=
    (validateBlock_pool hv (poolInv_refl hpool.filed)).grows
  refine ⟨v, hv, hpool', ?_⟩
  cases houtcome with
  | asks asked parked htail hreq hne hasked hpos hpending =>
    have hbelow : ∀ j, j < d → v.state.pendingBlks (proposer, blkId, j) =
        s.requester.pendingBlks (proposer, blkId, j) := by
      intro j hj
      rw [hpending, if_neg (Nat.ne_of_lt hj)]
    rw [htail, hreq]
    refine .req (hlevel.frame hgrow hbelow (fun _ _ h => h) rfl _) rfl
      ((hpending d).trans (if_pos rfl)) hpos (fun j => ?_) hne hasked
    show (v.state.pendingBlks (proposer, blkId, j)).isSome ↔ j ≤ d
    rw [hpending]
    split
    · rename_i hj
      simp [hj]
    · rename_i hj
      rw [hparked]
      omega
  | emits out htail hreq hpos hpending =>
    rw [htail, hreq]
    refine .done rfl (fun j => ?_) ?_ hpos ?_
    · show v.state.pendingBlks (proposer, blkId, j) = none
      rw [hpending]
      split
      · rfl
      · rename_i hj
        have := (hparked j).not.mpr hj
        simpa using this
    · have hs := hlevel.silent
      unfold answers at hs ⊢
      rw [List.filter_append, hs]
      simp
    · -- the block of a level below the first is not empty, and ranks fall
      rcases Nat.eq_zero_or_pos d with rfl | hd
      · omega
      · obtain ⟨t, ht⟩ := List.exists_mem_of_ne_nil _ (hlevel.nonempty hd)
        have := hlevel.ranks t ht
        omega

/-- A request arrives. -/
theorem Phase.deliver_req {orig : List AvalancheTxn} {asked : List Hash} {parked : ParkedBlk}
    (hlevel : AtLevel ids pool₀ txns proposer blkId bound d orig s)
    (hpending : s.requester.pendingBlks (proposer, blkId, d) = some parked)
    (hpos : Parked ids (knownIn ids pool₀) s.requester.txnPool orig asked parked.txns
      parked.recheckIdx)
    (hparked : ∀ j, (s.requester.pendingBlks (proposer, blkId, j)).isSome ↔ j ≤ d)
    (hne : asked ≠ []) (hasked : ∀ h ∈ asked, ∃ t ∈ orig, h ∈ (avalancheKind ids).deps t)
    (hfiled : FiledPool ids s.proposer.txnPool) :
    Phase ids pool₀ txns proposer blkId bound
      ⟨s.requester, s.proposer,
        [.block (handlePeerBlkReq s.proposer ⟨proposer, blkId, d, asked⟩)], s.emitted⟩
      (2 * (d + 1)) := by
  have hall : ∀ h ∈ asked, (s.proposer.txnPool h).isSome := by
    intro h hh
    obtain ⟨t, ht, hdep⟩ := hasked h hh
    exact hlevel.supplied t ht t .refl h hdep
  have hids : (asked.filterMap s.proposer.txnPool).map ids.txnId = asked :=
    hfiled.validator.parents hall
  -- each transaction of the reply is an input of one at the level above
  have hparent : ∀ p ∈ asked.filterMap s.proposer.txnPool, ∃ t ∈ orig, Parent ids p t := by
    intro p hp
    obtain ⟨t, ht, hdep⟩ := hasked (ids.txnId p) (hids ▸ List.mem_map.mpr ⟨p, hp, rfl⟩)
    exact ⟨t, ht, hdep⟩
  refine .block ⟨.succ hlevel.levels hpending ?_ fun p hp => ?_, fun p hp => ?_, fun p hp => ?_,
    fun _ => ?_, hlevel.silent⟩ rfl fun j => (hparked j).trans Nat.lt_succ_iff.symm
  · rw [hids]
    exact hpos
  · obtain ⟨h, -, hp⟩ := List.mem_filterMap.mp hp
    exact (hfiled h p hp).2
  · obtain ⟨t, ht, hdep⟩ := hparent p hp
    exact (hlevel.supplied t ht).parent hdep
  · obtain ⟨t, ht, hdep⟩ := hparent p hp
    have hrank : ids.rank (ids.txnId p) < ids.rank (ids.txnId t) := by
      refine ids.rank_parent t _ ?_
      cases t with
      | send => exact hdep
      | grant => exact absurd hdep (by simp [Parent, avalancheKind])
      | noop => exact absurd hdep (by simp [Parent, avalancheKind])
      | placeHolder => exact absurd hdep (by simp [Parent, avalancheKind])
    have := hlevel.ranks t ht
    omega
  · intro hnil
    rw [hnil] at hids
    exact hne hids.symm

/-- The deliveries of a run. -/
def deliveries (tr : List Move) : Nat :=
  (tr.filter Move.isDelivery).length

theorem deliveries_snoc (tr : List Move) (m : Move) :
    deliveries (tr ++ [m]) = deliveries tr + if m.isDelivery then 1 else 0 := by
  unfold deliveries
  rw [List.filter_append, List.length_append]
  cases hm : m.isDelivery with
  | false => simp [hm]
  | true => simp [hm]

/-- What holds after the moves `tr`. -/
structure ExchangeInv (ids : UniqueIds) (pool₀ : Hash → Option AvalancheTxn)
    (txns : List AvalancheTxn) (proposer blkId bound : Nat) (tr : List Move) (s : Exchange) :
    Prop where
  pool : PoolInv ids (knownIn ids pool₀ ∪ recordedIn tr) pool₀ s.requester.txnPool
  filed : FiledPool ids s.proposer.txnPool
  phase : Phase ids pool₀ txns proposer blkId bound s (deliveries tr)

theorem recordedIn_snoc (tr : List Move) (m : Move) : recordedIn tr ⊆ recordedIn (tr ++ [m]) :=
  fun _ ht => List.mem_append_left _ ht

theorem answers_other {out : List Block}
    (h : ∀ b ∈ out, (b.proposer, b.id) ≠ (proposer, blkId)) : answers proposer blkId out = [] := by
  refine List.filter_eq_nil_iff.mpr fun b hb hcontra => h b hb ?_
  obtain ⟨hp, hi⟩ := of_decide_eq_true hcontra
  rw [hp, hi]

/-- A call on the side of the requester. -/
theorem ExchangeInv.atRequester {tr : List Move}
    (h : ExchangeInv ids pool₀ txns proposer blkId bound tr s) {a : Act}
    (hother : a.Other proposer blkId) {ord : HashOrder} {fuel : Nat}
    {r : BlockManagement × List Block} (hr : act ids cfg ord fuel s.requester a = .ok r) :
    ExchangeInv ids pool₀ txns proposer blkId bound (tr ++ [.atRequester a])
      { s with requester := r.1, emitted := s.emitted ++ r.2 } where
  pool := by
    refine (act_pool hr h.pool).mono (Set.union_subset (Set.union_subset_union_right _
      (recordedIn_snoc tr _)) fun t ht => Set.mem_union_right _ ?_)
    cases a with
    | recordNewTxn txn =>
      have ht : t = txn := ht
      exact ht ▸ List.mem_append_right _ (List.mem_singleton.mpr rfl)
    | prepareNewBlock => exact ht.elim
    | getNewBlock => exact ht.elim
    | handlePmakerMsg => exact ht.elim
    | validateBlock block => exact ht.elim
  filed := h.filed
  phase := by
    obtain ⟨hsame, hout⟩ := act_pending hr hother
    rw [deliveries_snoc]
    exact h.phase.frame (act_pool hr (poolInv_refl h.pool.filed)).grows hsame
      (fun _ _ h => h) (answers_other hout)

/-- A call on the side of the proposer. -/
theorem ExchangeInv.atProposer {tr : List Move}
    (h : ExchangeInv ids pool₀ txns proposer blkId bound tr s) {a : Act} {ord : HashOrder}
    {fuel : Nat} {r : BlockManagement × List Block}
    (hr : act ids peer ord fuel s.proposer a = .ok r) :
    ExchangeInv ids pool₀ txns proposer blkId bound (tr ++ [.atProposer a])
      { s with proposer := r.1 } where
  pool := h.pool.mono (Set.union_subset_union_right _ (recordedIn_snoc tr _))
  filed := (act_pool hr (poolInv_refl h.filed)).filed
  phase := by
    have hnone : answers proposer blkId [] = [] := rfl
    have hphase := h.phase.frame (fun _ _ h => h) (fun _ => rfl)
      (act_pool hr (poolInv_refl h.filed)).grows hnone
    rw [List.append_nil] at hphase
    rw [deliveries_snoc]
    exact hphase

/-- Every step keeps the invariant. -/
theorem ExchangeInv.step {tr : List Move} {m : Move} {s' : Exchange}
    (h : ExchangeInv ids pool₀ txns proposer blkId bound tr s)
    (hother : OtherMove proposer blkId s m) (hstep : ExchangeStep ids cfg peer s m s') :
    ExchangeInv ids pool₀ txns proposer blkId bound (tr ++ [m]) s' := by
  have hmono : PoolInv ids (knownIn ids pool₀ ∪ recordedIn (tr ++ [m])) pool₀ s.requester.txnPool :=
    h.pool.mono (Set.union_subset_union_right _ (recordedIn_snoc tr m))
  cases hstep with
  | @atRequester a _ _ _ hr => exact h.atRequester (hother a rfl) hr
  | atProposer hr => exact h.atProposer hr
  | @block b v hin hv =>
    have hphase := h.phase
    generalize hn : deliveries tr = n at hphase
    cases hphase with
    | @block d orig hlevel hflight hparked =>
      rw [hflight] at hin ⊢
      obtain rfl : b = ⟨proposer, blkId, d, orig⟩ := by simpa using hin
      obtain ⟨v', hv', hpool', hphase'⟩ := Phase.deliver_block hlevel hparked hmono
      obtain rfl : v = v' := Except.ok.inj (hv.symm.trans hv')
      refine ⟨hpool', h.filed, ?_⟩
      rw [deliveries_snoc, hn, List.erase_cons_head, List.nil_append]
      exact hphase'
    | req _ hflight => rw [hflight] at hin; exact absurd hin (by simp)
    | done hflight => rw [hflight] at hin; exact absurd hin (by simp)
  | @req r hin =>
    have hphase := h.phase
    generalize hn : deliveries tr = n at hphase
    cases hphase with
    | @req d orig asked parked hlevel hflight hpending hpos hparked hne hasked =>
      rw [hflight] at hin ⊢
      obtain rfl : r = ⟨proposer, blkId, d, asked⟩ := by simpa using hin
      refine ⟨hmono, h.filed, ?_⟩
      rw [deliveries_snoc, hn, List.erase_cons_head, List.nil_append]
      exact Phase.deliver_req hlevel hpending hpos hparked hne hasked h.filed
    | block _ hflight => rw [hflight] at hin; exact absurd hin (by simp)
    | done hflight => rw [hflight] at hin; exact absurd hin (by simp)

/-! ## The start -/

/-- In a reachable state the pool is filed. -/
theorem filedPool_of_run {G : BlockManagement → Act × List Block → Prop}
    {tr : List (Act × List Block)} {s : BlockManagement}
    (h : (BlockManagement.stage ids cfg).Run G tr s) :
    FiledPool ids s.txnPool := by
  refine h.invariant (fun s => FiledPool ids s.txnPool) (fun x t ht => ?_) ?_
  · exact absurd ht (by simp [BlockManagement.stage, BlockManagement.new])
  · intro s l s' hs _ hstep
    obtain ⟨ord, fuel, hr⟩ := hstep
    exact (act_pool hr (poolInv_refl hs)).filed

/-- Before a query, nothing is parked for it. -/
theorem pending_of_run {tr : List (Act × List Block)} {s : BlockManagement}
    (h : (BlockManagement.stage ids cfg).Run (fun _ l => l.1.Other proposer blkId) tr s) :
    ∀ j, s.pendingBlks (proposer, blkId, j) = none := by
  refine h.invariant (fun s => ∀ j, s.pendingBlks (proposer, blkId, j) = none) (fun _ => rfl) ?_
  intro s l s' hs hother hstep j
  obtain ⟨ord, fuel, hr⟩ := hstep
  rw [(act_pending hr hother).1 j]
  exact hs j

theorem exchangeInv_start {requester proposer' : BlockManagement}
    (hfiled : FiledPool ids requester.txnPool) (hfiled' : FiledPool ids proposer'.txnPool)
    (hpending : ∀ j, requester.pendingBlks (proposer, blkId, j) = none)
    (hsupplied : ∀ t ∈ txns, Supplied ids proposer'.txnPool t)
    (hranks : ∀ t ∈ txns, ids.rank (ids.txnId t) < bound) :
    ExchangeInv ids requester.txnPool txns proposer blkId bound []
      ⟨requester, proposer', [.block ⟨proposer, blkId, 0, txns⟩], []⟩ where
  pool := (poolInv_refl hfiled).mono Set.subset_union_left
  filed := hfiled'
  phase := .block
    { levels := .zero
      supplied := hsupplied
      ranks := hranks
      nonempty := fun h => absurd h (Nat.lt_irrefl 0)
      silent := rfl } rfl fun j => by
        show (requester.pendingBlks (proposer, blkId, j)).isSome ↔ _
        rw [hpending]
        simp

/-! ## What the invariant says -/

theorem ExchangeInv.deliveries_le {tr : List Move}
    (h : ExchangeInv ids pool₀ txns proposer blkId bound tr s) (hbound : 0 < bound) :
    deliveries tr ≤ 2 * bound + 1 := by
  have hphase := h.phase
  have hlt : ∀ {d orig}, AtLevel ids pool₀ txns proposer blkId bound d orig s → d < bound := by
    intro d orig hlevel
    rcases Nat.eq_zero_or_pos d with rfl | hd
    · exact hbound
    · obtain ⟨t, ht⟩ := List.exists_mem_of_ne_nil _ (hlevel.nonempty hd)
      have := hlevel.ranks t ht
      omega
  generalize deliveries tr = n at hphase ⊢
  cases hphase with
  | block hlevel => have := hlt hlevel; omega
  | req hlevel => have := hlt hlevel; omega
  | done _ _ _ _ hle => exact hle

/-- What a settled position holds. -/
theorem Settled.reading {known : Set AvalancheTxn} {pool : Hash → Option AvalancheTxn}
    (hpool : PoolInv ids known pool₀ pool) {t out : AvalancheTxn}
    (h : Settled ids (knownIn ids pool₀) pool t out) :
    (¬ Rejected ids (knownIn ids pool₀) t → out = t) ∧
      (Rejected ids known t → out = .placeHolder) := by
  cases h with
  | kept ht =>
    refine ⟨fun _ => rfl, fun hrej => ?_⟩
    rw [hrej.fromClient] at ht
    exact absurd ht (by simp)
  | pooled hin => exact ⟨fun _ => rfl, fun hrej => absurd hrej (hpool.sound _ _ hin)⟩
  | rejected hrej => exact ⟨fun hno => absurd hrej hno, fun _ => rfl⟩

theorem ExchangeInv.reading {tr : List Move}
    (h : ExchangeInv ids pool₀ txns peer.self blkId bound tr s) :
    UnderWay ids cfg peer blkId s ∨
      Answered ids peer.self blkId txns (knownIn ids pool₀) (knownIn ids pool₀ ∪ recordedIn tr)
        s := by
  have hphase := h.phase
  generalize deliveries tr = n at hphase
  cases hphase with
  | @block d orig hlevel hflight hparked =>
    obtain ⟨v, hv, -, -⟩ := Phase.deliver_block hlevel hparked h.pool
    refine Or.inl ⟨hlevel.silent, _, hflight, ⟨rfl, rfl, hparked⟩, _, .block ?_ hv⟩
    rw [hflight]
    exact List.mem_singleton.mpr rfl
  | @req d orig asked parked hlevel hflight hpending hpos hparked hne hasked =>
    refine Or.inl ⟨hlevel.silent, _, hflight, ⟨rfl, rfl, hparked⟩, _, .req ?_⟩
    rw [hflight]
    exact List.mem_singleton.mpr rfl
  | @done _ out hflight hcleared hanswer hpos hle =>
    exact Or.inr ⟨hflight, hcleared, out, hanswer, hpos.length, fun i t x ht hx =>
      (hpos.settled ht hx).reading h.pool⟩

/-! ## Transactions to exchange

A payment and its grant; and three payments in a row, the first of which makes
its money up. -/

def demoGrant : AvalancheTxn := .grant 10 [1] 0

def demoPay : AvalancheTxn := .send [1] [codeTxn demoGrant] [2] 4 6 []

def demoMint : AvalancheTxn := .send [1] [] [1] 1 0 []

def demoPass : AvalancheTxn := .send [1] [codeTxn demoMint] [1] 1 0 []

def demoSpend : AvalancheTxn := .send [1] [codeTxn demoPass] [1] 1 0 []

theorem Supplied.root {pool : Hash → Option AvalancheTxn} {t : AvalancheTxn}
    (hdeps : (avalancheKind ids).deps t = []) : Supplied ids pool t := by
  intro a ha x hx
  rcases ha.cases_tail with rfl | ⟨p, -, hp⟩
  · rw [hdeps] at hx
    exact absurd hx (by simp)
  · unfold Parent at hp
    rw [hdeps] at hp
    exact absurd hp (by simp)

theorem Supplied.child {pool : Hash → Option AvalancheTxn} {t q : AvalancheTxn}
    (hdeps : (avalancheKind ids).deps t = [ids.txnId q]) (hq : q ∈ knownIn ids pool)
    (h : Supplied ids pool q) : Supplied ids pool t := by
  intro a ha x hx
  rcases ha.cases_tail with rfl | ⟨p, hap, hp⟩
  · rw [hdeps] at hx
    rw [List.mem_singleton.mp hx, show pool (ids.txnId q) = some q from hq]
    rfl
  · unfold Parent at hp
    rw [hdeps] at hp
    obtain rfl : p = q := ids.txnId_inj (List.mem_singleton.mp hp)
    exact h a hap x hx

/-- A run goes on with the delivery of the block that is on its way. -/
theorem run_block {requester proposer' R P : BlockManagement} {block b : Block} {blkId : Nat}
    {tr : List Move} {out out' : List Block} {v : Validated} {inFlight : List Message}
    (hrun : (exchange ids cfg peer requester proposer' block).Run (OtherMove proposer blkId) tr
      ⟨R, P, [.block b], out⟩) (hv : validateBlock ids R b = .ok v)
    (hreq : v.req.toList.map .req = inFlight) (hout : out ++ v.newTail = out') :
    (exchange ids cfg peer requester proposer' block).Run (OtherMove proposer blkId)
      (tr ++ [.deliver (.block b)]) ⟨v.state, P, inFlight, out'⟩ := by
  have hstep : ExchangeStep ids cfg peer ⟨R, P, [.block b], out⟩ _ _ :=
    .block (List.mem_singleton.mpr rfl) hv
  rw [List.erase_cons_head, List.nil_append, hreq, hout] at hstep
  exact hrun.snoc (fun _ h => absurd h (by simp)) hstep

/-- A run goes on with the delivery of the request that is on its way. -/
theorem run_req {requester proposer' R P : BlockManagement} {block b : Block} {blkId : Nat}
    {tr : List Move} {out : List Block} {r : PeerReq}
    (hrun : (exchange ids cfg peer requester proposer' block).Run (OtherMove proposer blkId) tr
      ⟨R, P, [.req r], out⟩) (hb : handlePeerBlkReq P r = b) :
    (exchange ids cfg peer requester proposer' block).Run (OtherMove proposer blkId)
      (tr ++ [.deliver (.req r)]) ⟨R, P, [.block b], out⟩ := by
  have hstep : ExchangeStep ids cfg peer ⟨R, P, [.req r], out⟩ _ _ :=
    .req (List.mem_singleton.mpr rfl)
  rw [List.erase_cons_head, List.nil_append, hb] at hstep
  exact hrun.snoc (fun _ h => absurd h (by simp)) hstep

/-- A node that has recorded two transactions. -/
theorem demo_records (cfg : StageConfig) (txn txn' : AvalancheTxn)
    (h : returns (recordNewTxn .coded .new txn) (fun r => returns (recordNewTxn .coded r.1 txn')
      (fun r' => (r'.1.txnPool (codeTxn txn)).isSome ∧ (r'.1.txnPool (codeTxn txn')).isSome))
      = true) :
    ∃ tr s, (BlockManagement.stage .coded cfg).Run (fun _ _ => True) tr s ∧
      txn ∈ knownIn .coded s.txnPool ∧ txn' ∈ knownIn .coded s.txnPool := by
  obtain ⟨r, hr, h⟩ := returns_iff.mp h
  obtain ⟨r', hr', h⟩ := returns_iff.mp h
  have hact : act .coded cfg .sorted 0 .new (.recordNewTxn txn) = .ok (r.1, []) :=
    bind_eq_ok.mpr ⟨r, hr, rfl⟩
  have hact' : act .coded cfg .sorted 0 r.1 (.recordNewTxn txn') = .ok (r'.1, []) :=
    bind_eq_ok.mpr ⟨r', hr', rfl⟩
  have hrun : (BlockManagement.stage .coded cfg).Run (fun _ _ => True)
      [(.recordNewTxn txn, [])] r.1 :=
    .snoc .nil trivial (⟨.sorted, 0, hact⟩ : ∃ ord fuel, act _ _ ord fuel _ _ = _)
  have hrun' : (BlockManagement.stage .coded cfg).Run (fun _ _ => True)
      [(.recordNewTxn txn, []), (.recordNewTxn txn', [])] r'.1 :=
    hrun.snoc trivial (⟨.sorted, 0, hact'⟩ : ∃ ord fuel, act _ _ ord fuel _ _ = _)
  have hfiled := filedPool_of_run hrun'
  simp only [decide_eq_true_eq] at h
  exact ⟨_, _, hrun', hfiled.mem h.1, hfiled.mem h.2⟩

/-! ## The result -/

/-- **The exchange answers the query.** Whatever else the two nodes do, the
messages of a query number at most a bound that depends on its block alone;
there is one on its way, which can be delivered, until one block has been
emitted; and in that block exactly what is rejected has been replaced. -/
theorem query_answered (ids : UniqueIds) (cfg peer : StageConfig) (blkId : Nat)
    (txns : List AvalancheTxn) {trR trP : List (Act × List Block)}
    {requester proposer : BlockManagement}
    (hrequester : (BlockManagement.stage ids cfg).Run
      (fun _ l => l.1.Other peer.self blkId) trR requester)
    (hproposer : (BlockManagement.stage ids peer).Run (fun _ _ => True) trP proposer)
    (hsupplied : ∀ t ∈ txns, Supplied ids proposer.txnPool t) :
    (∃ N, ∀ tr s, (exchange ids cfg peer requester proposer ⟨peer.self, blkId, 0, txns⟩).Run
      (OtherMove peer.self blkId) tr s → deliveries tr ≤ N) ∧
    ∀ tr s, (exchange ids cfg peer requester proposer ⟨peer.self, blkId, 0, txns⟩).Run
      (OtherMove peer.self blkId) tr s →
      UnderWay ids cfg peer blkId s ∨
      Answered ids peer.self blkId txns (knownIn ids requester.txnPool)
        (knownIn ids requester.txnPool ∪ recordedIn tr) s := by
  have hranks : ∀ t ∈ txns, ids.rank (ids.txnId t) <
      (txns.map fun t => ids.rank (ids.txnId t)).sum + 1 := fun t ht =>
    Nat.lt_succ_of_le (List.le_sum_of_mem (List.mem_map.mpr ⟨t, ht, rfl⟩))
  have hinv : ∀ {tr s}, (exchange ids cfg peer requester proposer
      ⟨peer.self, blkId, 0, txns⟩).Run (OtherMove peer.self blkId) tr s →
      ExchangeInv ids requester.txnPool txns peer.self blkId
        ((txns.map fun t => ids.rank (ids.txnId t)).sum + 1) tr s := by
    intro tr s hrun
    refine hrun.invariant_trace _ ?_ fun tr s m s' hinv hother hstep => hinv.step hother hstep
    exact exchangeInv_start (filedPool_of_run hrequester) (filedPool_of_run hproposer)
      (pending_of_run hrequester) hsupplied hranks
  refine ⟨⟨_, fun tr s hrun => (hinv hrun).deliveries_le (Nat.succ_pos _)⟩, fun tr s hrun => ?_⟩
  exact (hinv hrun).reading

/-- The payment arrives, its grant is asked for and sent, and the query is
answered. -/
theorem query_answered_demo : ∃ proposer tr s,
    (exchange .coded ⟨0, 1⟩ ⟨1, 1⟩ .new proposer ⟨1, 0, 0, [demoPay]⟩).Run (OtherMove 1 0) tr s ∧
    deliveries tr = 3 ∧ Answered .coded 1 0 [demoPay] (knownIn .coded BlockManagement.new.txnPool)
      (knownIn .coded BlockManagement.new.txnPool ∪ recordedIn tr) s := by
  obtain ⟨trP, proposer, hproposer, hgrant, -⟩ :=
    demo_records ⟨1, 1⟩ demoGrant demoPay (by decide +kernel)
  have hsupplied : Supplied .coded proposer.txnPool demoPay := .child rfl hgrant (.root rfl)
  obtain ⟨-, hall⟩ := query_answered .coded ⟨0, 1⟩ ⟨1, 1⟩ 0 [demoPay] .nil hproposer
    fun t ht => List.mem_singleton.mp ht ▸ hsupplied
  have hcheck : returns (validateBlock .coded .new ⟨1, 0, 0, [demoPay]⟩) (fun v₁ =>
      v₁.newTail = [] ∧ v₁.req = some ⟨1, 0, 0, [codeTxn demoGrant]⟩ ∧
      returns (validateBlock .coded v₁.state ⟨1, 0, 1, [demoGrant]⟩) (fun v₂ => v₂.req = none))
      = true := by
    decide +kernel
  obtain ⟨v₁, hv₁, hcheck⟩ := returns_iff.mp hcheck
  simp only [decide_eq_true_eq] at hcheck
  obtain ⟨htail₁, hreq₁, hcheck⟩ := hcheck
  obtain ⟨v₂, hv₂, hreq₂⟩ := returns_iff.mp hcheck
  have hreq₂ : v₂.req = none := by simpa using hreq₂
  have hreply : handlePeerBlkReq proposer
      ⟨1, 0, 0, [codeTxn demoGrant]⟩ = ⟨1, 0, 1, [demoGrant]⟩ := by
    unfold handlePeerBlkReq
    rw [List.filterMap_cons_some (show proposer.txnPool (codeTxn demoGrant) = _ from hgrant)]
    rfl
  have hrun₁ : (exchange .coded ⟨0, 1⟩ ⟨1, 1⟩ .new proposer ⟨1, 0, 0, [demoPay]⟩).Run
      (OtherMove 1 0)
      [.deliver (.block ⟨1, 0, 0, [demoPay]⟩)]
      ⟨v₁.state, proposer, [.req ⟨1, 0, 0, [codeTxn demoGrant]⟩], []⟩ :=
    run_block .nil hv₁ (by rw [hreq₁]; rfl) (by rw [htail₁]; rfl)
  have hquiet : v₂.req.toList.map Message.req = [] := by
    rw [hreq₂]
    rfl
  have hrun₃ := run_block (run_req hrun₁ hreply) hv₂ hquiet rfl
  refine ⟨proposer, _, _, hrun₃, rfl, (hall _ _ hrun₃).resolve_left fun hway => ?_⟩
  obtain ⟨m, hm, -⟩ := hway.message
  exact absurd hm (by simp)

/-- What is behind a known transaction is not looked at: the requester has
recorded the second payment, and so takes the third one, though the first is
unknown to it and fails the check. -/
theorem hidden_ancestor : ∃ trR requester trP proposer tr s,
    (BlockManagement.stage .coded ⟨0, 1⟩).Run (fun _ l => l.1.Other 1 0) trR requester ∧
    (BlockManagement.stage .coded ⟨1, 1⟩).Run (fun _ _ => True) trP proposer ∧
    Supplied .coded proposer.txnPool demoSpend ∧
    (exchange .coded ⟨0, 1⟩ ⟨1, 1⟩ requester proposer ⟨1, 0, 0, [demoSpend]⟩).Run (OtherMove 1 0)
      tr s ∧
    s.inFlight = [] ∧ answers 1 0 s.emitted = [⟨1, 0, 0, [demoSpend]⟩] ∧
    Parent .coded demoMint demoPass ∧ Parent .coded demoPass demoSpend ∧
    demoMint ∉ knownIn .coded s.requester.txnPool ∧ FailsCheck .coded demoMint := by
  obtain ⟨trP, proposer, hproposer, hmint, hpass⟩ :=
    demo_records ⟨1, 1⟩ demoMint demoPass (by decide +kernel)
  have hsupplied : Supplied .coded proposer.txnPool demoSpend :=
    .child rfl hpass (.child rfl hmint (.root rfl))
  have hcheck : returns (recordNewTxn .coded .new demoPass) (fun r =>
      returns (validateBlock .coded r.1 ⟨1, 0, 0, [demoSpend]⟩) (fun v =>
        v.newTail = [⟨1, 0, 0, [demoSpend]⟩] ∧ v.req = none ∧
        v.state.txnPool (codeTxn demoMint) = none)) = true := by
    decide +kernel
  obtain ⟨r, hr, hcheck⟩ := returns_iff.mp hcheck
  obtain ⟨v, hv, hcheck⟩ := returns_iff.mp hcheck
  simp only [decide_eq_true_eq] at hcheck
  obtain ⟨htail, hreq, hnone⟩ := hcheck
  have hact : act .coded ⟨0, 1⟩ .sorted 0 .new (.recordNewTxn demoPass) = .ok (r.1, []) :=
    bind_eq_ok.mpr ⟨r, hr, rfl⟩
  have hrequester : (BlockManagement.stage .coded ⟨0, 1⟩).Run (fun _ l => l.1.Other 1 0)
      [(.recordNewTxn demoPass, [])] r.1 :=
    .snoc .nil (fun _ h => absurd h (by simp))
      (⟨.sorted, 0, hact⟩ : ∃ ord fuel, act _ _ ord fuel _ _ = _)
  have hrun : (exchange .coded ⟨0, 1⟩ ⟨1, 1⟩ r.1 proposer ⟨1, 0, 0, [demoSpend]⟩).Run
      (OtherMove 1 0)
      [.deliver (.block ⟨1, 0, 0, [demoSpend]⟩)]
      ⟨v.state, proposer, [], [⟨1, 0, 0, [demoSpend]⟩]⟩ :=
    run_block .nil hv (by rw [hreq]; rfl) htail
  refine ⟨_, r.1, trP, proposer, _, _, hrequester, hproposer, hsupplied, hrun, rfl, rfl,
    List.mem_singleton.mpr rfl, List.mem_singleton.mpr rfl, fun hin => ?_, [],
    rfl, by decide +kernel⟩
  rw [show v.state.txnPool (codeTxn demoMint) = some demoMint from hin] at hnone
  exact absurd hnone (by simp)

end Copycat.Avalanche
