import Copycat.Avalanche.Returns

/-!
# Every query is decided once

A node queries its peers about its own blocks, and decides a query when `k`
votes are in or its timer goes off. Votes may come before `new_tail` has seen
the block, in any number, and after the query has been decided. `QueryInv` is
what the maps of the stage agree on in the meantime: a block that `new_tail`
has seen is either pending, with votes and one timer, or finished, with one
entry in the commit queue and one message to the pacemaker.

`query_decided_once` is the result, for both voting rules. The blocks a node
queries and their lengths are given by `own`; what the callers promise is that
the node's own blocks have different ids, and that a vote for an own block has
the length of the block.
-/

namespace Copycat.Avalanche

open Copycat.Lib

variable {C : Type} {cfg : Config C}

/-! ## What a run has been fed -/

/-- The own block a call brings. -/
def Call.ownId (cfg : Config C) : Call → Option Nat
  | .newTail _ [blk] => if blk.proposer = cfg.self then some blk.id else none
  | _ => none

/-- The block a call brings a vote for: the node's own vote comes with the
block. -/
def Call.vote (cfg : Config C) : Call → Option Nat
  | .newTail _ [blk] => if blk.proposer = cfg.self then some blk.id else none
  | .peerMsg src (some msg) =>
    if cfg.verify src (msg.round, msg.votes) msg.signature then some msg.round else none
  | _ => none

/-- The block a call takes out of the commit queue. -/
def Call.outId : Call → Option Nat
  | .commit blkId _ => some blkId
  | _ => none

/-- The own blocks seen by `new_tail`. -/
def ownIds (cfg : Config C) (tr : List Call) : List Nat :=
  tr.filterMap (Call.ownId cfg)

/-- How many votes have come in for a block. -/
def votesFor (cfg : Config C) (tr : List Call) (id : Nat) : Nat :=
  (tr.filterMap (Call.vote cfg)).count id

/-- The blocks `next_to_commit` has returned. -/
def outIds (tr : List Call) : List Nat :=
  tr.filterMap Call.outId

theorem ownIds_snoc (tr : List Call) (call : Call) :
    ownIds cfg (tr ++ [call]) = ownIds cfg tr ++ (call.ownId cfg).toList := by
  unfold ownIds
  rw [List.filterMap_append]
  cases h : call.ownId cfg <;> simp [h]

theorem outIds_snoc (tr : List Call) (call : Call) :
    outIds (tr ++ [call]) = outIds tr ++ call.outId.toList := by
  unfold outIds
  rw [List.filterMap_append]
  cases h : call.outId <;> simp [h]

theorem votesFor_snoc_none {call : Call} (h : call.vote cfg = none) (tr : List Call) :
    votesFor cfg (tr ++ [call]) = votesFor cfg tr := by
  funext id
  simp [votesFor, h]

theorem votesFor_snoc_some {call : Call} {blkId : Nat} (h : call.vote cfg = some blkId)
    (tr : List Call) : votesFor cfg (tr ++ [call]) =
      Function.update (votesFor cfg tr) blkId (votesFor cfg tr blkId + 1) := by
  funext id
  by_cases hid : id = blkId
  · subst hid
    simp [votesFor, h]
  · simp [votesFor, h, hid, Ne.symm hid]

/-! ## `TimeQueue` -/

theorem TimeQueue.push_perm (q : TimeQueue) (data time : Nat) :
    ((q.push data time).map Prod.fst).Perm (data :: q.map Prod.fst) := by
  have hsplit : (q.reverse.dropWhile fun te => decide (te.2 > time)).reverse ++
      (q.reverse.takeWhile fun te => decide (te.2 > time)).reverse = q := by
    rw [← List.reverse_append, List.takeWhile_append_dropWhile, List.reverse_reverse]
  have hperm : (q.push data time).Perm ((data, time) :: q) := by
    unfold push
    rw [List.append_assoc]
    nth_rewrite 3 [← hsplit]
    exact List.perm_middle
  exact hperm.map Prod.fst

theorem TimeQueue.remove_fst (q : TimeQueue) (data : Nat) :
    (q.remove data).map Prod.fst = (q.map Prod.fst).erase data := by
  unfold remove
  induction q with
  | nil => rfl
  | cons te q ih =>
    by_cases h : te.1 = data
    · simp [h]
    · simp [h, ih]

/-! ## The invariant -/

/-- What the maps agree on, when `new_tail` has seen the own blocks `seen`,
`cast` counts the votes that came in, and `out` has left the commit queue. -/
structure QueryInv (own : Nat → Option Nat) (seen : List Nat) (cast : Nat → Nat) (out : List Nat)
    (s : Decision C) : Prop where
  pending : ∀ id txns, s.queryPool id = some txns →
    id ∈ seen ∧ id ∉ s.finishedQuery ∧ own id = some txns.length ∧ s.votes id ≠ none
  finished : ∀ id ∈ s.finishedQuery, id ∈ seen ∧ s.votes id = none
  handled : ∀ id ∈ seen, id ∈ s.finishedQuery ∨ s.queryPool id ≠ none
  entry : ∀ id n acc, s.votes id = some (n, acc) →
    n = cast id ∧ ∀ m, own id = some m → acc.length = m
  unvoted : ∀ id, s.votes id = none → id ∉ s.finishedQuery → cast id = 0
  timers : (s.voteTimeQueue.map Prod.fst).Nodup
  timed : ∀ id, id ∈ s.voteTimeQueue.map Prod.fst ↔ s.queryPool id ≠ none
  queued : (out ++ s.commitQueue.map Prod.fst).Nodup
  committed : ∀ id, id ∈ out ++ s.commitQueue.map Prod.fst ↔ id ∈ s.finishedQuery
  feedback : s.pmakerFeedback = s.finishedQuery.card

section

variable {own : Nat → Option Nat} {seen out : List Nat} {cast : Nat → Nat} {s : Decision C}
  {blkId : Nat}

/-- The ledger does not matter. -/
theorem QueryInv.ledger (h : QueryInv own seen cast out s) (l : Ledger C) :
    QueryInv own seen cast out { s with toLedger := l } :=
  ⟨h.pending, h.finished, h.handled, h.entry, h.unvoted, h.timers, h.timed, h.queued, h.committed,
    h.feedback⟩

/-- A vote for a query that is finished. -/
theorem QueryInv.ignored (h : QueryInv own seen cast out s) (hfin : blkId ∈ s.finishedQuery) :
    QueryInv own seen (Function.update cast blkId (cast blkId + 1)) out s := by
  refine ⟨h.pending, h.finished, h.handled, ?_, ?_, h.timers, h.timed, h.queued, h.committed,
    h.feedback⟩
  · intro id n acc hv
    have hne : id ≠ blkId := by
      rintro rfl
      rw [(h.finished id hfin).2] at hv
      exact absurd hv (by simp)
    rw [Function.update_of_ne hne]
    exact h.entry id n acc hv
  · intro id hv hid
    have hne : id ≠ blkId := by
      rintro rfl
      exact hid hfin
    rw [Function.update_of_ne hne]
    exact h.unvoted id hv hid

/-- A vote for a query that is not. -/
theorem QueryInv.vote (h : QueryInv own seen cast out s) (hfin : blkId ∉ s.finishedQuery)
    {votes : List Bool} (hlen : ∀ m, own blkId = some m → votes.length = m) :
    QueryInv own seen (Function.update cast blkId (cast blkId + 1)) out
      (voted s blkId votes) := by
  have hother : ∀ id, id ≠ blkId → (voted s blkId votes).votes id = s.votes id :=
    fun id hid => Function.update_of_ne hid _ _
  refine ⟨?_, ?_, h.handled, ?_, ?_, h.timers, h.timed, h.queued, h.committed, h.feedback⟩
  · intro id txns hq
    obtain ⟨h1, h2, h3, h4⟩ := h.pending id txns hq
    refine ⟨h1, h2, h3, ?_⟩
    by_cases hid : id = blkId
    · subst hid
      simp [voted]
    · rw [hother id hid]
      exact h4
  · intro id hid
    have hne : id ≠ blkId := by
      rintro rfl
      exact hfin hid
    rw [hother id hne]
    exact h.finished id hid
  · intro id n acc hv
    by_cases hid : id = blkId
    · subst hid
      have hv' : some (((s.votes id).getD (0, List.replicate votes.length 0)).1 + 1,
          addVotes ((s.votes id).getD (0, List.replicate votes.length 0)).2 votes) =
          some (n, acc) := (Function.update_self id _ s.votes).symm.trans hv
      rw [Option.some.injEq, Prod.mk.injEq] at hv'
      obtain ⟨rfl, rfl⟩ := hv'
      rw [Function.update_self]
      cases he : s.votes id with
      | none =>
        refine ⟨?_, fun m hm => ?_⟩
        · rw [h.unvoted id he hfin]
          rfl
        · simp [addVotes, hlen m hm]
      | some e =>
        obtain ⟨h1, h2⟩ := h.entry id e.1 e.2 he
        refine ⟨?_, fun m hm => ?_⟩
        · show e.1 + 1 = cast id + 1
          rw [h1]
        · simp [addVotes, hlen m hm, h2 m hm]
    · rw [Function.update_of_ne hid]
      rw [hother id hid] at hv
      exact h.entry id n acc hv
  · intro id hv hid
    by_cases hne : id = blkId
    · subst hne
      exact absurd hv (by simp [voted])
    · rw [Function.update_of_ne hne]
      rw [hother id hne] at hv
      exact h.unvoted id hv hid

/-- A block comes in that has a vote. -/
theorem QueryInv.register (h : QueryInv own seen cast out s) (hnew : blkId ∉ seen)
    (hvote : s.votes blkId ≠ none) {txns : List (Option Hash)}
    (hown : own blkId = some txns.length) (time : Nat) :
    QueryInv own (seen ++ [blkId]) cast out
      { s with
        queryPool := Function.update s.queryPool blkId (some txns)
        voteTimeQueue := s.voteTimeQueue.push blkId time } := by
  have hfin : blkId ∉ s.finishedQuery := fun hin => hnew (h.finished blkId hin).1
  have htimer : blkId ∉ s.voteTimeQueue.map Prod.fst := by
    intro hin
    obtain ⟨txns', hq⟩ := Option.ne_none_iff_exists'.mp ((h.timed blkId).mp hin)
    exact hnew (h.pending blkId txns' hq).1
  have hperm := s.voteTimeQueue.push_perm blkId time
  refine ⟨?_, ?_, ?_, h.entry, h.unvoted, ?_, ?_, h.queued, h.committed, h.feedback⟩
  · intro id txns' hq
    by_cases hid : id = blkId
    · subst hid
      rw [show txns' = txns by simpa using hq.symm]
      exact ⟨by simp, hfin, hown, hvote⟩
    · obtain ⟨h1, h2⟩ := h.pending id txns' (by simpa [Function.update_of_ne hid] using hq)
      exact ⟨by simp [h1], h2⟩
  · intro id hid
    obtain ⟨h1, h2⟩ := h.finished id hid
    exact ⟨by simp [h1], h2⟩
  · intro id hid
    show id ∈ s.finishedQuery ∨ Function.update s.queryPool blkId (some txns) id ≠ none
    by_cases hne : id = blkId
    · subst hne
      exact Or.inr (by simp)
    · rw [Function.update_of_ne hne]
      exact h.handled id (by simpa [hne] using hid)
  · exact hperm.nodup_iff.mpr (List.nodup_cons.mpr ⟨htimer, h.timers⟩)
  · intro id
    show id ∈ (s.voteTimeQueue.push blkId time).map Prod.fst ↔
      Function.update s.queryPool blkId (some txns) id ≠ none
    rw [hperm.mem_iff, List.mem_cons]
    by_cases hne : id = blkId
    · subst hne
      simp
    · rw [Function.update_of_ne hne, ← h.timed id]
      simp [hne]

/-- A pending query is decided. -/
theorem QueryInv.finish (h : QueryInv own seen cast out s) (hq : s.queryPool blkId ≠ none)
    (l : Ledger C) (c : List Hash) : QueryInv own seen cast out (finish s blkId l c) := by
  obtain ⟨txns, htxns⟩ := Option.ne_none_iff_exists'.mp hq
  obtain ⟨hseen, hfin, -, -⟩ := h.pending blkId txns htxns
  have hnew : blkId ∉ out ++ s.commitQueue.map Prod.fst := fun hin =>
    hfin ((h.committed blkId).mp hin)
  have hqueue : out ++ (s.commitQueue ++ [(blkId, c)]).map Prod.fst =
      (out ++ s.commitQueue.map Prod.fst) ++ [blkId] := by simp
  refine ⟨?_, ?_, ?_, ?_, ?_, ?_, ?_, ?_, ?_, ?_⟩
  · intro id txns' hq'
    have hne : id ≠ blkId := by
      rintro rfl
      exact absurd hq' (by simp [Avalanche.finish])
    obtain ⟨h1, h2, h3, h4⟩ := h.pending id txns' (by
      simpa [Avalanche.finish, Function.update_of_ne hne] using hq')
    refine ⟨h1, by simp [Avalanche.finish, hne, h2], h3, ?_⟩
    simpa [Avalanche.finish, Function.update_of_ne hne] using h4
  · intro id hid
    by_cases hne : id = blkId
    · subst hne
      exact ⟨hseen, by simp [Avalanche.finish]⟩
    · obtain ⟨h1, h2⟩ := h.finished id (by simpa [Avalanche.finish, hne] using hid)
      exact ⟨h1, by simpa [Avalanche.finish, Function.update_of_ne hne] using h2⟩
  · intro id hid
    by_cases hne : id = blkId
    · subst hne
      exact Or.inl (by simp [Avalanche.finish])
    · rcases h.handled id hid with h' | h'
      · exact Or.inl (by simp [Avalanche.finish, h'])
      · exact Or.inr (by simpa [Avalanche.finish, Function.update_of_ne hne] using h')
  · intro id n acc hv
    have hne : id ≠ blkId := by
      rintro rfl
      exact absurd hv (by simp [Avalanche.finish])
    exact h.entry id n acc (by simpa [Avalanche.finish, Function.update_of_ne hne] using hv)
  · intro id hv hid
    have hne : id ≠ blkId := by
      rintro rfl
      exact absurd hid (by simp [Avalanche.finish])
    refine h.unvoted id ?_ ?_
    · simpa [Avalanche.finish, Function.update_of_ne hne] using hv
    · simpa [Avalanche.finish, hne] using hid
  · show ((s.voteTimeQueue.remove blkId).map Prod.fst).Nodup
    rw [TimeQueue.remove_fst]
    exact h.timers.erase blkId
  · intro id
    show id ∈ (s.voteTimeQueue.remove blkId).map Prod.fst ↔
      Function.update s.queryPool blkId none id ≠ none
    rw [TimeQueue.remove_fst, h.timers.mem_erase_iff]
    by_cases hne : id = blkId
    · subst hne
      simp
    · rw [Function.update_of_ne hne, ← h.timed id]
      simp [hne]
  · show (out ++ (s.commitQueue ++ [(blkId, c)]).map Prod.fst).Nodup
    rw [hqueue]
    exact (List.perm_append_singleton _ _).nodup_iff.mpr (List.nodup_cons.mpr ⟨hnew, h.queued⟩)
  · intro id
    show id ∈ out ++ (s.commitQueue ++ [(blkId, c)]).map Prod.fst ↔
      id ∈ insert blkId s.finishedQuery
    rw [hqueue, List.mem_append, h.committed id, Finset.mem_insert, List.mem_singleton]
    exact Or.comm
  · show s.pmakerFeedback + 1 = (insert blkId s.finishedQuery).card
    rw [Finset.card_insert_of_notMem hfin, h.feedback]

/-- No pending query has `k` votes. -/
def Quorum (k : Nat) (s : Decision C) : Prop :=
  ∀ id n acc, s.queryPool id ≠ none → s.votes id = some (n, acc) → n < k

/-- `handle_votes` on a state in which nothing else has `k` votes. -/
theorem QueryInv.handleVotes (h : QueryInv own seen cast out s)
    (hquorum : ∀ id n acc, id ≠ blkId → s.queryPool id ≠ none → s.votes id = some (n, acc) →
      n < cfg.k) {fuel : Nat} {s' : Decision C}
    (hv : Avalanche.handleVotes cfg fuel s blkId = .ok s') :
    QueryInv own seen cast out s' ∧ Quorum cfg.k s' := by
  rcases handleVotes_cases hv with ⟨hnone, rfl⟩ | ⟨txns, n, acc, l, c, hq, -, -, -, rfl⟩
  · refine ⟨h, fun id n acc hq => hquorum id n acc ?_ hq⟩
    rintro rfl
    exact hq hnone
  · refine ⟨h.finish (by simp [hq]) l c, fun id n acc hq' hvote => ?_⟩
    have hne : id ≠ blkId := by
      rintro rfl
      exact absurd hq' (by simp [Avalanche.finish])
    refine hquorum id n acc hne ?_ ?_
    · simpa [Avalanche.finish, Function.update_of_ne hne] using hq'
    · simpa [Avalanche.finish, Function.update_of_ne hne] using hvote

/-- `record_votes`, in terms of the state with the vote counted. -/
theorem QueryInv.recordVotes {votes : List Bool}
    (h : QueryInv own seen cast out (voted s blkId votes)) (hfin : blkId ∉ s.finishedQuery)
    (hquorum : ∀ id n acc, id ≠ blkId → s.queryPool id ≠ none → s.votes id = some (n, acc) →
      n < cfg.k) {fuel : Nat} {s' : Decision C}
    (hr : Avalanche.recordVotes cfg fuel s blkId votes = .ok s') :
    QueryInv own seen cast out s' ∧ Quorum cfg.k s' := by
  have hquorum' : ∀ id n acc, id ≠ blkId → (voted s blkId votes).queryPool id ≠ none →
      (voted s blkId votes).votes id = some (n, acc) → n < cfg.k := by
    intro id n acc hne hq hv
    exact hquorum id n acc hne hq (by simpa [voted, Function.update_of_ne hne] using hv)
  rcases recordVotes_cases hr with ⟨hin, -⟩ | ⟨-, -, ⟨hk, rfl⟩ | ⟨-, hv⟩⟩
  · exact absurd hin hfin
  · refine ⟨h, fun id n acc hq hv => ?_⟩
    by_cases hne : id = blkId
    · subst hne
      have hv' := (Function.update_self id _ s.votes).symm.trans hv
      rw [Option.some.injEq, Prod.mk.injEq] at hv'
      rw [← hv'.1]
      exact hk
    · exact hquorum' id n acc hne hq hv
  · exact h.handleVotes hquorum' hv

end

/-! ## Runs -/

/-- What the callers promise, when the own blocks of the node and their lengths
are `own`: a vote for an own block has the length of the block. -/
def Promised (cfg : Config C) (own : Nat → Option Nat) : Call → Prop
  | .newTail _ [blk] => blk.proposer = cfg.self → own blk.id = some blk.txns.length
  | .peerMsg _ (some msg) => ∀ n, own msg.round = some n → msg.votes.length = n
  | _ => True

/-- The law of a run. -/
def RunQueries (cfg : Config C) (own : Nat → Option Nat) (tr : List Call) (s : Decision C) :
    Prop :=
  QueryInv own (ownIds cfg tr) (votesFor cfg tr) (outIds tr) s ∧ Quorum cfg.k s

/-- A call that brings no block and no vote, and takes nothing out. -/
theorem RunQueries.silent {own : Nat → Option Nat} {tr : List Call} {s : Decision C} {call : Call}
    (h : RunQueries cfg own tr s) (hown : call.ownId cfg = none) (hvote : call.vote cfg = none)
    (hout : call.outId = none) : RunQueries cfg own (tr ++ [call]) s := by
  unfold RunQueries
  rw [ownIds_snoc, outIds_snoc, hown, hout, votesFor_snoc_none hvote]
  simpa [RunQueries] using h

/-- An own block. -/
theorem RunQueries.ownBlock {own : Nat → Option Nat} {tr : List Call} {s s' : Decision C}
    {blk : Block} {src : NodeId} {fuel time : Nat} {b : Batch C} (h : RunQueries cfg own tr s)
    (hself : blk.proposer = cfg.self) (hnew : blk.id ∉ ownIds cfg tr)
    (hown : own blk.id = some blk.txns.length) (hvotes : b.votes.length = blk.txns.length)
    (hquery : b.queryTxns.length = blk.txns.length)
    (hr : recordVotes cfg fuel
      { s with
        toLedger := b.ledger
        queryPool := Function.update s.queryPool blk.id (some b.queryTxns)
        voteTimeQueue := s.voteTimeQueue.push blk.id time } blk.id b.votes = .ok s') :
    RunQueries cfg own (tr ++ [.newTail src [blk]]) s' := by
  obtain ⟨hinv, hquorum⟩ := h
  have hfin : blk.id ∉ s.finishedQuery := fun hin => hnew (hinv.finished blk.id hin).1
  -- the vote can be counted before the block is registered
  have hlen : ∀ m, own blk.id = some m → b.votes.length = m := by
    intro m hm
    rw [hown, Option.some.injEq] at hm
    rw [hvotes, hm]
  have hvoted := (hinv.ledger b.ledger).vote hfin hlen
  have hreg := hvoted.register hnew (by simp [voted]) (hquery ▸ hown) time
  have hseen : ownIds cfg (tr ++ [.newTail src [blk]]) = ownIds cfg tr ++ [blk.id] := by
    rw [ownIds_snoc]
    simp [Call.ownId, hself]
  have hcast : (Call.newTail src [blk]).vote cfg = some blk.id := by simp [Call.vote, hself]
  unfold RunQueries
  rw [hseen, votesFor_snoc_some hcast, outIds_snoc]
  simp only [Call.outId, Option.toList_none, List.append_nil]
  refine QueryInv.recordVotes ?_ ?_ ?_ hr
  · exact hreg
  · exact hfin
  intro id n acc hne hq hv
  exact hquorum id n acc (by simpa [Function.update_of_ne hne] using hq) hv

/-- The timer that goes off is the first of the queue, and its query is
pending. -/
theorem QueryInv.front {own : Nat → Option Nat} {seen out : List Nat} {cast : Nat → Nat}
    {s : Decision C} (h : QueryInv own seen cast out s) {blkId time : Nat} {rest : TimeQueue}
    (hq : s.voteTimeQueue = (blkId, time) :: rest) :
    s.queryPool blkId ≠ none ∧ rest.remove blkId = s.voteTimeQueue.remove blkId := by
  have hnd := h.timers
  rw [hq, List.map_cons, List.nodup_cons] at hnd
  refine ⟨(h.timed blkId).mp (by simp [hq]), ?_⟩
  have hrest : rest.remove blkId = rest := by
    refine List.eraseP_of_forall_not fun te hte hid => hnd.1 ?_
    exact List.mem_map.mpr ⟨te, hte, by simpa using hid⟩
  rw [hrest, hq]
  simp [TimeQueue.remove]

/-- A verified vote of a peer: it is counted, or it comes too late. -/
theorem RunQueries.peerVote {own : Nat → Option Nat} {tr : List Call} {s s' : Decision C}
    {fuel : Nat} {src : NodeId} {msg : VoteMsg} (h : RunQueries cfg own tr s)
    (hvalid : cfg.verify src (msg.round, msg.votes) msg.signature = true)
    (hcall : Promised cfg own (.peerMsg src (some msg)))
    (hs : handlePeerMsg cfg fuel s src (some msg) = .ok s') :
    RunQueries cfg own (tr ++ [.peerMsg src (some msg)]) s' := by
  have hcast : (Call.peerMsg src (some msg)).vote cfg = some msg.round := by
    simp [Call.vote, hvalid]
  unfold RunQueries
  rw [ownIds_snoc, outIds_snoc, votesFor_snoc_some hcast]
  simp only [Call.ownId, Call.outId, Option.toList_none, List.append_nil]
  obtain ⟨rfl, hidle⟩ | ⟨msg', he, hfin, -, hr⟩ := handlePeerMsg_cases hs
  · exact ⟨h.1.ignored (hidle msg rfl hvalid), h.2⟩
  · rw [Option.some.injEq] at he
    subst he
    exact QueryInv.recordVotes (h.1.vote hfin hcall) hfin (fun id n acc _ => h.2 id n acc) hr

/-- A timer that goes off decides its query. -/
theorem RunQueries.timedOut {own : Nat → Option Nat} {tr : List Call} {s s' : Decision C}
    {fuel : Nat} (h : RunQueries cfg own tr s) (hs : handleTimeout cfg fuel s = .ok s') :
    RunQueries cfg own tr s' := by
  obtain ⟨blkId, time, rest, hq, hs⟩ := handleTimeout_cases hs
  obtain ⟨hpend, hrest⟩ := h.1.front hq
  obtain ⟨txns, htxns⟩ := Option.ne_none_iff_exists'.mp hpend
  obtain ⟨-, hfin, -⟩ := h.1.pending blkId txns htxns
  obtain ⟨hin, -⟩ | ⟨-, hv⟩ := hs
  · exact absurd hin hfin
  rcases handleVotes_cases hv with ⟨hnone, -⟩ | ⟨txns', n, acc, l, c, hq', hv, hlen, hf, rfl⟩
  · exact absurd hnone hpend
  · -- the timer is gone either way
    have hsame : finish { s with voteTimeQueue := rest } blkId l c = finish s blkId l c := by
      unfold finish
      rw [hrest]
    rw [hsame]
    refine ⟨h.1.finish hpend l c, fun id n acc hq hv => ?_⟩
    have hne : id ≠ blkId := by
      rintro rfl
      exact absurd hq (by simp [finish])
    refine h.2 id n acc ?_ ?_
    · simpa [finish, Function.update_of_ne hne] using hq
    · simpa [finish, Function.update_of_ne hne] using hv

theorem runQueries_step {own : Nat → Option Nat} {tr : List Call} {s s' : Decision C}
    {call : Call} (h : RunQueries cfg own tr s) (hids : (ownIds cfg (tr ++ [call])).Nodup)
    (hcall : Promised cfg own call) (hs : Step cfg s call s') :
    RunQueries cfg own (tr ++ [call]) s' := by
  cases hs with
  | @newTail _ fuel now src tail reply hs =>
    obtain ⟨rfl, rfl, -⟩ | ⟨blk, b, rfl, -, -, hb, hs⟩ := newTail_cases hs
    · exact h.silent rfl rfl rfl
    obtain ⟨-, hvotes, hquery⟩ := newTxns_ops hb
    obtain ⟨hself, hr, -⟩ | ⟨hself, rfl, -⟩ := hs
    · have hnew : blk.id ∉ ownIds cfg tr := by
        intro hin
        rw [ownIds_snoc, List.nodup_append] at hids
        exact hids.2.2 blk.id hin blk.id (by simp [Call.ownId, hself]) rfl
      exact h.ownBlock hself hnew (hcall hself) hvotes hquery hr
    · refine RunQueries.silent ⟨h.1.ledger b.ledger, h.2⟩ ?_ ?_ rfl
      · simp [Call.ownId, hself]
      · simp [Call.vote, hself]
  | @peerMsg _ fuel src content hs =>
    cases content with
    | none =>
      obtain ⟨rfl, -⟩ | ⟨msg, he, -⟩ := handlePeerMsg_cases hs
      · exact h.silent rfl rfl rfl
      · exact absurd he (by simp)
    | some msg =>
      by_cases hvalid : cfg.verify src (msg.round, msg.votes) msg.signature = true
      · exact h.peerVote hvalid hcall hs
      · obtain ⟨rfl, -⟩ | ⟨msg', he, -, hver, -⟩ := handlePeerMsg_cases hs
        · exact h.silent rfl (by simp [Call.vote, hvalid]) rfl
        · rw [Option.some.injEq] at he
          exact absurd (he ▸ hver) hvalid
  | timeout hne hs => exact RunQueries.silent (h.timedOut hs) rfl rfl rfl
  | commit hne hs =>
    obtain ⟨hashes, rest, hq, -, rfl⟩ := nextToCommit_cases hs
    obtain ⟨hinv, hquorum⟩ := h
    have hqueued := hinv.queued
    have hcommitted := hinv.committed
    rw [hq] at hqueued hcommitted
    unfold RunQueries
    rw [ownIds_snoc, outIds_snoc, votesFor_snoc_none rfl]
    simp only [Call.ownId, Call.outId, Option.toList_none, List.append_nil, Option.toList_some]
    refine ⟨⟨hinv.pending, hinv.finished, hinv.handled, hinv.entry, hinv.unvoted, hinv.timers,
      hinv.timed, ?_, ?_, hinv.feedback⟩, hquorum⟩
    · simpa using hqueued
    · simpa using hcommitted

theorem runQueries_run {own : Nat → Option Nat} {tr : List Call} {s : Decision C}
    (h : (stage cfg).Run (fun _ call => Promised cfg own call) tr s)
    (hids : (ownIds cfg tr).Nodup) : RunQueries cfg own tr s := by
  refine h.invariant_trace (fun tr s => (ownIds cfg tr).Nodup → RunQueries cfg own tr s) ?_ ?_ hids
  · refine fun _ => ⟨⟨?_, ?_, ?_, ?_, ?_, List.nodup_nil, ?_, List.nodup_nil, ?_, rfl⟩, ?_⟩
    · intro id txns hq
      exact absurd hq (by simp [stage, Decision.new])
    · intro id hid
      exact absurd hid (by simp [stage, Decision.new])
    · intro id hid
      exact absurd hid (by simp [ownIds])
    · intro id n acc hv
      exact absurd hv (by simp [stage, Decision.new])
    · exact fun _ _ _ => rfl
    · intro id
      simp [stage, Decision.new]
    · intro id
      simp [stage, Decision.new, outIds]
    · intro id n acc hq
      exact absurd hq (by simp [stage, Decision.new])
  · intro tr s call s' hinv hcall hs hids
    have hprefix : (ownIds cfg tr).Nodup := by
      rw [ownIds_snoc] at hids
      exact hids.of_append_left
    exact runQueries_step (hinv hprefix) hids hcall hs

/-! ## The calls return -/

/-- A call returns, however large the fuel. -/
def Returns (cfg : Config C) (s : Decision C) : Call → Prop
  | .newTail src tail =>
    ∀ now, ∃ N, ∀ fuel, N ≤ fuel → ∃ r, newTail cfg fuel now s src tail = .ok r
  | .peerMsg src content =>
    ∃ N, ∀ fuel, N ≤ fuel → ∃ s', handlePeerMsg cfg fuel s src content = .ok s'
  | .timeout => ∃ N, ∀ fuel, N ≤ fuel → ∃ s', handleTimeout cfg fuel s = .ok s'
  | .commit _ _ => ∃ r, nextToCommit s = .ok r

/-- When a call is made. A block comes alone, from its proposer, and an own one
has a new id; a vote for something that is no own block has the length of the
ones before it; `handle_timeout` and `next_to_commit` wait for their queues. -/
def Enabled (cfg : Config C) (own : Nat → Option Nat) (seen : List Nat) (s : Decision C) :
    Call → Prop
  | .newTail _ [] => True
  | .newTail src [blk] =>
    blk.depth = 0 ∧ src = blk.proposer ∧ (blk.proposer = cfg.self → blk.id ∉ seen)
  | .newTail _ (_ :: _ :: _) => False
  | .peerMsg _ none => True
  | .peerMsg _ (some msg) => own msg.round = none →
    ∀ n acc, s.votes msg.round = some (n, acc) → acc.length = msg.votes.length
  | .timeout => s.voteTimeQueue ≠ []
  | .commit _ _ => s.commitQueue ≠ []

section

variable {own : Nat → Option Nat} {seen out : List Nat} {cast : Nat → Nat} {s : Decision C}

/-- A pending query has as many counters as transactions. -/
theorem QueryInv.counters (h : QueryInv own seen cast out s) {blkId : Nat}
    {txns : List (Option Hash)} (hq : s.queryPool blkId = some txns) :
    ∃ n acc, s.votes blkId = some (n, acc) ∧ txns.length = acc.length := by
  obtain ⟨-, -, hown, hvote⟩ := h.pending blkId txns hq
  obtain ⟨⟨n, acc⟩, hv⟩ := Option.ne_none_iff_exists'.mp hvote
  exact ⟨n, acc, hv, ((h.entry blkId n acc hv).2 txns.length hown).symm⟩

theorem handleVotes_returns (hl : LedgerInv cfg.ids s.toLedger) {blkId : Nat}
    (hc : ∀ txns, s.queryPool blkId = some txns →
      ∃ n acc, s.votes blkId = some (n, acc) ∧ txns.length = acc.length) :
    ∃ N, ∀ fuel, N ≤ fuel → ∃ s', handleVotes cfg fuel s blkId = .ok s' := by
  cases hq : s.queryPool blkId with
  | none =>
    refine ⟨0, fun fuel _ => ⟨s, ?_⟩⟩
    unfold handleVotes
    rw [hq]
  | some txns =>
    obtain ⟨n, acc, hv, hlen⟩ := hc txns hq
    obtain ⟨N, hN⟩ := handleSlots_returns hl blkId (txns.zip acc).zipIdx
    refine ⟨N, fun fuel hfuel => ?_⟩
    obtain ⟨⟨l, c⟩, hf⟩ := hN fuel hfuel
    refine ⟨finish s blkId l c, ?_⟩
    unfold handleVotes
    rw [hq]
    dsimp only
    rw [hv, bind_eq_ok]
    refine ⟨(n, acc), rfl, ?_⟩
    dsimp only
    rw [if_neg (by simpa using hlen), hf]
    rfl

theorem QueryInv.recordVotes_returns {blkId : Nat} {votes : List Bool}
    (h : QueryInv own seen cast out (voted s blkId votes))
    (hl : LedgerInv cfg.ids s.toLedger)
    (hlen : ∀ n acc, s.votes blkId = some (n, acc) → acc.length = votes.length) :
    ∃ N, ∀ fuel, N ≤ fuel → ∃ s', Avalanche.recordVotes cfg fuel s blkId votes = .ok s' := by
  obtain ⟨N, hN⟩ := handleVotes_returns (s := voted s blkId votes) hl fun _ hq => h.counters hq
  have hentry : ((s.votes blkId).getD (0, List.replicate votes.length 0)).2.length =
      votes.length := by
    cases hv : s.votes blkId with
    | none => simp
    | some e => exact hlen e.1 e.2 hv
  refine ⟨N, fun fuel hfuel => ?_⟩
  unfold Avalanche.recordVotes
  split
  · exact ⟨s, rfl⟩
  · dsimp only
    rw [if_neg (by simpa using hentry)]
    split
    · exact hN fuel hfuel
    · exact ⟨_, rfl⟩

theorem RunQueries.newTail_returns {tr : List Call} (h : RunQueries cfg own tr s)
    (hl : LedgerInv cfg.ids s.toLedger) {src : NodeId} {tail : List Block}
    (hcall : Promised cfg own (.newTail src tail))
    (hen : Enabled cfg own (ownIds cfg tr) s (.newTail src tail)) :
    Returns cfg s (.newTail src tail) := by
  intro now
  match tail with
  | [] => exact ⟨0, fun _ _ => ⟨_, rfl⟩⟩
  | [blk] =>
    obtain ⟨hdepth, hsrc, hnew⟩ := hen
    obtain ⟨N, b, hb⟩ := newTxns_returns hl blk.txns
    obtain ⟨⟨ops, hops, -⟩, hvotes, hquery⟩ := newTxns_ops (hb N (Nat.le_refl N))
    have hcond : ¬ (blk.depth ≠ 0 ∨ src ≠ blk.proposer) := by simp [hdepth, hsrc]
    by_cases hself : blk.proposer = cfg.self
    · have hown := hcall hself
      have hfin : blk.id ∉ s.finishedQuery := fun hin => hnew hself (h.1.finished blk.id hin).1
      have hlen : ∀ m, own blk.id = some m → b.votes.length = m := by
        intro m hm
        rw [hown, Option.some.injEq] at hm
        rw [hvotes, hm]
      have hreg := ((h.1.ledger b.ledger).vote hfin hlen).register (hnew hself) (by simp [voted])
        (hquery ▸ hown) (now + cfg.voteTimeout)
      obtain ⟨N', hN'⟩ := QueryInv.recordVotes_returns
        (s := { s with
          toLedger := b.ledger
          queryPool := Function.update s.queryPool blk.id (some b.queryTxns)
          voteTimeQueue := s.voteTimeQueue.push blk.id (now + cfg.voteTimeout) })
        hreg (ledgerInv_ops hops hl) fun n acc hv => by
          rw [(h.1.entry blk.id n acc hv).2 _ hown, hvotes]
      refine ⟨max N N', fun fuel hfuel => ?_⟩
      obtain ⟨s', hs'⟩ := hN' fuel (by omega)
      refine ⟨(s', none), ?_⟩
      rw [newTail, if_neg hcond, hb fuel (by omega)]
      show (if blk.proposer = cfg.self then _ else _) = _
      rw [if_pos hself, hs']
      rfl
    · refine ⟨N, fun fuel hfuel =>
        ⟨({ s with toLedger := b.ledger }, some (blk.proposer, blk.id, b.votes)), ?_⟩⟩
      rw [newTail, if_neg hcond, hb fuel hfuel]
      show (if blk.proposer = cfg.self then _ else _) = _
      rw [if_neg hself]
  | _ :: _ :: _ => exact absurd hen id

theorem RunQueries.peerMsg_returns {tr : List Call} (h : RunQueries cfg own tr s)
    (hl : LedgerInv cfg.ids s.toLedger) {src : NodeId} {content : Option VoteMsg}
    (hcall : Promised cfg own (.peerMsg src content))
    (hen : Enabled cfg own (ownIds cfg tr) s (.peerMsg src content)) :
    Returns cfg s (.peerMsg src content) := by
  cases content with
  | none => exact ⟨0, fun _ _ => ⟨s, rfl⟩⟩
  | some msg =>
    by_cases hfin : msg.round ∈ s.finishedQuery
    · refine ⟨0, fun _ _ => ⟨s, ?_⟩⟩
      rw [handlePeerMsg, if_pos hfin]
    · have hlen : ∀ n acc, s.votes msg.round = some (n, acc) → acc.length = msg.votes.length := by
        intro n acc hv
        cases hown : own msg.round with
        | none => exact hen hown n acc hv
        | some m => rw [(h.1.entry msg.round n acc hv).2 m hown, hcall m hown]
      obtain ⟨N, hN⟩ := QueryInv.recordVotes_returns (h.1.vote hfin hcall) hl hlen
      refine ⟨N, fun fuel hfuel => ?_⟩
      rw [handlePeerMsg, if_neg hfin]
      split
      · exact hN fuel hfuel
      · exact ⟨s, rfl⟩

theorem RunQueries.timeout_returns {tr : List Call} (h : RunQueries cfg own tr s)
    (hl : LedgerInv cfg.ids s.toLedger) (hen : s.voteTimeQueue ≠ []) :
    Returns cfg s .timeout := by
  cases hq : s.voteTimeQueue with
  | nil => exact absurd hq hen
  | cons te rest =>
    obtain ⟨blkId, time⟩ := te
    obtain ⟨N, hN⟩ := handleVotes_returns (s := { s with voteTimeQueue := rest }) hl fun _ hq =>
      h.1.counters hq
    refine ⟨N, fun fuel hfuel => ?_⟩
    unfold handleTimeout
    rw [hq]
    dsimp only
    split
    · exact ⟨_, rfl⟩
    · exact hN fuel hfuel

/-- What waits to be committed is recorded. -/
theorem RunInv.commit_returns {tr : List Call} (h : RunInv cfg tr s) (hen : s.commitQueue ≠ []) :
    ∃ r, nextToCommit s = .ok r := by
  obtain ⟨popped, -, hqueue⟩ := h.emits
  unfold nextToCommit
  cases hq : s.commitQueue with
  | nil => exact absurd hq hen
  | cons e rest =>
    obtain ⟨blkId, hashes⟩ := e
    have hknown : ∀ x ∈ hashes, ∃ txn, s.txnPool x = some txn := by
      intro x hx
      have hin : x ∈ committedTxns s.txnPool s.history := by
        rw [← hqueue, hq]
        simp [hx]
      obtain ⟨-, txn, ht, -⟩ := mem_committedTxns.mp hin
      exact ⟨txn, ht⟩
    obtain ⟨txns, htxns⟩ := exists_mapM hknown
    dsimp only
    rw [htxns]
    exact ⟨_, rfl⟩

end

/-- **Every own query is decided once.** In every run in which the own blocks
have different ids and every vote for an own block has the block's length:
pending, finished and unseen queries are apart; a pending query has votes and
exactly one timer; exactly the finished queries have gone into the commit queue,
each once, and the pacemaker has got as many messages; a block that `new_tail`
has seen is finished once `k` votes are in; and no call that is made next
panics. -/
theorem query_decided_once (cfg : Config C) (own : Nat → Option Nat) {tr : List Call}
    {s : Decision C} (h : (stage cfg).Run (fun _ call => Promised cfg own call) tr s)
    (hids : (ownIds cfg tr).Nodup) :
    (∀ id, s.queryPool id ≠ none → id ∈ ownIds cfg tr ∧ id ∉ s.finishedQuery) ∧
    (∀ id ∈ s.finishedQuery, id ∈ ownIds cfg tr) ∧
    (∀ id, s.queryPool id ≠ none →
      s.votes id ≠ none ∧ (s.voteTimeQueue.map Prod.fst).count id = 1) ∧
    (outIds tr ++ s.commitQueue.map Prod.fst).Nodup ∧
    (∀ id, id ∈ outIds tr ++ s.commitQueue.map Prod.fst ↔ id ∈ s.finishedQuery) ∧
    s.pmakerFeedback = s.finishedQuery.card ∧
    (∀ id ∈ ownIds cfg tr, cfg.k ≤ votesFor cfg tr id → id ∈ s.finishedQuery) ∧
    (∀ call, Promised cfg own call → Enabled cfg own (ownIds cfg tr) s call →
      Returns cfg s call) := by
  have hrun := runInv_run (h.mono fun _ _ _ _ => trivial)
  have hl : LedgerInv cfg.ids s.toLedger := hrun.hist.run.inv
  have hq := runQueries_run h hids
  obtain ⟨hinv, hquorum⟩ := hq
  have hpend : ∀ id, s.queryPool id ≠ none →
      (id ∈ ownIds cfg tr ∧ id ∉ s.finishedQuery) ∧ s.votes id ≠ none := by
    intro id hid
    obtain ⟨txns, htxns⟩ := Option.ne_none_iff_exists'.mp hid
    obtain ⟨h1, h2, -, h4⟩ := hinv.pending id txns htxns
    exact ⟨⟨h1, h2⟩, h4⟩
  refine ⟨fun id hid => (hpend id hid).1, fun id hid => (hinv.finished id hid).1, ?_, hinv.queued,
    hinv.committed, hinv.feedback, ?_, ?_⟩
  · intro id hid
    exact ⟨(hpend id hid).2, List.count_eq_one_of_mem hinv.timers ((hinv.timed id).mpr hid)⟩
  · intro id hid hk
    rcases hinv.handled id hid with hfin | hpool
    · exact hfin
    · -- a pending query has fewer than `k` votes
      obtain ⟨⟨n, acc⟩, hv⟩ := Option.ne_none_iff_exists'.mp (hpend id hpool).2
      have hlt := hquorum id n acc hpool hv
      rw [(hinv.entry id n acc hv).1] at hlt
      omega
  · intro call hcall hen
    cases call with
    | newTail src tail => exact RunQueries.newTail_returns ⟨hinv, hquorum⟩ hl hcall hen
    | peerMsg src content => exact RunQueries.peerMsg_returns ⟨hinv, hquorum⟩ hl hcall hen
    | timeout => exact RunQueries.timeout_returns ⟨hinv, hquorum⟩ hl hen
    | commit blkId txns => exact hrun.commit_returns hen

/-- An early vote, the own block, and a vote that comes too late. -/
theorem query_decided_once_demo :
    ∃ s, (stage (demo avalancheRule 10 10)).Run
        (fun _ call => Promised (demo avalancheRule 10 10) (fun _ => some 1) call)
        [demoVote 2, demoBlock 2 [demoSend 1], demoVote 2] s ∧
      2 ∈ s.finishedQuery ∧ s.pmakerFeedback = s.finishedQuery.card := by
  have hcheck : returns (runCalls (demo avalancheRule 10 10) 20
      [demoVote 2, demoBlock 2 [demoSend 1], demoVote 2]) (fun _ => true) = true := by
    decide +kernel
  obtain ⟨s, hs, -⟩ := returns_iff.mp hcheck
  have hrun : (stage (demo avalancheRule 10 10)).Run
      (fun _ call => Promised (demo avalancheRule 10 10) (fun _ => some 1) call)
      [demoVote 2, demoBlock 2 [demoSend 1], demoVote 2] s := by
    refine (run_of_runCalls hs).mono fun s call hcall _ => ?_
    simp only [List.mem_cons, List.not_mem_nil, or_false] at hcall
    rcases hcall with rfl | rfl | rfl
    · exact fun n hn => Option.some.inj hn
    · exact fun _ => rfl
    · exact fun n hn => Option.some.inj hn
  obtain ⟨-, -, -, -, -, hfeed, hk, -⟩ := query_decided_once _ _ hrun (by decide)
  exact ⟨s, hrun, hk 2 (by decide) (by decide), hfeed⟩

end Copycat.Avalanche
