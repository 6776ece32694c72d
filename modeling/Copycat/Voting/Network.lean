import Copycat.Voting.Queries

/-!
# Nobody votes twice

The nodes of `Copycat.Voting.Replica` with the messages between them, in any order. A
message that arrives is what its name says (`run_genuine`): a query is an own block of its
sender, a request goes to the proposer, a vote is what the sender has voted on a block of
that query. Since a node takes up each query once, it votes once, and `voters_nodup`
follows by counting: no node is counted twice for a query, which `record_votes` does not
look at.
-/

namespace Copycat.Voting

open Copycat.Lib
open Copycat.Lib.Messaging (Did Net acts acts_snoc mem_acts mem_acts_mono run_node sent)
open Avalanche (Call answers voters)
open Thread (mem_ownBlocks)

variable {C : Type} {c : Cluster C} {tr : List (Did NodeId Act Packet)}
  {s : Net NodeId (Replica C) Packet}
  {G : Net NodeId (Replica C) Packet → Did NodeId Act Packet → Prop}

/-! ## What is sent -/

/-- What a message says is so. -/
def Genuine (c : Cluster C) (tr : List (Did NodeId Act Packet)) : Packet → Prop
  | .newBlock src dest blk => blk.proposer = src ∧
      (blk.depth = 0 → .propose blk ∈ events (acts src tr) ∧ dest ∈ c.neighbors src)
  | .blockReq _ dest req => dest = req.proposer
  | .consensusMsg src dest msg => src ≠ dest ∧ ∃ blk : Avalanche.Block,
      .decide (.newTail dest [blk]) msg.votes ∈ acts src tr ∧ blk.proposer = dest ∧
      blk.id = msg.round

theorem Genuine.mono {p : Packet} (h : Genuine c tr p) (d : Did NodeId Act Packet) :
    Genuine c (tr ++ [d]) p := by
  cases p with
  | newBlock src dest blk =>
    refine ⟨h.1, fun hdepth => ?_⟩
    obtain ⟨hblk, hdest⟩ := h.2 hdepth
    exact ⟨mem_events.mpr (mem_acts_mono (mem_events.mp hblk) d), hdest⟩
  | blockReq => exact h
  | consensusMsg src dest msg =>
    obtain ⟨hne, blk, hmem, hblk⟩ := h
    exact ⟨hne, blk, mem_acts_mono hmem d, hblk⟩

/-- In the pipes, the blocks from the node itself are its own ones. -/
theorem newBlock_own {n : NodeId} {as : List Act} {r : Replica C} {G : Replica C → Act → Prop}
    (h : ((voting c).node n).Run G as r) {tail : List Avalanche.Block}
    (hmem : (n, tail) ∈ r.newBlock) : ∃ blk, tail = [blk] ∧ .propose blk ∈ events as := by
  obtain ⟨e, he, hnew⟩ := List.mem_flatMap.mp
    ((run_pipes h).subset (List.mem_append_right _ hmem))
  cases e with
  | propose blk =>
    obtain ⟨-, rfl⟩ := Prod.mk.inj (List.mem_singleton.mp hnew)
    exact ⟨blk, rfl, he⟩
  | validate src blk newTail =>
    have hsrc : src = n := by
      have hnew : (n, tail) ∈ if newTail.isEmpty then [] else [(src, newTail)] := hnew
      split at hnew
      · exact absurd hnew List.not_mem_nil
      · exact (Prod.mk.inj (List.mem_singleton.mp hnew)).1.symm
    have hseen := Thread.run_seenInv (Thread.counts_validated _ _) (run_blocks h)
    exact absurd hsrc (hseen.validated src blk newTail he).1
  | _ => exact absurd hnew List.not_mem_nil

/-- **Every message is genuine.** -/
theorem run_genuine (h : (voting c).net.Run G tr s) : ∀ p ∈ sent tr, Genuine c tr p := by
  induction h with
  | nil => exact fun p hp => absurd hp (Multiset.notMem_zero p)
  | @snoc tr s s' d hrun hg hstep ih =>
    intro p hp
    rw [Messaging.sent_snoc] at hp
    rcases Multiset.mem_add.mp hp with hp | hp
    · exact (ih p hp).mono d
    have hafter := hrun.snoc hg hstep
    cases hstep with
    | @turn n a out rest r' hflight hturn =>
      have hnode := run_node hrun n
      have hnode' := run_node hafter n
      cases hturn with
      | @blocks e t _ =>
        unfold requests at hp
        split at hp
        · split at hp
          · obtain ⟨req, -, rfl⟩ := List.mem_map.mp (Multiset.mem_coe.mp hp)
            rfl
          · exact absurd hp (Multiset.notMem_zero p)
        · exact absurd hp (Multiset.notMem_zero p)
      | answer src req =>
        rw [Multiset.mem_singleton.mp hp]
        -- the request has come to the proposer
        have hreq : Packet.blockReq src n req ∈ sent tr := by
          rw [← Messaging.run_flight hrun, hflight]
          simp [voting, takes]
        exact ⟨(ih _ hreq).symm, fun hdepth => absurd hdepth (Nat.succ_ne_zero _)⟩
      | @disseminate src tail rest dests hpipe hsampled =>
        unfold multicast at hp
        split at hp
        · rename_i blk hlast
          obtain ⟨m, hm, rfl⟩ := Multiset.mem_map.mp hp
          unfold Sampled at hsampled
          split at hsampled
          · rename_i hsrc
            subst hsrc
            obtain ⟨blk', rfl, hown⟩ := newBlock_own hnode (hpipe ▸ List.mem_cons_self ..)
            obtain rfl : blk' = blk := by simpa using hlast
            refine ⟨(own_made hnode (mem_ownBlocks.mpr hown)).1, fun _ => ⟨?_, hsampled.1 hm⟩⟩
            exact mem_events.mpr (mem_acts_mono (mem_events.mp hown) _)
          · rw [hsampled] at hm
            exact absurd hm (Finset.notMem_empty m)
        · exact absurd hp (Multiset.notMem_zero p)
      | @newTail fuel now src tail rest votes d reply hpipe hown hs =>
        obtain ⟨-, -, rfl⟩ | ⟨blk, b, rfl, -, rfl, hb, hself⟩ := Avalanche.newTail_cases hs
        · exact absurd hp (Multiset.notMem_zero p)
        rcases hself with ⟨-, -, rfl⟩ | ⟨hself, -, rfl⟩
        · exact absurd hp (Multiset.notMem_zero p)
        obtain ⟨fuel', b', hb', rfl⟩ := hown _ blk rfl
        obtain rfl := Avalanche.newTxns_unique hb hb'
        rw [Multiset.mem_singleton.mp hp]
        rw [c.self_config n] at hself
        refine ⟨Ne.symm hself, blk, ?_, rfl, rfl⟩
        rw [acts_snoc, if_pos rfl]
        simp
      | peerMsg => exact absurd hp (Multiset.notMem_zero p)
      | inner => exact absurd hp (Multiset.notMem_zero p)

/-- The blocks that arrive are those of their senders. -/
theorem run_ownSent (h : (voting c).net.Run G tr s) (n : NodeId) : OwnSent (acts n tr) := by
  intro src blk hmem
  have hsent := Messaging.mem_sent_of_take h (mem_events.mp hmem)
    (p := .newBlock src n blk) (Multiset.mem_singleton_self _)
  exact (run_genuine h _ hsent).1

/-! ## Counting votes -/

/-- A block of this query is taken up. -/
def isQuery (proposer blkId : Nat) : Act → Bool
  | .decide (.newTail _ [blk]) _ => blk.proposer = proposer ∧ blk.id = blkId
  | _ => false

/-- The message is a vote of `voter` in this query. -/
def VoteOf (voter proposer blkId : Nat) : Packet → Prop
  | .consensusMsg src dest msg => src = voter ∧ dest = proposer ∧ msg.round = blkId
  | _ => False

instance (voter proposer blkId : Nat) : DecidablePred (VoteOf voter proposer blkId) := fun p =>
  match p with
  | .consensusMsg .. => inferInstanceAs (Decidable (_ ∧ _ ∧ _))
  | .newBlock .. => inferInstanceAs (Decidable False)
  | .blockReq .. => inferInstanceAs (Decidable False)

theorem countP_isQuery_le (proposer blkId : Nat) (as : List Act) :
    as.countP (isQuery proposer blkId) ≤ (answers proposer blkId (queries as)).length := by
  induction as with
  | nil => exact Nat.le_refl 0
  | cons a as ih =>
    have hsplit : answers proposer blkId (queries (a :: as)) =
        answers proposer blkId (queries [a]) ++ answers proposer blkId (queries as) := by
      unfold queries tails answers
      rw [← List.filter_append, ← List.flatMap_append, ← List.filterMap_append]
      rfl
    have hone : (if isQuery proposer blkId a then 1 else 0) ≤
        (answers proposer blkId (queries [a])).length := by
      unfold isQuery
      split
      · rename_i src blk votes
        split
        · rename_i hq
          have hq : [blk].filter (fun b => decide (b.proposer = proposer ∧ b.id = blkId)) = [blk] :=
            List.filter_cons_of_pos hq
          exact (congrArg List.length hq).ge
        · exact Nat.zero_le _
      · exact Nat.zero_le _
    rw [List.countP_cons, hsplit, List.length_append]
    omega

/-- One vote is sent for a query of a peer that is taken up. -/
theorem turn_votes {n : NodeId} {r r' : Replica C} {a : Act} {out : Multiset Packet}
    (h : Turn c n r a out r') (voter proposer blkId : Nat) :
    out.countP (VoteOf voter proposer blkId) ≤
      if n = voter ∧ voter ≠ proposer ∧ isQuery proposer blkId a = true then 1 else 0 := by
  have hnone : (∀ p ∈ out, ¬ VoteOf voter proposer blkId p) →
      out.countP (VoteOf voter proposer blkId) ≤
        if n = voter ∧ voter ≠ proposer ∧ isQuery proposer blkId a = true then 1 else 0 := by
    intro hall
    rw [Multiset.countP_eq_zero.mpr hall]
    exact Nat.zero_le _
  cases h with
  | @blocks e t _ =>
    refine hnone fun p hp => ?_
    unfold requests at hp
    split at hp
    · split at hp
      · obtain ⟨req, -, rfl⟩ := List.mem_map.mp (Multiset.mem_coe.mp hp)
        exact not_false
      · exact absurd hp (Multiset.notMem_zero p)
    · exact absurd hp (Multiset.notMem_zero p)
  | answer => exact hnone fun p hp => by rw [Multiset.mem_singleton.mp hp]; exact not_false
  | @disseminate src tail rest dests _ _ =>
    refine hnone fun p hp => ?_
    unfold multicast at hp
    split at hp
    · obtain ⟨m, -, rfl⟩ := Multiset.mem_map.mp hp
      exact not_false
    · exact absurd hp (Multiset.notMem_zero p)
  | @newTail fuel now src tail rest votes d reply hpipe hown hs =>
    obtain ⟨-, -, rfl⟩ | ⟨blk, b, rfl, -, -, -, hself⟩ := Avalanche.newTail_cases hs
    · exact hnone fun p hp => absurd hp (Multiset.notMem_zero p)
    rcases hself with ⟨-, -, rfl⟩ | ⟨hself, -, rfl⟩
    · exact hnone fun p hp => absurd hp (Multiset.notMem_zero p)
    rw [c.self_config n] at hself
    by_cases hvote : n = voter ∧ blk.proposer = proposer ∧ blk.id = blkId
    · obtain ⟨rfl, rfl, rfl⟩ := hvote
      rw [if_pos ⟨rfl, Ne.symm hself, decide_eq_true ⟨rfl, rfl⟩⟩]
      exact Multiset.countP_le_card _ _
    · exact hnone fun p hp => by rw [Multiset.mem_singleton.mp hp]; exact hvote
  | peerMsg => exact hnone fun p hp => absurd hp (Multiset.notMem_zero p)
  | inner => exact hnone fun p hp => absurd hp (Multiset.notMem_zero p)

/-- So many votes are sent as queries are taken up, and none to the node itself. -/
theorem sent_votes (h : (voting c).net.Run G tr s) (voter proposer blkId : Nat) :
    (sent tr).countP (VoteOf voter proposer blkId) ≤
      if voter ≠ proposer then (acts voter tr).countP (isQuery proposer blkId) else 0 := by
  refine h.invariant_trace (fun tr _ => (sent tr).countP (VoteOf voter proposer blkId) ≤
    if voter ≠ proposer then (acts voter tr).countP (isQuery proposer blkId) else 0) ?_ ?_
  · exact Nat.zero_le _
  intro tr s d s' ih _ hstep
  cases hstep with
  | @turn n a out rest r' _ hturn =>
    have hout := turn_votes hturn voter proposer blkId
    rw [Messaging.sent_snoc, Multiset.countP_add, acts_snoc, List.countP_append]
    show _ + out.countP _ ≤ _
    by_cases hne : voter ≠ proposer
    · rw [if_pos hne] at ih ⊢
      by_cases hn : n = voter
      · have hout : out.countP (VoteOf voter proposer blkId) ≤
            if isQuery proposer blkId a = true then 1 else 0 := by
          simpa only [hn, hne, ne_eq, not_false_eq_true, true_and] using hout
        rw [if_pos hn, List.countP_singleton]
        show _ ≤ _ + if isQuery proposer blkId a = true then 1 else 0
        omega
      · rw [if_neg hn, List.countP_nil]
        rw [if_neg fun hc => hn hc.1] at hout
        omega
    · rw [if_neg hne] at ih ⊢
      rw [if_neg fun hc => hne hc.2.1] at hout
      omega

theorem calls_append (as as' : List Act) : calls (as ++ as') = calls as ++ calls as' :=
  List.filterMap_append

/-- Who is counted for one action: the node itself, or the sender of a message. -/
theorem act_voters (c : Cluster C) (voter proposer blkId : Nat) (a : Act) :
    (voters (c.config proposer) (calls [a]) blkId).count voter ≤
      (if voter = proposer then [a].countP (isQuery proposer blkId) else 0) +
        (takes proposer a).countP (VoteOf voter proposer blkId) := by
  match a with
  | .decide (.newTail src [blk]) votes =>
    show ([Call.newTail src [blk]].filterMap (Call.voter (c.config proposer) blkId)).count voter ≤ _
    by_cases hq : blk.proposer = proposer ∧ blk.id = blkId
    · rw [List.filterMap_cons_some (b := proposer)
        (by rw [Call.voter, c.self_config proposer, if_pos hq])]
      rw [List.filterMap_nil, List.count_singleton, List.countP_singleton]
      by_cases hv : voter = proposer
      · simp [hv, isQuery, hq]
      · simp [Ne.symm hv]
    · rw [List.filterMap_cons_none (by rw [Call.voter, c.self_config proposer, if_neg hq])]
      exact Nat.zero_le _
  | .decide (.newTail src []) votes => exact Nat.zero_le _
  | .decide (.newTail src (_ :: _ :: _)) votes => exact Nat.zero_le _
  | .decide (.peerMsg src (some msg)) votes =>
    show ([Call.peerMsg src (some msg)].filterMap
      (Call.voter (c.config proposer) blkId)).count voter ≤ _
    by_cases hv : (c.config proposer).verify src (msg.round, msg.votes) msg.signature = true ∧
        msg.round = blkId
    · rw [List.filterMap_cons_some (b := src) (by rw [Call.voter, if_pos hv]), List.filterMap_nil,
        List.count_singleton]
      by_cases hsrc : src = voter
      · have htake : (takes proposer (.decide (.peerMsg src (some msg)) votes)).countP
            (VoteOf voter proposer blkId) = 1 := by
          show Multiset.countP _ {Packet.consensusMsg src proposer msg} = 1
          rw [← Multiset.cons_zero, Multiset.countP_cons_of_pos _ ⟨hsrc, rfl, hv.2⟩]
          rfl
        rw [htake]
        split
        · omega
        · omega
      · simp [hsrc]
    · rw [List.filterMap_cons_none (by rw [Call.voter, if_neg hv])]
      exact Nat.zero_le _
  | .decide (.peerMsg src none) votes => exact Nat.zero_le _
  | .decide .timeout votes => exact Nat.zero_le _
  | .decide (.commit ..) votes => exact Nat.zero_le _
  | .blocks e => exact Nat.zero_le _
  | .answer src req => exact Nat.zero_le _
  | .disseminate dests => exact Nat.zero_le _

/-- Who is counted at all. -/
theorem count_voters (c : Cluster C) (voter proposer blkId : Nat)
    (tr : List (Did NodeId Act Packet)) :
    (voters (c.config proposer) (calls (acts proposer tr)) blkId).count voter ≤
      (if voter = proposer then (acts proposer tr).countP (isQuery proposer blkId) else 0) +
        ((voting c).taken tr).countP (VoteOf voter proposer blkId) := by
  induction tr using List.reverseRecOn with
  | nil => exact Nat.zero_le _
  | append_singleton tr d ih =>
    rw [acts_snoc, Messaging.taken_snoc, Multiset.countP_add]
    by_cases hd : d.node = proposer
    · have hone := act_voters c voter proposer blkId d.act
      have htakes : (voting c).takes d.node d.act = takes proposer d.act := by rw [hd]; rfl
      rw [if_pos hd, calls_append, List.countP_append, htakes]
      unfold voters at ih hone ⊢
      rw [List.filterMap_append, List.count_append]
      by_cases hv : voter = proposer
      · rw [if_pos hv] at ih hone ⊢
        omega
      · rw [if_neg hv] at ih hone ⊢
        omega
    · rw [if_neg hd, List.append_nil]
      omega

/-- **Nobody votes twice.** In every run, the votes that a node has counted for a query
are of different nodes. -/
theorem voters_nodup (h : (voting c).net.Run G tr s) (proposer blkId : Nat) :
    (voters (c.config proposer) (calls (acts proposer tr)) blkId).Nodup := by
  refine List.nodup_iff_count_le_one.mpr fun voter => ?_
  have hcount := count_voters c voter proposer blkId tr
  have htaken := Messaging.countP_taken_le h (VoteOf voter proposer blkId)
  have hsent := sent_votes h voter proposer blkId
  have honce : (acts voter tr).countP (isQuery proposer blkId) ≤ 1 :=
    (countP_isQuery_le proposer blkId _).trans
      (queries_once (run_node h voter) (run_ownSent h voter) proposer blkId)
  by_cases hv : voter = proposer
  · subst hv
    rw [if_pos rfl] at hcount
    rw [if_neg (fun hne => hne rfl)] at hsent
    omega
  · rw [if_neg hv] at hcount
    rw [if_pos hv] at hsent
    omega

end Copycat.Voting
