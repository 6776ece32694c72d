import Copycat.Avalanche.Ballots

/-!
# What a decided slot was decided by

`polls` keeps the votes of every round beside the stage. In every run, a slot that was
decided belongs to an own block that came in, with the transaction at its position, and
was decided with as many votes as ballots of its round say yes there (`PollsInv`). The
ballots of a round do not change once it is finished, and there are no more of them than
voters.
-/

namespace Copycat.Avalanche

open Copycat.Lib

variable {C : Type} {cfg : Config C}

/-! ## The slots of a block -/

/-- What `query_pool` holds for a transaction. -/
def slotTxn (ids : TxnIds) : AvalancheTxn → Option Hash
  | .placeHolder => none
  | txn => some (ids.txnId txn)

theorem newTxn_slot {fuel : Nat} {b b' : Batch C} {txn : AvalancheTxn}
    (h : newTxn cfg fuel b txn = .ok b') :
    b'.queryTxns = b.queryTxns ++ [slotTxn cfg.ids txn] ∧
      ∃ vote, b'.votes = b.votes ++ [vote] ∧ (txn = .placeHolder → vote = false) := by
  unfold newTxn at h
  cases txn with
  | grant =>
    rw [← Except.ok.inj h]
    exact ⟨rfl, true, rfl, fun h => absurd h (by simp)⟩
  | placeHolder =>
    rw [← Except.ok.inj h]
    exact ⟨rfl, false, rfl, fun _ => rfl⟩
  | send =>
    obtain ⟨⟨l, vote⟩, -, h⟩ := bind_eq_ok.mp h
    rw [← Except.ok.inj h]
    exact ⟨rfl, vote, rfl, fun h => absurd h (by simp)⟩
  | noop =>
    obtain ⟨⟨l, vote⟩, -, h⟩ := bind_eq_ok.mp h
    rw [← Except.ok.inj h]
    exact ⟨rfl, vote, rfl, fun h => absurd h (by simp)⟩

/-- The slots are the transactions of the block, and no placeholder gets a yes. -/
theorem newTxns_slots {fuel : Nat} {l : Ledger C} {txns : List AvalancheTxn} {b : Batch C}
    (h : txns.foldlM (newTxn cfg fuel) ⟨l, [], []⟩ = .ok b) :
    b.queryTxns = txns.map (slotTxn cfg.ids) ∧ b.votes.length = txns.length ∧
      ∀ i : Nat, b.votes[i]? = some true → ∃ t, txns[i]? = some t ∧ t ≠ .placeHolder := by
  refine foldlM_prefix (fun done (b : Batch C) => b.queryTxns = done.map (slotTxn cfg.ids) ∧
    b.votes.length = done.length ∧
    ∀ i : Nat, b.votes[i]? = some true → ∃ t, done[i]? = some t ∧ t ≠ .placeHolder) ?_
    ⟨rfl, rfl, fun i hi => absurd hi (by simp)⟩ h
  intro done b txn b' hb hstep
  obtain ⟨hquery, hlen, hyes⟩ := hb
  obtain ⟨hquery', vote, hvotes, hph⟩ := newTxn_slot hstep
  refine ⟨by rw [hquery', hquery, List.map_append]; rfl, by simp [hvotes, hlen], fun i hi => ?_⟩
  rw [hvotes, List.getElem?_append, hlen] at hi
  rw [List.getElem?_append]
  split at hi
  · rename_i hlt
    rw [if_pos hlt]
    exact hyes i hi
  · rename_i hlt
    rw [if_neg hlt]
    obtain ⟨hzero, rfl⟩ : i - done.length = 0 ∧ vote = true := by
      simpa [List.getElem?_singleton] using hi
    rw [hzero]
    exact ⟨txn, rfl, fun he => absurd (hph he) (by simp)⟩

/-- The slots that deciding a query takes up. -/
theorem handleSlots_asks {fuel blkId : Nat} {l l' : Ledger C} {c : List Hash}
    {slots : List (Option Hash × Nat)}
    (h : slots.zipIdx.foldlM (handleSlot cfg fuel blkId) (l, []) = .ok (l', c)) :
    ∃ ops, Ops cfg l ops l' ∧ ∀ slot root votes, Op.ask slot root votes ∈ ops →
      slot.1 = blkId ∧ slots[slot.2]? = some (some root, votes) := by
  refine foldlM_split (fun _ (acc : Ledger C × List Hash) => ∃ ops, Ops cfg l ops acc.1 ∧
    ∀ slot root votes, Op.ask slot root votes ∈ ops →
      slot.1 = blkId ∧ slots[slot.2]? = some (some root, votes)) ?_
    ⟨[], .nil, fun _ _ _ hmem => absurd hmem List.not_mem_nil⟩ h
  intro done x rest acc acc' hsplit hacc hstep
  obtain ⟨⟨q, votes⟩, i⟩ := x
  obtain ⟨ops, hops, hasks⟩ := hacc
  have hget : slots[i]? = some (q, votes) := by
    have hmem : ((q, votes), i) ∈ slots.zipIdx := hsplit ▸ List.mem_append_right _ (by simp)
    exact List.mem_zipIdx_iff_getElem?.mp hmem
  unfold handleSlot at hstep
  cases q with
  | none =>
    rw [← Except.ok.inj hstep]
    exact ⟨ops, hops, hasks⟩
  | some root =>
    obtain ⟨⟨l₂, c₂⟩, hd, hstep⟩ := bind_eq_ok.mp hstep
    rw [← Except.ok.inj hstep]
    obtain ⟨ops', hd⟩ := decideSlot_spec hd
    refine ⟨ops ++ .ask (blkId, i) root votes :: ops', hops.append hd.path, ?_⟩
    intro slot root' votes' hmem
    rcases List.mem_append.mp hmem with hmem | hmem
    · exact hasks slot root' votes' hmem
    rcases List.mem_cons.mp hmem with he | hmem
    · obtain ⟨rfl, rfl, rfl⟩ := Op.ask.inj he
      exact ⟨rfl, hget⟩
    · -- a decided slot takes up no other
      rcases hd.only _ hmem with ⟨x, b, he, -⟩ | ⟨x, he⟩ | ⟨x, he, -⟩
      · exact absurd he (by simp)
      · exact absurd he (by simp)
      · exact absurd he (by simp)

/-! ## The ballots of a slot -/

/-- `qs` are the slots of an own block that has come in. -/
def Queried (cfg : Config C) (tr : List Call) (id : Nat) (qs : List (Option Hash)) : Prop :=
  ∃ src blk, .newTail src [blk] ∈ tr ∧ blk.proposer = cfg.self ∧ blk.id = id ∧
    qs = blk.txns.map (slotTxn cfg.ids)

theorem Queried.mono {tr : List Call} {id : Nat} {qs : List (Option Hash)}
    (h : Queried cfg tr id qs) (call : Call) : Queried cfg (tr ++ [call]) id qs := by
  obtain ⟨src, blk, hmem, hblk⟩ := h
  exact ⟨src, blk, List.mem_append_left _ hmem, hblk⟩

/-- What the ballots say of the stage. -/
structure PollsInv (cfg : Config C) (tr : List Call) (s : Decision C) (ballots : Ballots) :
    Prop where
  counts : ∀ id ∉ s.finishedQuery, Counts (s.votes id) (ballots id)
  queries : ∀ id qs, s.queryPool id = some qs → Queried cfg tr id qs
  asks : ∀ slot root votes, Op.ask slot root votes ∈ s.history → slot.1 ∈ s.finishedQuery ∧
    votes = (yesVotes (ballots slot.1) slot.2).length ∧
    ∃ qs, Queried cfg tr slot.1 qs ∧ qs[slot.2]? = some (some root)

variable {tr : List Call} {s s' : Decision C} {ballots : Ballots}

theorem PollsInv.trace (h : PollsInv cfg tr s ballots) (call : Call) :
    PollsInv cfg (tr ++ [call]) s ballots where
  counts := h.counts
  queries id qs hqs := (h.queries id qs hqs).mono call
  asks slot root votes hask := by
    obtain ⟨hfin, hvotes, qs, hqs, hroot⟩ := h.asks slot root votes hask
    exact ⟨hfin, hvotes, qs, hqs.mono call, hroot⟩

/-- A query is decided. -/
theorem PollsInv.handleVotes (h : PollsInv cfg tr s ballots) {fuel id : Nat}
    (hid : id ∉ s.finishedQuery) (hv : Avalanche.handleVotes cfg fuel s id = .ok s') :
    PollsInv cfg tr s' ballots := by
  rcases handleVotes_cases hv with ⟨-, rfl⟩ | ⟨txns, n, acc, l, c, hquery, hvotes, -, hf, rfl⟩
  · exact h
  obtain ⟨ops, hops, hasks⟩ := handleSlots_asks hf
  have hcounts := h.counts id hid
  rw [hvotes] at hcounts
  refine ⟨fun id' hid' => ?_, fun id' qs hqs => ?_, fun slot root votes hask => ?_⟩
  · have hid' : id' ∉ insert id s.finishedQuery := hid'
    rw [Finset.mem_insert, not_or] at hid'
    have hsame : (finish s id l c).votes id' = s.votes id' := Function.update_of_ne hid'.1 ..
    rw [hsame]
    exact h.counts id' hid'.2
  · have hqs : Function.update s.queryPool id none id' = some qs := hqs
    by_cases he : id' = id
    · rw [he, Function.update_self] at hqs
      exact absurd hqs (by simp)
    · rw [Function.update_of_ne he] at hqs
      exact h.queries id' qs hqs
  · have hask : Op.ask slot root votes ∈ l.history := hask
    rw [history_ops hops] at hask
    rcases List.mem_append.mp hask with hold | hnew
    · obtain ⟨hfin, hrest⟩ := h.asks slot root votes hold
      exact ⟨Finset.mem_insert_of_mem hfin, hrest⟩
    · obtain ⟨hslot, hget⟩ := hasks slot root votes hnew
      obtain ⟨hroot, hacc⟩ := List.getElem?_zip_eq_some.mp hget
      rw [hslot]
      exact ⟨Finset.mem_insert_self .., hcounts.2 _ _ hacc, txns, h.queries id txns hquery, hroot⟩

/-- A vote is counted, and may decide its query. -/
theorem PollsInv.recordVotes (h : PollsInv cfg tr s ballots) {fuel id : Nat} {votes : List Bool}
    (hid : id ∉ s.finishedQuery) (voter : NodeId)
    (hr : Avalanche.recordVotes cfg fuel s id votes = .ok s') :
    PollsInv cfg tr s' (addBallot ballots (some (id, voter, votes))) := by
  have hvoted : PollsInv cfg tr (voted s id votes)
      (addBallot ballots (some (id, voter, votes))) := by
    refine ⟨fun id' hid' => ?_, h.queries, fun slot root n hask => ?_⟩
    · show Counts (Function.update s.votes id _ id') (Function.update ballots id _ id')
      by_cases he : id' = id
      · rw [he, Function.update_self, Function.update_self]
        exact (h.counts id hid).vote voter votes
      · rw [Function.update_of_ne he, Function.update_of_ne he]
        exact h.counts id' hid'
    · obtain ⟨hfin, hn, hqs⟩ := h.asks slot root n hask
      have hne : slot.1 ≠ id := fun he => hid (he ▸ hfin)
      refine ⟨hfin, ?_, hqs⟩
      show n = (yesVotes (Function.update ballots id _ slot.1) slot.2).length
      rw [Function.update_of_ne hne]
      exact hn
  rcases recordVotes_cases hr with ⟨hin, -⟩ | ⟨-, -, ⟨-, rfl⟩ | ⟨-, hv⟩⟩
  · exact absurd hin hid
  · exact hvoted
  · exact hvoted.handleVotes hid hv

/-- A block comes in: nothing is decided yet. -/
theorem PollsInv.quiet (h : PollsInv cfg tr s ballots) {l : Ledger C} {ops : List Op}
    (hops : Ops cfg s.toLedger ops l) (hquiet : QuietOps ops) :
    PollsInv cfg tr { s with toLedger := l } ballots where
  counts := h.counts
  queries := h.queries
  asks slot root votes hask := by
    have hask : Op.ask slot root votes ∈ l.history := hask
    rw [history_ops hops] at hask
    rcases List.mem_append.mp hask with hold | hnew
    · exact h.asks slot root votes hold
    · rcases hquiet _ hnew with ⟨x, he⟩ | ⟨x, he⟩
      · exact absurd he (by simp)
      · exact absurd he (by simp)

theorem pollsInv_step {call : Call} {ownVotes : List Bool} (h : PollsInv cfg tr s ballots)
    (hs : Step cfg s call s') (hown : OwnVotes cfg s call ownVotes) :
    PollsInv cfg (tr ++ [call]) s' (addBallot ballots (castBallot cfg s ownVotes call)) := by
  cases hs with
  | @newTail _ fuel now src tail reply hs =>
    obtain ⟨rfl, rfl, -⟩ | ⟨blk, b, rfl, -, -, hb, hs⟩ := newTail_cases hs
    · exact h.trace _
    obtain ⟨fuel', b', hb', rfl⟩ := hown src blk rfl
    obtain rfl := newTxns_unique hb hb'
    obtain ⟨⟨ops, hops, hquiet⟩, -⟩ := newTxns_ops hb
    have hbase := (h.quiet hops hquiet).trace (.newTail src [blk])
    rw [castBallot]
    obtain ⟨hself, hr, -⟩ | ⟨hself, rfl, -⟩ := hs
    · have hopened : PollsInv cfg (tr ++ [.newTail src [blk]]) (opened cfg now s blk b)
          ballots := by
        refine ⟨hbase.counts, fun id qs hqs => ?_, hbase.asks⟩
        have hqs : Function.update s.queryPool blk.id (some b.queryTxns) id = some qs := hqs
        by_cases he : id = blk.id
        · rw [he, Function.update_self] at hqs
          refine ⟨src, blk, by simp, hself, he.symm, ?_⟩
          rw [← Option.some.inj hqs]
          exact (newTxns_slots hb).1
        · rw [Function.update_of_ne he] at hqs
          exact hbase.queries id qs hqs
      by_cases hfin : blk.id ∈ s.finishedQuery
      · rw [if_neg (fun hc => hc.2 hfin)]
        rcases recordVotes_cases hr with ⟨-, rfl⟩ | ⟨hnot, -⟩
        · exact hopened
        · exact absurd hfin hnot
      · rw [if_pos ⟨hself, hfin⟩]
        exact hopened.recordVotes hfin _ hr
    · rw [if_neg (fun hc => hself hc.1)]
      exact hbase
  | @peerMsg _ fuel src content hs =>
    obtain ⟨rfl, hidle⟩ | ⟨msg, rfl, hfin, hver, hr⟩ := handlePeerMsg_cases hs
    · cases content with
      | none => exact h.trace _
      | some msg =>
        rw [castBallot, if_neg fun hc => hc.2 (hidle msg rfl hc.1)]
        exact h.trace _
    · rw [castBallot, if_pos ⟨hver, hfin⟩]
      exact (h.trace _).recordVotes hfin _ hr
  | timeout hne hs =>
    obtain ⟨blkId, time, rest, -, hs⟩ := handleTimeout_cases hs
    have hbase : PollsInv cfg (tr ++ [.timeout]) { s with voteTimeQueue := rest } ballots :=
      ⟨h.counts, (h.trace _).queries, (h.trace _).asks⟩
    obtain ⟨-, rfl⟩ | ⟨hfin, hv⟩ := hs
    · exact hbase
    · exact hbase.handleVotes hfin hv
  | commit hne hs =>
    obtain ⟨hashes, rest, -, -, rfl⟩ := nextToCommit_cases hs
    exact ⟨h.counts, (h.trace _).queries, (h.trace _).asks⟩

theorem pollsInv_run (h : PollRun cfg tr s ballots) : PollsInv cfg tr s ballots := by
  refine h.invariant_trace (fun tr p => PollsInv cfg tr p.1 p.2) ?_ ?_
  · refine ⟨fun id _ => rfl, fun id qs hqs => absurd hqs ?_, fun slot root votes hask => ?_⟩
    · simp [polls, Decision.new]
    · exact absurd hask (by simp [polls, Decision.new, Ledger.new])
  · intro tr p call p' ih _ hs
    obtain ⟨hs, ownVotes, hown, hb⟩ := hs
    rw [hb]
    exact pollsInv_step ih hs hown

/-- A ballot is the own one on an own block, or it is that of a message. -/
theorem castBallot_cases {ownVotes : List Bool} {call : Call} {id : Nat}
    {ballot : NodeId × List Bool} (h : castBallot cfg s ownVotes call = some (id, ballot)) :
    (∃ src blk, call = .newTail src [blk] ∧ blk.proposer = cfg.self ∧ blk.id = id ∧
      ballot = (cfg.self, ownVotes)) ∨
    ∃ src msg, call = .peerMsg src (some msg) ∧
      cfg.verify src (msg.round, msg.votes) msg.signature = true ∧ msg.round = id ∧
      ballot = (src, msg.votes) := by
  unfold castBallot at h
  split at h
  · rename_i src blk
    split at h
    · rename_i hc
      obtain ⟨hid, hballot⟩ := Prod.mk.inj (Option.some.inj h)
      exact Or.inl ⟨src, blk, rfl, hc.1, hid, hballot.symm⟩
    · exact absurd h (by simp)
  · rename_i src msg
    split at h
    · rename_i hc
      obtain ⟨hid, hballot⟩ := Prod.mk.inj (Option.some.inj h)
      exact Or.inr ⟨src, msg, rfl, hc.1, hid, hballot.symm⟩
    · exact absurd h (by simp)
  · exact absurd h (by simp)

/-- A ballot is counted for a voter of its round. -/
theorem voter_of_castBallot {ownVotes : List Bool} {call : Call} {id : Nat}
    {ballot : NodeId × List Bool} (h : castBallot cfg s ownVotes call = some (id, ballot)) :
    call.voter cfg id = some ballot.1 := by
  rcases castBallot_cases h with ⟨src, blk, rfl, hself, hid, rfl⟩ | ⟨src, msg, rfl, hver, hid, rfl⟩
  · rw [Call.voter, if_pos ⟨hself, hid⟩]
  · rw [Call.voter, if_pos ⟨hver, hid⟩]

/-- There are no more ballots than voters. -/
theorem ballots_voters (h : PollRun cfg tr s ballots) (id : Nat) :
    ((ballots id).map Prod.fst).Sublist (voters cfg tr id) := by
  refine h.invariant_trace (fun tr p => ((p.2 id).map Prod.fst).Sublist (voters cfg tr id))
    (List.nil_sublist _) ?_
  intro tr p call p' ih _ hs
  obtain ⟨-, ownVotes, -, hb⟩ := hs
  rw [hb, voters_snoc]
  cases hcast : castBallot cfg p.1 ownVotes call with
  | none => exact ih.trans (List.sublist_append_left ..)
  | some ballot =>
    obtain ⟨round, ballot⟩ := ballot
    show ((Function.update p.2 round _ id).map Prod.fst).Sublist _
    by_cases he : id = round
    · subst he
      rw [Function.update_self, List.map_append, voter_of_castBallot hcast]
      exact ih.append (List.Sublist.refl _)
    · rw [Function.update_of_ne he]
      exact ih.trans (List.sublist_append_left ..)

end Copycat.Avalanche
