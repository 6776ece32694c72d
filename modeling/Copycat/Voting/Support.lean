import Copycat.Avalanche.Acceptance
import Copycat.Voting.Network

/-!
# What stands behind a commit

In the network of `Copycat.Voting.Network`, what a node has decided a transaction by are
the votes of so many different nodes. Each of them is the node itself or a neighbour, and
has said yes to that very transaction, at its place in the query (`slot_support`).

A transaction that is committed, by Avalanche or by Blizzard, has been endorsed like this
at `beta1` or `beta2` different slots, by itself or by transactions that build on it
(`commits_endorsed`), whatever is sent and lost and in which order things happen. The
last section evaluates runs of the network on given inputs.
-/

namespace Copycat.Voting

open Copycat.Lib
open Copycat.Lib.Messaging (Did Net acts run_node sent)
open Avalanche (AvalancheTxn Fits LedgerRun Op Slot Streak UniqueIds
  avalancheRule blizzardRule bumpedTxns emitted slotTxn up yesVotes)
open Relation (ReflTransGen)
open Thread (mem_ownBlocks)

variable {C : Type} {c : Cluster C} {tr : List (Did NodeId Act Packet)}
  {s : Net NodeId (Replica C) Packet}
  {G : Net NodeId (Replica C) Packet → Did NodeId Act Packet → Prop}

/-- `voter` has said yes to the transaction at position `i` of the query. -/
def SaidYes (tr : List (Did NodeId Act Packet)) (proposer blkId i : Nat) (txn : AvalancheTxn)
    (voter : NodeId) : Prop :=
  ∃ (blk : Avalanche.Block) (votes : List Bool),
    .decide (.newTail proposer [blk]) votes ∈ acts voter tr ∧
    blk.proposer = proposer ∧ blk.id = blkId ∧ blk.txns[i]? = some txn ∧ votes[i]? = some true

/-- `voters` are the node itself or neighbours, and have said yes to the transaction that
it has proposed at this slot. -/
structure Support (c : Cluster C) (tr : List (Did NodeId Act Packet)) (n : NodeId) (slot : Slot)
    (txn : AvalancheTxn) (voters : Finset NodeId) : Prop where
  proposed : ∃ blk : Avalanche.Block, .propose blk ∈ events (acts n tr) ∧ blk.id = slot.1 ∧
    blk.txns[slot.2]? = some txn
  voters : ∀ voter ∈ voters, (voter = n ∨ voter ∈ c.neighbors n) ∧
    SaidYes tr n slot.1 slot.2 txn voter

/-- A block that reaches the decision stage is a query. -/
theorem mem_queries {as : List Act} {src : NodeId} {blk : Avalanche.Block} {votes : List Bool}
    (h : .decide (.newTail src [blk]) votes ∈ as) : blk ∈ queries as := by
  have htail : (src, [blk]) ∈ tails as := List.mem_filterMap.mpr ⟨_, h, rfl⟩
  exact List.mem_flatMap.mpr ⟨_, htail, List.mem_singleton_self _⟩

/-- Own blocks of one id are the same. -/
theorem own_unique {n : NodeId} {as : List Act} {r : Replica C} {G : Replica C → Act → Prop}
    (h : ((voting c).node n).Run G as r) {a b : Avalanche.Block} (ha : .propose a ∈ events as)
    (hb : .propose b ∈ events as) (hid : a.id = b.id) : a = b := by
  have hnodup := (Thread.run_ownInv (run_blocks h)).nodup
  exact List.inj_on_of_nodup_map hnodup (mem_ownBlocks.mpr ha) (mem_ownBlocks.mpr hb) hid

/-- A query of the node itself that is taken up was proposed. -/
theorem own_query (h : (voting c).net.Run G tr s) {n : NodeId} {blk : Avalanche.Block}
    (hmem : blk ∈ queries (acts n tr)) (hown : blk.proposer = n) :
    .propose blk ∈ events (acts n tr) := by
  rcases query_cases (run_node h n) hmem with hblk | hblk
  · exact mem_ownBlocks.mp hblk
  · exact absurd hown (emits_peer (run_node h n) (run_ownSent h n) hblk).1

/-- **What a slot was decided by.** The votes that are counted for a transaction are those
of different nodes, which have said yes to it. -/
theorem slot_support (h : (voting c).net.Run G tr s) {n : NodeId} {slot : Slot} {root : Hash}
    {votes : Nat} (hask : Op.ask slot root votes ∈ (s.nodes n).decision.history) :
    ∃ txn voters, c.ids.txnId txn = root ∧ voters.card = votes ∧
      Support c tr n slot txn voters := by
  have hnode := run_node h n
  have hself := c.self_config n
  obtain ⟨ballots, hrun, hcast⟩ := run_ballots hnode
  obtain ⟨-, hvotes, qs, ⟨src, blk, hblk, hown, hid, rfl⟩, hroot⟩ :=
    (Avalanche.pollsInv_run hrun).asks slot root votes hask
  rw [hself] at hown
  -- the query, and the transaction
  obtain ⟨a, ha, hcall⟩ := List.mem_filterMap.mp hblk
  have hquery : blk ∈ queries (acts n tr) := by
    cases a with
    | decide call vs =>
      rw [Option.some.inj hcall] at ha
      exact mem_queries ha
    | _ => exact absurd hcall (by simp)
  have hproposed := own_query h hquery hown
  rw [List.getElem?_map, Option.map_eq_some_iff] at hroot
  obtain ⟨txn, htxn, hslot⟩ := hroot
  have hroot : c.ids.txnId txn = root := by
    cases txn with
    | placeHolder => exact absurd hslot (by simp [slotTxn])
    | _ =>
      rw [← Option.some.inj hslot, c.ids_config n]
  -- the voters
  have hnodup : ((ballots slot.1).map Prod.fst).Nodup :=
    (voters_nodup h n slot.1).sublist (Avalanche.ballots_voters hrun slot.1)
  have hyes : ((yesVotes (ballots slot.1) slot.2).map Prod.fst).Nodup :=
    hnodup.sublist (List.filter_sublist.map _)
  refine ⟨txn, ((yesVotes (ballots slot.1) slot.2).map Prod.fst).toFinset, hroot, ?_,
    ⟨blk, hproposed, hid, htxn⟩, fun voter hvoter => ?_⟩
  · rw [List.toFinset_card_of_nodup hyes, List.length_map, hvotes]
  obtain ⟨b, hb, rfl⟩ := List.mem_map.mp (List.mem_toFinset.mp hvoter)
  obtain ⟨hb, htrue⟩ := List.mem_filter.mp hb
  have htrue : b.2[slot.2]? = some true := of_decide_eq_true htrue
  rcases hcast slot.1 b hb with ⟨hn, blk', hmem, hown', hid'⟩ | ⟨msg, hmem, hround, hmsg⟩
  · -- the own vote
    have hsame : blk' = blk := own_unique hnode (own_query h (mem_queries hmem) hown') hproposed
      (hid'.trans hid.symm)
    refine ⟨Or.inl hn, blk, b.2, ?_, hown, hid, htxn, htrue⟩
    rw [hn, ← hsame]
    exact hmem
  · -- the vote of a peer: it has got the query, and voted on what came out of validation
    have hsent := Messaging.mem_sent_of_take h hmem (p := .consensusMsg b.1 n msg)
      (Multiset.mem_singleton_self _)
    obtain ⟨hne, out, hout, hproposer, houtid⟩ := run_genuine h _ hsent
    have hvoter := run_node h b.1
    rcases query_cases hvoter (mem_queries hout) with hq | hq
    · exact absurd ((own_made hvoter hq).1.symm.trans hproposer) hne
    obtain ⟨-, -, txns, hpeer, hfilled⟩ := emits_peer hvoter (run_ownSent h b.1) hq
    have hpacket := Messaging.mem_sent_of_take h (mem_events.mp hpeer)
      (p := .newBlock out.proposer b.1 ⟨out.proposer, out.id, 0, txns⟩)
      (Multiset.mem_singleton_self _)
    obtain ⟨hmade, hneighbor⟩ := (run_genuine h _ hpacket).2 rfl
    rw [hproposer] at hmade hneighbor
    have hsame : (⟨n, out.id, 0, txns⟩ : Avalanche.Block) = blk :=
      own_unique hnode hmade hproposed ((houtid.trans hround).trans hid.symm)
    rw [← hmsg] at htrue
    obtain ⟨t, ht, hreal⟩ := (run_votes hvoter hout).2 slot.2 htrue
    have hplace : blk.txns[slot.2]? = some t := by
      rw [← hsame]
      exact (hfilled.2 slot.2 t ht).resolve_right hreal
    obtain rfl : t = txn := Option.some.inj (hplace.symm.trans htxn)
    exact ⟨Or.inr hneighbor, out, msg.votes, hout, hproposer, houtid.trans hround, ht, htrue⟩

/-! ## Commits -/

/-- `txn` is `t`, or one of its parents builds on `t`. -/
def BuildsOn (ids : UniqueIds) : AvalancheTxn → AvalancheTxn → Prop :=
  ReflTransGen fun txn p => ids.txnId p ∈ txn.parents

/-- What reaches a transaction in the DAG builds on it. -/
theorem buildsOn_of_reach {ids : UniqueIds} {l : Avalanche.Ledger C}
    (hinv : Avalanche.LedgerInv ids.toTxnIds l) {t : AvalancheTxn} {root : Hash}
    (h : Reach (up l.txnDag) root (ids.txnId t)) :
    ∀ txn, ids.txnId txn = root → BuildsOn ids txn t := by
  -- whatever has a parent in the DAG is recorded
  have hrecorded : ∀ {x p : Hash}, p ∈ up l.txnDag x →
      ∃ txn, l.txnPool x = some txn ∧ ids.txnId txn = x ∧ p ∈ txn.parents := by
    intro x p hp
    unfold up at hp
    cases hx : l.txnDag x with
    | none => exact absurd hp (by simp [hx])
    | some node =>
      obtain ⟨txn, htxn, hparents, -⟩ := hinv.node x node hx
      have hp : p ∈ node.parents := by simpa [hx] using hp
      exact ⟨txn, htxn, (hinv.keyed x txn htxn).1, hparents ▸ hp⟩
  induction h using ReflTransGen.head_induction_on with
  | refl =>
    intro txn hroot
    obtain rfl := ids.txnId_inj hroot
    exact .refl
  | @head x p hp hreach ih =>
    intro txn hroot
    obtain ⟨txn', -, hx, hparent⟩ := hrecorded hp
    obtain rfl := ids.txnId_inj (hroot.trans hx.symm)
    have hnext : ∃ next, ids.txnId next = p := by
      rcases Reach.head_cases hreach with he | ⟨q, hq, -⟩
      · exact ⟨t, he.symm⟩
      · obtain ⟨next, -, hid, -⟩ := hrecorded hq
        exact ⟨next, hid⟩
    obtain ⟨next, hid⟩ := hnext
    exact ReflTransGen.head (show ids.txnId next ∈ txn.parents from hid ▸ hparent) (ih next hid)

/-- As many different nodes as the threshold asks for have said yes at this slot, to `t`
or to a transaction that builds on it. -/
def Endorsed (c : Cluster C) (tr : List (Did NodeId Act Packet)) (n : NodeId) (slot : Slot)
    (t : AvalancheTxn) : Prop :=
  ∃ txn voters, (c.config n).voteThresh ≤ voters.card ∧ Support c tr n slot txn voters ∧
    BuildsOn c.ids txn t

/-- The decision stage of a node runs by itself. -/
theorem run_decision (h : (voting c).net.Run G tr s) (n : NodeId) :
    Avalanche.Run (c.config n) (calls (acts n tr)) (s.nodes n).decision := by
  refine (run_node h n).project _ (fun r : Replica C => r.decision) rfl fun r a r' hstep => ?_
  obtain ⟨out, hturn⟩ := hstep
  cases hturn with
  | newTail _ _ hs => exact Or.inr ⟨_, rfl, .newTail hs⟩
  | peerMsg hs => exact Or.inr ⟨_, rfl, .peerMsg hs⟩
  | inner _ hs => exact Or.inr ⟨_, rfl, hs⟩
  | _ => exact Or.inl ⟨rfl, rfl⟩

/-- Each slot that has bumped a transaction has endorsed it. -/
theorem bumps_endorsed (h : (voting c).net.Run G tr s) {n : NodeId} {t : AvalancheTxn}
    {pre post : List Op} {slot : Slot} {b : Bool} (hsplit : (s.nodes n).decision.history =
      pre ++ .bump slot (c.ids.txnId t) b :: post) :
    ∃ slots : Finset Slot, (bumpedTxns (pre ++ [.bump slot (c.ids.txnId t) b])).count
        (c.ids.txnId t) ≤ slots.card ∧ ∀ slot ∈ slots, Endorsed c tr n slot t := by
  rw [← List.singleton_append, ← List.append_assoc] at hsplit
  have hhist := (Avalanche.runInv_run (run_decision h n)).hist
  obtain ⟨slots, hcard, hslots⟩ := hhist.backed hsplit (c.ids.txnId t)
  refine ⟨slots, hcard, fun slot hslot => ?_⟩
  obtain ⟨-, ops, b, rest, hops, pre₁, root, votes, mid, l, rfl, hthresh, hrun, hreach⟩ :=
    hslots slot hslot
  obtain ⟨txn, voters, hroot, hvotes, hsupport⟩ :=
    @slot_support _ _ _ _ _ h n slot root votes (by rw [hsplit, hops]; simp)
  have hinv := hrun.inv
  rw [c.ids_config n] at hinv
  exact ⟨txn, voters, hvotes ▸ hthresh, hsupport, buildsOn_of_reach hinv hreach txn hroot⟩

/-- What is emitted was accepted by a bump, and is recorded then. -/
theorem emitted_bump (h : (voting c).net.Run G tr s) {n : NodeId} {t : AvalancheTxn}
    (ht : t ∈ emitted (calls (acts n tr))) :
    ∃ pre slot post l l', (s.nodes n).decision.history =
        pre ++ .bump slot (c.ids.txnId t) true :: post ∧
      LedgerRun (c.config n) pre l ∧
      Avalanche.OpStep (c.config n) l (.bump slot (c.ids.txnId t) true) l' ∧
      l.txnPool (c.ids.txnId t) = some t ∧
      Avalanche.Ops (c.config n) l' post (s.nodes n).decision.toLedger := by
  have hinv := Avalanche.runInv_run (run_decision h n)
  obtain ⟨hpre, hknown⟩ := hinv.emitted_ids
  have hpool := hknown t ht
  have hacc := (Avalanche.mem_committedTxns.mp (hpre.subset (List.mem_map_of_mem ht))).1
  rw [c.ids_config n] at hpool hacc
  obtain ⟨pre, slot, post, hsplit⟩ := hinv.hist.run.accept_after_bump hacc
  have hrun : LedgerRun (c.config n) (pre ++ .bump slot (c.ids.txnId t) true ::
      (.accept (c.ids.txnId t) :: post)) (s.nodes n).decision.toLedger := hsplit ▸ hinv.hist.run
  obtain ⟨l, l', hl, hstep, -, hsame, hpost⟩ := hrun.at_bump
  -- what is recorded now was recorded then
  obtain ⟨fuel, txn, tally, -, htxn, -⟩ := hl.verdict hstep
  have he := (Avalanche.pool_ops hpost (hsame ▸ htxn)).symm.trans hpool
  exact ⟨pre, slot, _, l, l', hsplit, hl, hstep, Option.some.inj he ▸ htxn, hpost⟩

/-- **A commit is endorsed**, in Avalanche and in Blizzard. Whatever a node has committed,
at `beta1` or `beta2` slots of its own queries at least as many different nodes as the
threshold asks for have said yes to it, or to a transaction that builds on it. In Blizzard
this needs the sums that are compared to fit. -/
theorem commits_endorsed :
    (∀ (c : Cluster Streak) (tr : List (Did NodeId Act Packet))
        (s : Net NodeId (Replica Streak) Packet) (n : NodeId) (t : AvalancheTxn),
      (voting c).net.Run (fun _ _ => True) tr s → (c.config n).rule = avalancheRule →
      t ∈ emitted (calls (acts n tr)) →
      ∃ slots : Finset Slot,
        min (c.config n).beta1.toNat (c.config n).beta2.toNat ≤ slots.card ∧
        ∀ slot ∈ slots, Endorsed c tr n slot t) ∧
    ∀ (c : Cluster Nat) (tr : List (Did NodeId Act Packet))
        (s : Net NodeId (Replica Nat) Packet) (n : NodeId) (t : AvalancheTxn),
      (voting c).net.Run (fun _ _ => True) tr s → (c.config n).rule = blizzardRule →
      t ∈ emitted (calls (acts n tr)) →
      Fits (c.config n) (s.nodes n).decision.toLedger t →
      ∃ slots : Finset Slot,
        min (c.config n).beta1.toNat (c.config n).beta2.toNat ≤ slots.card ∧
        ∀ slot ∈ slots, Endorsed c tr n slot t := by
  refine ⟨fun c tr s n t h hrule ht => ?_, fun c tr s n t h hrule ht hfits => ?_⟩
  · obtain ⟨pre, slot, post, l, l', hsplit, hl, hstep, -, -⟩ := emitted_bump h ht
    obtain ⟨-, -, hmin, -⟩ := LedgerRun.streak_verdict hrule hl hstep
    obtain ⟨slots, hcard, hslots⟩ := bumps_endorsed h hsplit
    exact ⟨slots, hmin.trans hcard, hslots⟩
  · obtain ⟨pre, slot, post, l, l', hsplit, hl, hstep, htxn, hpost⟩ := emitted_bump h ht
    obtain ⟨-, tally, -, -, hmin, -⟩ := LedgerRun.weighed hrule hl hstep hpost htxn hfits
    obtain ⟨slots, hcard, hslots⟩ := bumps_endorsed h hsplit
    rw [Avalanche.bumpedTxns_append, List.count_append, show (bumpedTxns
      [Op.bump slot (c.ids.txnId t) true]).count (c.ids.txnId t) = 1 from
        List.count_singleton_self] at hcard
    exact ⟨slots, by omega, hslots⟩

/-! ## Evaluation -/

/-- What a node does next, for runs on given inputs. The rest is up to the state. -/
inductive Input where
  | newTxn (txn : AvalancheTxn)
  | prepare
  | propose
  | peerBlk (src : NodeId) (blk : Avalanche.Block)
  | checked (src : NodeId) (blk : Avalanche.Block)
  | validate
  | pmakerMsg
  | disseminate (dests : Finset NodeId)
  | newTail
  | peerMsg (src : NodeId) (msg : Avalanche.VoteMsg)
  | commit
deriving DecidableEq

/-- The arms of the block thread. -/
def evalBlocks (c : Cluster C) (fuel : Nat) (n : NodeId) (t : Blocks) :
    Input → Option (BlockEvent × Blocks)
  | .newTxn txn =>
    (Avalanche.BlockManagement.recordNewTxn c.ids t.stage txn).toOption.map fun r =>
      (.newTxn [txn], { t with stage := r.1, blkState := Thread.afterTxns t.blkState })
  | .prepare =>
    if t.blkState = .working then
      (Avalanche.BlockManagement.prepareNewBlock (c.stage n).blkLen .sorted fuel
        t.stage).toOption.map fun r => (.prepare, { t with stage := r.1, blkState := r.2 })
    else none
  | .propose =>
    if t.stage.waitToPropose = .ok () then
      (Avalanche.BlockManagement.getNewBlock (c.stage n).self t.stage).toOption.map fun r =>
        (.propose r.2, { t with
          stage := r.1
          blkState := .working
          blksSeen := insert (Thread.avalancheBlkId r.2) t.blksSeen })
    else none
  | .peerBlk src blk =>
    if src = n ∨ Thread.avalancheBlkId blk ∈ t.blksSeen then some (.peerBlk src blk, t)
    else some (.peerBlk src blk, { t with
      blksSeen := insert (Thread.avalancheBlkId blk) t.blksSeen
      tasks := (src, blk) ::ₘ t.tasks })
  | .checked src blk =>
    if (src, blk) ∈ t.tasks then
      some (.checked src blk true, { t with
        tasks := t.tasks.erase (src, blk)
        pendingBlk := t.pendingBlk ++ [(src, blk)] })
    else none
  | .validate =>
    match t.pendingBlk with
    | [] => none
    | (src, blk) :: rest =>
      (Avalanche.BlockManagement.validateBlock c.ids t.stage blk).toOption.map fun v =>
        (.validate src blk v.newTail, { t with
          stage := v.state
          pendingBlk := rest
          blkState := if v.newTail.isEmpty then t.blkState else .working })
  | .pmakerMsg => some (.pmakerMsg, { t with stage := t.stage.handlePmakerMsg })
  | _ => none

theorem evalBlocks_step {fuel : Nat} {n : NodeId} {t t' : Blocks} {input : Input}
    {e : BlockEvent} (h : evalBlocks c fuel n t input = some (e, t')) :
    Thread.Step (Thread.avalancheBlocks c.ids (c.stage n)) n t e t' := by
  unfold evalBlocks at h
  cases input with
  | newTxn txn =>
    obtain ⟨⟨s, added⟩, hr, h⟩ := Option.map_eq_some_iff.mp h
    obtain ⟨rfl, rfl⟩ := Prod.mk.inj h
    exact .newTxn (.cons ⟨added, toOption_eq_some.mp hr⟩ (.nil _))
  | prepare =>
    dsimp only at h
    split at h
    · rename_i hworking
      obtain ⟨r, hr, h⟩ := Option.map_eq_some_iff.mp h
      obtain ⟨rfl, rfl⟩ := Prod.mk.inj h
      exact .prepare hworking ⟨.sorted, fuel, toOption_eq_some.mp hr⟩
    · exact absurd h (by simp)
  | propose =>
    dsimp only at h
    split at h
    · rename_i hwait
      obtain ⟨r, hr, h⟩ := Option.map_eq_some_iff.mp h
      obtain ⟨rfl, rfl⟩ := Prod.mk.inj h
      exact .propose hwait (toOption_eq_some.mp hr)
    · exact absurd h (by simp)
  | peerBlk src blk =>
    dsimp only at h
    split at h
    · rename_i hignored
      obtain ⟨rfl, rfl⟩ := Prod.mk.inj (Option.some.inj h)
      exact .ignore hignored
    · rename_i hnew
      obtain ⟨rfl, rfl⟩ := Prod.mk.inj (Option.some.inj h)
      exact .peerBlk (fun hsrc => hnew (Or.inl hsrc)) fun hseen => hnew (Or.inr hseen)
  | checked src blk =>
    dsimp only at h
    split at h
    · rename_i hmem
      obtain ⟨rfl, rfl⟩ := Prod.mk.inj (Option.some.inj h)
      exact .checked true (Multiset.cons_erase hmem).symm
    · exact absurd h (by simp)
  | validate =>
    dsimp only at h
    split at h
    · exact absurd h (by simp)
    · rename_i hpending
      obtain ⟨v, hv, h⟩ := Option.map_eq_some_iff.mp h
      obtain ⟨rfl, rfl⟩ := Prod.mk.inj h
      exact .validate hpending ⟨v, toOption_eq_some.mp hv, rfl, rfl⟩
  | pmakerMsg =>
    obtain ⟨rfl, rfl⟩ := Prod.mk.inj (Option.some.inj h)
    exact .pmakerMsg
  | _ => exact absurd h (by simp)

/-- A turn of a node, taken. -/
def evalReplica (c : Cluster C) (fuel : Nat) (n : NodeId) (r : Replica C) :
    Input → Option (Act × Multiset Packet × Replica C)
  | .disseminate dests =>
    match r.newBlock with
    | [] => none
    | (src, tail) :: rest =>
      if Sampled c n src dests then
        some (.disseminate dests, multicast n dests tail, { r with
          newBlock := rest
          blockReady := r.blockReady ++ if tail.isEmpty then [] else [(src, tail)] })
      else none
  | .newTail =>
    match r.blockReady with
    | (src, [blk]) :: rest =>
      (blk.txns.foldlM (Avalanche.newTxn (c.config n) fuel)
          ⟨r.decision.toLedger, [], []⟩).toOption.bind fun b =>
        (Avalanche.newTail (c.config n) fuel 0 r.decision src [blk]).toOption.map fun (d, reply) =>
          (.decide (.newTail src [blk]) b.votes, ballot c n reply,
            { r with blockReady := rest, decision := d })
    | _ => none
  | .peerMsg src msg =>
    (Avalanche.handlePeerMsg (c.config n) fuel r.decision src (some msg)).toOption.map fun d =>
      (.decide (.peerMsg src (some msg)) [], 0, { r with decision := d })
  | .commit =>
    if r.decision.commitQueue = [] then none
    else (Avalanche.nextToCommit r.decision).toOption.map fun (d, blkId, txns) =>
      (.decide (.commit blkId txns) [], 0, { r with decision := d })
  | input => (evalBlocks c fuel n r.blocks input).map fun (e, t) =>
      (.blocks e, requests c.ids n r.blocks e,
        { r with blocks := t, newBlock := r.newBlock ++ newBlocks n e })

theorem evalReplica_turn {fuel : Nat} {n : NodeId} {r r' : Replica C} {input : Input} {a : Act}
    {out : Multiset Packet} (h : evalReplica c fuel n r input = some (a, out, r')) :
    Turn c n r a out r' := by
  have hblocks : (evalBlocks c fuel n r.blocks input).map (fun (e, t) =>
      (Act.blocks e, requests c.ids n r.blocks e,
        { r with blocks := t, newBlock := r.newBlock ++ newBlocks n e })) = some (a, out, r') →
      Turn c n r a out r' := by
    intro h
    obtain ⟨⟨e, t⟩, he, h⟩ := Option.map_eq_some_iff.mp h
    obtain ⟨rfl, rfl, rfl⟩ : _ ∧ _ ∧ _ := by simpa only [Prod.mk.injEq] using h
    exact .blocks (evalBlocks_step he)
  cases input with
  | disseminate dests =>
    unfold evalReplica at h
    dsimp only at h
    split at h
    · exact absurd h (by simp)
    · rename_i hpipe
      split at h
      · rename_i hsampled
        obtain ⟨rfl, rfl, rfl⟩ : _ ∧ _ ∧ _ := by
          simpa only [Option.some.injEq, Prod.mk.injEq] using h
        exact .disseminate hpipe hsampled
      · exact absurd h (by simp)
  | newTail =>
    unfold evalReplica at h
    dsimp only at h
    split at h
    · rename_i src blk rest hready
      obtain ⟨b, hb, h⟩ := Option.bind_eq_some_iff.mp h
      obtain ⟨⟨d, reply⟩, hd, h⟩ := Option.map_eq_some_iff.mp h
      obtain ⟨rfl, rfl, rfl⟩ : _ ∧ _ ∧ _ := by simpa only [Prod.mk.injEq] using h
      refine .newTail hready (fun src' blk' he => ?_) (toOption_eq_some.mp hd)
      obtain ⟨-, he⟩ := Avalanche.Call.newTail.inj he
      obtain ⟨rfl, -⟩ := List.cons.inj he
      exact ⟨fuel, b, toOption_eq_some.mp hb, rfl⟩
    · exact absurd h (by simp)
  | peerMsg src msg =>
    obtain ⟨d, hd, h⟩ := Option.map_eq_some_iff.mp h
    obtain ⟨rfl, rfl, rfl⟩ : _ ∧ _ ∧ _ := by simpa only [Prod.mk.injEq] using h
    exact .peerMsg (toOption_eq_some.mp hd)
  | commit =>
    unfold evalReplica at h
    dsimp only at h
    split at h
    · exact absurd h (by simp)
    · rename_i hqueue
      obtain ⟨⟨d, blkId, txns⟩, hd, h⟩ := Option.map_eq_some_iff.mp h
      obtain ⟨rfl, rfl, rfl⟩ : _ ∧ _ ∧ _ := by simpa only [Prod.mk.injEq] using h
      exact .inner trivial (.commit hqueue (toOption_eq_some.mp hd))
  | _ => exact hblocks h

/-- Two nodes, each a neighbour of the other, that both have to say yes. -/
def demo (rule : Avalanche.VoteRule C) : Cluster C where
  ids := .coded
  config n := {
    ids := UniqueIds.coded.toTxnIds
    rule := rule
    self := n
    k := 2
    voteThresh := 2
    beta1 := 1
    beta2 := 1
    voteTimeout := 10
    verify := fun _ _ _ => true }
  blkLen _ := 2
  neighbors n := if n = 0 then {1} else {0}
  sign _ _ := []
  self_config _ := rfl
  ids_config _ := rfl

/-- Node `0` proposes the grant and the payment, node `1` answers the query, and what
comes of it is committed. -/
def demoInputs : List (NodeId × Input) :=
  let blk : Avalanche.Block := ⟨0, 0, 0, [Avalanche.orderedGrant, Avalanche.orderedPay]⟩
  [(0, .newTxn Avalanche.orderedGrant), (0, .newTxn Avalanche.orderedPay), (0, .prepare),
    (0, .pmakerMsg), (0, .propose), (0, .disseminate {1}), (0, .newTail), (1, .peerBlk 0 blk),
    (1, .checked 0 blk), (1, .validate), (1, .disseminate ∅), (1, .newTail),
    (0, .peerMsg 1 ⟨0, [true, true], []⟩), (0, .commit)]

/-- What the turns of the nodes come to is so at the end of a run. -/
theorem evalInputs_run (c : Cluster C) (fuel : Nat) (inputs : List (NodeId × Input))
    (q : List (Did NodeId Act Packet) × Net NodeId (Replica C) Packet → Bool)
    (h : (Machine.evaluate (Messaging.evalTurn (voting c) (evalReplica c fuel))
      (fun _ _ => true) inputs (voting c).net.start).any q = true) :
    ∃ tr s, (voting c).net.Run (fun _ _ => True) tr s ∧ q (tr, s) = true := by
  obtain ⟨tr, s, hrun, hq⟩ := Machine.exists_run (M := (voting c).net)
    (Messaging.evalTurn (voting c) (evalReplica c fuel))
    (fun _ _ _ _ => Messaging.evalTurn_step fun _ _ _ _ _ _ => evalReplica_turn)
    (fun _ _ => true) inputs q h
  exact ⟨tr, s, hrun.mono fun _ _ _ _ => trivial, hq⟩

/-- The grant and the payment are committed, by either rule. Both nodes
have said yes to the payment. -/
theorem commits_endorsed_demo :
    (∃ tr s, (voting (demo avalancheRule)).net.Run (fun _ _ => True) tr s ∧
      emitted (calls (acts 0 tr)) = [Avalanche.orderedGrant, Avalanche.orderedPay] ∧
      ∃ slots : Finset Slot, 1 ≤ slots.card ∧
        ∀ slot ∈ slots, Endorsed (demo avalancheRule) tr 0 slot Avalanche.orderedPay) ∧
    ∃ tr s, (voting (demo blizzardRule)).net.Run (fun _ _ => True) tr s ∧
      emitted (calls (acts 0 tr)) = [Avalanche.orderedGrant, Avalanche.orderedPay] ∧
      ∃ slots : Finset Slot, 1 ≤ slots.card ∧
        ∀ slot ∈ slots, Endorsed (demo blizzardRule) tr 0 slot Avalanche.orderedPay := by
  obtain ⟨tr, s, hrun, hq⟩ := evalInputs_run (demo avalancheRule) 20 demoInputs
    (fun r => emitted (calls (acts 0 r.1)) = [Avalanche.orderedGrant, Avalanche.orderedPay])
    (by decide +kernel)
  have hemitted := of_decide_eq_true hq
  obtain ⟨tr', s', hrun', hq'⟩ := evalInputs_run (demo blizzardRule) 20 demoInputs
    (fun r => emitted (calls (acts 0 r.1)) = [Avalanche.orderedGrant, Avalanche.orderedPay] ∧
      Fits ((demo blizzardRule).config 0) (r.2.nodes 0).decision.toLedger Avalanche.orderedPay)
    (by decide +kernel)
  obtain ⟨hemitted', hfits⟩ := of_decide_eq_true hq'
  obtain ⟨havalanche, hblizzard⟩ := commits_endorsed
  refine ⟨⟨tr, s, hrun, hemitted, ?_⟩, tr', s', hrun', hemitted', ?_⟩
  · exact havalanche _ tr s 0 Avalanche.orderedPay hrun rfl (by rw [hemitted]; simp)
  · exact hblizzard _ tr' s' 0 Avalanche.orderedPay hrun' rfl (by rw [hemitted']; simp) hfits

end Copycat.Voting
