import Copycat.Avalanche.Ordering
import Copycat.Avalanche.Ballots

/-!
# The in-flight quota of a node

`FixedInflightBlkPaceMaker` (`src/stage/pacemaker/fixed_inflight_blk.rs`) lets a
node have a fixed number of its own blocks undecided. It hands its quota out in
messages to the block management, which spends it on blocks; a block goes through
the dissemination stage to the decision stage, and comes back as a message to the
pacemaker once its query is decided.

`Node` is the three stages with the channels between them, and `node` the machine
whose steps are one turn of one of their loops, in any order. The channels do
not fail, and neither does the dissemination. Messages to and from the pacemaker
are empty, so of these channels only the number of messages is kept. A turn that
has to wait, for a message or for its own condition, does not return.

No turn makes a unit of quota or loses one (`quota_conserved`). The two ways a
query can be decided, by votes and by its timer, both go through `handle_votes`,
which trades the query for one message (`Traded`).
-/

namespace Copycat.Avalanche

open Copycat.Lib
open BlockManagement

/-! ## The pacemaker -/

/-- `FixedInflightBlkPaceMaker`. -/
structure FixedInflightBlkPaceMaker where
  quota : Nat
deriving DecidableEq, Repr

namespace FixedInflightBlkPaceMaker

/-- `FixedInflightBlkPaceMaker::new`. -/
def new (maxInflightBlk : Nat) : FixedInflightBlkPaceMaker := ⟨maxInflightBlk⟩

/-- `wait_to_propose`: with no quota it waits for a notification nobody sends. -/
def waitToPropose (p : FixedInflightBlkPaceMaker) : Res Unit :=
  if p.quota = 0 then .error .diverge else .ok ()

/-- `get_propose_msg`, where the subtraction is checked. -/
def getProposeMsg (p : FixedInflightBlkPaceMaker) : Res FixedInflightBlkPaceMaker :=
  if p.quota = 0 then .error .panic else .ok ⟨p.quota - 1⟩

/-- `handle_feedback`. -/
def handleFeedback (p : FixedInflightBlkPaceMaker) : FixedInflightBlkPaceMaker := ⟨p.quota + 1⟩

end FixedInflightBlkPaceMaker

/-- `wait_to_propose` of the block management: with no quota or nothing to
propose it sleeps for ever, and else it returns, at once or after a while. -/
def BlockManagement.waitToPropose (s : BlockManagement) : Res Unit :=
  if s.blkQuota = 0 ∨ s.currBatch.length = 0 then .error .diverge else .ok ()

/-! ## The node -/

variable {C : Type}

/-- The stages and what is in transit between them: propose messages, blocks to
the dissemination and to the decision stage, oldest first, and of the feedback
messages those that the pacemaker has taken. -/
structure Node (C : Type) where
  pmaker : FixedInflightBlkPaceMaker
  shouldPropose : Nat
  mgmt : BlockManagement
  newBlock : List (NodeId × List Block)
  blockReady : List (NodeId × List Block)
  decision : Decision C
  feedbackTaken : Nat

namespace Node

/-- A node at its start. -/
def new (C : Type) (maxInflightBlk : Nat) : Node C where
  pmaker := .new maxInflightBlk
  shouldPropose := 0
  mgmt := .new
  newBlock := []
  blockReady := []
  decision := .new C
  feedbackTaken := 0

/-- The turns of the loops. -/
inductive Act where
  -- `pacemaker_thread`
  | getProposeMsg
  | handleFeedback
  -- `block_management_thread`
  | handlePmakerMsg
  | recordNewTxn (txn : AvalancheTxn)
  | prepareNewBlock
  | getNewBlock
  | validateBlock (src : NodeId) (block : Block)
  -- `block_dissemination_thread`
  | disseminate
  -- `decision_thread`
  | newTail
  | peerMsg (src : NodeId) (content : Option VoteMsg)
  | timeout
  | commit

/-- One turn. -/
def act (ids : UniqueIds) (cfg : Config C) (blkLen : Nat) (ord : HashOrder) (fuel now : Nat)
    (s : Node C) : Act → Res (Node C)
  | .getProposeMsg =>
    s.pmaker.waitToPropose >>= fun _ =>
    s.pmaker.getProposeMsg >>= fun pmaker =>
    .ok { s with pmaker := pmaker, shouldPropose := s.shouldPropose + 1 }
  | .handleFeedback =>
    if s.feedbackTaken < s.decision.pmakerFeedback then
      .ok { s with pmaker := s.pmaker.handleFeedback, feedbackTaken := s.feedbackTaken + 1 }
    else .error .diverge
  | .handlePmakerMsg =>
    match s.shouldPropose with
    | 0 => .error .diverge
    | n + 1 => .ok { s with shouldPropose := n, mgmt := handlePmakerMsg s.mgmt }
  | .recordNewTxn txn =>
    recordNewTxn ids s.mgmt txn >>= fun r => .ok { s with mgmt := r.1 }
  | .prepareNewBlock =>
    prepareNewBlock blkLen ord fuel s.mgmt >>= fun r => .ok { s with mgmt := r.1 }
  | .getNewBlock =>
    s.mgmt.waitToPropose >>= fun _ =>
    getNewBlock cfg.self s.mgmt >>= fun r =>
    .ok { s with mgmt := r.1, newBlock := s.newBlock ++ [(cfg.self, [r.2])] }
  | .validateBlock src block =>
    -- ignore blocks proposed by myself
    if src = cfg.self then .ok s
    else
      validateBlock ids s.mgmt block >>= fun v =>
      .ok { s with
        mgmt := v.state
        newBlock := if v.newTail = [] then s.newBlock else s.newBlock ++ [(src, v.newTail)] }
  | .disseminate =>
    match s.newBlock with
    | [] => .error .diverge
    | (src, tail) :: rest =>
      .ok { s with
        newBlock := rest
        blockReady := if tail = [] then s.blockReady else s.blockReady ++ [(src, tail)] }
  | .newTail =>
    match s.blockReady with
    | [] => .error .diverge
    | (src, tail) :: rest =>
      newTail cfg fuel now s.decision src tail >>= fun r =>
      .ok { s with blockReady := rest, decision := r.1 }
  | .peerMsg src content =>
    handlePeerMsg cfg fuel s.decision src content >>= fun d => .ok { s with decision := d }
  | .timeout => handleTimeout cfg fuel s.decision >>= fun d => .ok { s with decision := d }
  | .commit => nextToCommit s.decision >>= fun r => .ok { s with decision := r.1 }

end Node

/-- The node as a machine. -/
def node (ids : UniqueIds) (cfg : Config C) (blkLen maxInflightBlk : Nat) :
    Machine (Node C) Node.Act where
  start := .new C maxInflightBlk
  step s a s' := ∃ ord fuel now, s.act ids cfg blkLen ord fuel now a = .ok s'

/-! ## The decision stage -/

/-- The queries that are open. -/
def Decision.pending (s : Decision C) : Set Nat := fun id => (s.queryPool id).isSome

/-- Open queries become messages to the pacemaker, one for one. -/
structure Traded (s s' : Decision C) : Prop where
  sub : s'.pending ⊆ s.pending
  sum : s.pending.Finite →
    s'.pending.ncard + s'.pmakerFeedback = s.pending.ncard + s.pmakerFeedback
  mono : s.pmakerFeedback ≤ s'.pmakerFeedback

theorem Traded.same {s s' : Decision C} (hquery : s'.queryPool = s.queryPool)
    (hfeedback : s'.pmakerFeedback = s.pmakerFeedback) : Traded s s' := by
  have hpending : s'.pending = s.pending := by
    unfold Decision.pending
    rw [hquery]
  refine ⟨hpending.le, fun _ => ?_, hfeedback.ge⟩
  rw [hpending, hfeedback]

/-- What a call did before the trade, to the rest of the state. -/
theorem Traded.after {s s₁ s' : Decision C} (h : Traded s₁ s')
    (hquery : s₁.queryPool = s.queryPool) (hfeedback : s₁.pmakerFeedback = s.pmakerFeedback) :
    Traded s s' := by
  have hpending : s₁.pending = s.pending := by
    unfold Decision.pending
    rw [hquery]
  obtain ⟨hsub, hsum, hmono⟩ := h
  rw [hpending] at hsub hsum
  rw [hfeedback] at hsum hmono
  exact ⟨hsub, hsum, hmono⟩

variable {cfg : Config C}

theorem traded_handleVotes {fuel : Nat} {s s' : Decision C} {blkId : Nat}
    (h : handleVotes cfg fuel s blkId = .ok s') : Traded s s' := by
  rcases handleVotes_cases h with ⟨-, rfl⟩ | ⟨txns, n, acc, l, c, hquery, -, -, -, rfl⟩
  · exact .same rfl rfl
  · have hin : blkId ∈ s.pending := by
      show (s.queryPool blkId).isSome
      rw [hquery]
      rfl
    have hpending : (finish s blkId l c).pending = s.pending \ {blkId} := by
      refine Set.ext fun id => ?_
      show (Function.update s.queryPool blkId none id).isSome ↔ (s.queryPool id).isSome ∧ id ≠ blkId
      by_cases hid : id = blkId
      · simp [hid]
      · simp [hid]
    refine ⟨?_, fun hfin => ?_, Nat.le_succ _⟩
    · rw [hpending]
      exact Set.sdiff_subset
    · rw [hpending]
      show (s.pending \ {blkId}).ncard + (s.pmakerFeedback + 1) = _
      have := Set.ncard_sdiff_singleton_add_one hin hfin
      omega

theorem traded_recordVotes {fuel : Nat} {s s' : Decision C} {blkId : Nat} {votes : List Bool}
    (h : recordVotes cfg fuel s blkId votes = .ok s') : Traded s s' := by
  rcases recordVotes_cases h with ⟨-, rfl⟩ | ⟨-, -, ⟨-, rfl⟩ | ⟨-, hv⟩⟩
  · exact .same rfl rfl
  · exact .same rfl rfl
  · exact (traded_handleVotes hv).after rfl rfl

theorem traded_handlePeerMsg {fuel : Nat} {s s' : Decision C} {src : NodeId}
    {content : Option VoteMsg} (h : handlePeerMsg cfg fuel s src content = .ok s') :
    Traded s s' := by
  obtain ⟨rfl, -⟩ | ⟨msg, -, -, -, hr⟩ := handlePeerMsg_cases h
  · exact .same rfl rfl
  · exact traded_recordVotes hr

theorem traded_handleTimeout {fuel : Nat} {s s' : Decision C}
    (h : handleTimeout cfg fuel s = .ok s') : Traded s s' := by
  obtain ⟨blkId, time, rest, -, ⟨-, rfl⟩ | ⟨-, hv⟩⟩ := handleTimeout_cases h
  · exact .same rfl rfl
  · exact (traded_handleVotes hv).after rfl rfl

theorem traded_nextToCommit {s : Decision C} {r : Decision C × Nat × List AvalancheTxn}
    (h : nextToCommit s = .ok r) : Traded s r.1 := by
  obtain ⟨hashes, rest, -, -, hr⟩ := nextToCommit_cases h
  rw [hr]
  exact .same rfl rfl

/-- A block of a peer opens no query. -/
theorem traded_newTail {fuel now : Nat} {s : Decision C} {src : NodeId} {tail : List Block}
    {r : Decision C × Option (NodeId × Nat × List Bool)} (hsrc : src ≠ cfg.self)
    (h : newTail cfg fuel now s src tail = .ok r) : Traded s r.1 := by
  obtain ⟨-, hr, -⟩ | ⟨blk, b, -, -, hproposer, -, ⟨hself, -⟩ | ⟨-, hr, -⟩⟩ := newTail_cases h
  · rw [hr]
    exact .same rfl rfl
  · exact absurd (hproposer.trans hself) hsrc
  · rw [hr]
    exact .same rfl rfl

/-- An own block opens one. -/
theorem newTail_own {fuel now : Nat} {s : Decision C} {blk : Block}
    {r : Decision C × Option (NodeId × Nat × List Bool)}
    (h : newTail cfg fuel now s cfg.self [blk] = .ok r) :
    ∃ s₁, s₁.pending = insert blk.id s.pending ∧ s₁.pmakerFeedback = s.pmakerFeedback ∧
      Traded s₁ r.1 := by
  obtain ⟨he, -⟩ | ⟨blk', b, he, -, hproposer, -, ⟨-, hr, -⟩ | ⟨hother, -⟩⟩ := newTail_cases h
  · exact absurd he (by simp)
  · rw [List.cons.injEq] at he
    obtain ⟨rfl, -⟩ := he
    refine ⟨opened cfg now s blk b, ?_, rfl, traded_recordVotes hr⟩
    refine Set.ext fun id => ?_
    show (Function.update s.queryPool blk.id (some b.queryTxns) id).isSome ↔
      id = blk.id ∨ (s.queryPool id).isSome
    by_cases hid : id = blk.id
    · simp [hid]
    · simp [hid]
  · exact absurd hproposer.symm hother

/-! ## The block management -/

theorem recordNewTxn_quota {ids : UniqueIds} {s : BlockManagement} {txn : AvalancheTxn}
    {r : BlockManagement × Bool} (h : recordNewTxn ids s txn = .ok r) :
    r.1.blkQuota = s.blkQuota ∧ r.1.blkCounter = s.blkCounter := by
  rcases recordNewTxn_cases h with ⟨-, hr⟩ | ⟨-, -, hr⟩
  · rw [hr]
    exact ⟨rfl, rfl⟩
  · rw [hr]
    exact ⟨rfl, rfl⟩

theorem prepareNewBlock_same {blkLen fuel : Nat} {ord : HashOrder} {s : BlockManagement}
    {r : BlockManagement × Bitcoin.CurBlockState}
    (h : prepareNewBlock blkLen ord fuel s = .ok r) :
    r.1.blkQuota = s.blkQuota ∧ r.1.blkCounter = s.blkCounter :=
  prepareNewBlock_rule (fun s' => s'.blkQuota = s.blkQuota ∧ s'.blkCounter = s.blkCounter)
    (fun _ _ _ hs _ _ => hs) (fun _ _ _ _ hs _ _ => hs) ⟨rfl, rfl⟩ h

theorem validateBlock_quota {ids : UniqueIds} {s : BlockManagement} {block : Block}
    {v : Validated} (h : validateBlock ids s block = .ok v) :
    v.state.blkQuota = s.blkQuota ∧ v.state.blkCounter = s.blkCounter := by
  unfold validateBlock at h
  obtain ⟨f, -, h⟩ := bind_eq_ok.mp h
  split at h
  · rw [← Except.ok.inj h]
    exact ⟨rfl, rfl⟩
  · obtain ⟨⟨dag, pending, out⟩, -, h⟩ := bind_eq_ok.mp h
    cases out with
    | none =>
      rw [← Except.ok.inj h]
      exact ⟨rfl, rfl⟩
    | some out =>
      rw [← Except.ok.inj h]
      exact ⟨rfl, rfl⟩

theorem getNewBlock_quota {self : NodeId} {s : BlockManagement} {r : BlockManagement × Block}
    (h : getNewBlock self s = .ok r) :
    s.blkQuota = r.1.blkQuota + 1 ∧ r.1.blkCounter = s.blkCounter + 1 ∧
      r.2.id = s.blkCounter := by
  unfold getNewBlock at h
  split at h
  · rename_i hquota
    obtain ⟨txns, -, h⟩ := bind_eq_ok.mp h
    rw [← Except.ok.inj h]
    exact ⟨(Nat.sub_add_cancel hquota).symm, rfl, rfl⟩
  · exact absurd h (by simp)

/-! ## The law -/

namespace Node

/-- What is in transit from the block management to the decision stage. -/
def transit (s : Node C) : List (NodeId × List Block) := s.blockReady ++ s.newBlock

/-- The own blocks there. -/
def ownTransit (cfg : Config C) (s : Node C) : List (NodeId × List Block) :=
  s.transit.filter fun m => m.1 = cfg.self

/-- The feedback messages in transit. -/
def feedback (s : Node C) : Nat := s.decision.pmakerFeedback - s.feedbackTaken

/-- Where the units of quota are. -/
noncomputable def quotas (cfg : Config C) (s : Node C) : Nat :=
  s.pmaker.quota + s.shouldPropose + s.mgmt.blkQuota + (s.ownTransit cfg).length +
    s.decision.pending.ncard + s.feedback

end Node

/-- What every turn keeps: the sum, and that the ids of own blocks are different,
so that no query is overwritten. -/
structure QuotaInv (cfg : Config C) (maxInflightBlk : Nat) (s : Node C) : Prop where
  sum : s.quotas cfg = maxInflightBlk
  taken : s.feedbackTaken ≤ s.decision.pmakerFeedback
  finite : s.decision.pending.Finite
  single : ∀ m ∈ s.ownTransit cfg, ∃ blk, m.2 = [blk]
  nodup : (s.ownTransit cfg).Pairwise fun m m' => ∀ b ∈ m.2, ∀ b' ∈ m'.2, b.id ≠ b'.id
  fresh : ∀ m ∈ s.ownTransit cfg, ∀ b ∈ m.2, b.id ∉ s.decision.pending ∧
    b.id < s.mgmt.blkCounter
  queries : ∀ id ∈ s.decision.pending, id < s.mgmt.blkCounter

section Turns

variable {maxInflightBlk : Nat} {s : Node C}

/-- A turn of the pacemaker or the block management that sends no own block. -/
theorem QuotaInv.upstream (h : QuotaInv cfg maxInflightBlk s) {s' : Node C}
    (hown : s'.ownTransit cfg = s.ownTransit cfg) (hdecision : s'.decision = s.decision)
    (hcounter : s'.mgmt.blkCounter = s.mgmt.blkCounter)
    (htaken : s'.feedbackTaken ≤ s'.decision.pmakerFeedback)
    (hsum : s'.pmaker.quota + s'.shouldPropose + s'.mgmt.blkQuota + s'.feedback =
      s.pmaker.quota + s.shouldPropose + s.mgmt.blkQuota + s.feedback) :
    QuotaInv cfg maxInflightBlk s' := by
  refine ⟨?_, htaken, ?_, ?_, ?_, ?_, ?_⟩
  · rw [← h.sum]
    unfold Node.quotas
    rw [hown, hdecision]
    omega
  · rw [hdecision]
    exact h.finite
  · rw [hown]
    exact h.single
  · rw [hown]
    exact h.nodup
  · rw [hown, hdecision, hcounter]
    exact h.fresh
  · rw [hdecision, hcounter]
    exact h.queries

/-- A turn of the decision stage that opens no query. -/
theorem QuotaInv.traded (h : QuotaInv cfg maxInflightBlk s) {s' : Node C}
    (htraded : Traded s.decision s'.decision) (hown : s'.ownTransit cfg = s.ownTransit cfg)
    (hpmaker : s'.pmaker = s.pmaker) (hpropose : s'.shouldPropose = s.shouldPropose)
    (hmgmt : s'.mgmt = s.mgmt) (htaken : s'.feedbackTaken = s.feedbackTaken) :
    QuotaInv cfg maxInflightBlk s' := by
  have hle := h.taken
  have hmono := htraded.mono
  refine ⟨?_, ?_, h.finite.subset htraded.sub, ?_, ?_, fun m hm b hb => ?_, fun id hid => ?_⟩
  · have hsum := h.sum
    have hdecided := htraded.sum h.finite
    unfold Node.quotas Node.feedback at hsum ⊢
    rw [hown, hpmaker, hpropose, hmgmt, htaken]
    omega
  · omega
  · rw [hown]
    exact h.single
  · rw [hown]
    exact h.nodup
  · rw [hown] at hm
    rw [hmgmt]
    obtain ⟨hnot, hlt⟩ := h.fresh m hm b hb
    exact ⟨fun hin => hnot (htraded.sub hin), hlt⟩
  · rw [hmgmt]
    exact h.queries id (htraded.sub hid)

/-- An own block is made, for one unit of quota. -/
theorem QuotaInv.propose (h : QuotaInv cfg maxInflightBlk s)
    {r : BlockManagement × Block} (hr : getNewBlock cfg.self s.mgmt = .ok r) :
    QuotaInv cfg maxInflightBlk
      { s with mgmt := r.1, newBlock := s.newBlock ++ [(cfg.self, [r.2])] } := by
  obtain ⟨hquota, hcounter, hid⟩ := getNewBlock_quota hr
  have hown : Node.ownTransit cfg
      { s with mgmt := r.1, newBlock := s.newBlock ++ [(cfg.self, [r.2])] } =
      s.ownTransit cfg ++ [(cfg.self, [r.2])] := by
    unfold Node.ownTransit Node.transit
    dsimp only
    rw [← List.append_assoc, List.filter_append]
    simp
  have hfresh : ∀ m ∈ s.ownTransit cfg, ∀ b ∈ m.2, b.id ≠ r.2.id := by
    intro m hm b hb
    rw [hid]
    exact Nat.ne_of_lt (h.fresh m hm b hb).2
  refine ⟨?_, h.taken, h.finite, ?_, ?_, ?_, fun id hin => ?_⟩
  · have hsum := h.sum
    unfold Node.quotas at hsum ⊢
    rw [hown, List.length_append, List.length_singleton]
    dsimp only
    have hfeedback : Node.feedback
        { s with mgmt := r.1, newBlock := s.newBlock ++ [(cfg.self, [r.2])] } = s.feedback := rfl
    omega
  · rw [hown]
    intro m hm
    rcases List.mem_append.mp hm with hm | hm
    · exact h.single m hm
    · rw [List.mem_singleton.mp hm]
      exact ⟨r.2, rfl⟩
  · rw [hown]
    refine List.pairwise_append.mpr ⟨h.nodup, List.pairwise_singleton .., ?_⟩
    intro m hm m' hm' b hb b' hb'
    rw [List.mem_singleton.mp hm'] at hb'
    rw [List.mem_singleton.mp hb']
    exact hfresh m hm b hb
  · rw [hown]
    intro m hm b hb
    dsimp only
    rw [hcounter]
    rcases List.mem_append.mp hm with hm | hm
    · obtain ⟨hnot, hlt⟩ := h.fresh m hm b hb
      exact ⟨hnot, Nat.lt_succ_of_lt hlt⟩
    · rw [List.mem_singleton.mp hm] at hb
      rw [List.mem_singleton.mp hb, hid]
      exact ⟨fun hin => absurd (h.queries _ hin) (Nat.lt_irrefl _), Nat.lt_succ_self _⟩
  · dsimp only
    rw [hcounter]
    exact Nat.lt_succ_of_lt (h.queries id hin)

/-- An own block arrives at the decision stage, and its query is opened. -/
theorem QuotaInv.arrive (h : QuotaInv cfg maxInflightBlk s) {blk : Block}
    {rest : List (NodeId × List Block)} (hready : s.blockReady = (cfg.self, [blk]) :: rest)
    {fuel now : Nat} {r : Decision C × Option (NodeId × Nat × List Bool)}
    (hr : newTail cfg fuel now s.decision cfg.self [blk] = .ok r) :
    QuotaInv cfg maxInflightBlk { s with blockReady := rest, decision := r.1 } := by
  obtain ⟨d, hpending, hfeedback, htraded⟩ := newTail_own hr
  have hown : s.ownTransit cfg = (cfg.self, [blk]) ::
      Node.ownTransit cfg { s with blockReady := rest, decision := r.1 } := by
    unfold Node.ownTransit Node.transit
    dsimp only
    rw [hready, List.cons_append, List.filter_cons_of_pos (by simp)]
  generalize hrest : Node.ownTransit cfg { s with blockReady := rest, decision := r.1 } = own
    at hown
  obtain ⟨hapart, hnodup⟩ := List.pairwise_cons.mp (hown ▸ h.nodup)
  obtain ⟨hnot, hlt⟩ := h.fresh (cfg.self, [blk]) (by simp [hown]) blk (by simp)
  have hfin : d.pending.Finite := by
    rw [hpending]
    exact h.finite.insert _
  have hmono := htraded.mono
  have hle := h.taken
  refine ⟨?_, ?_, hfin.subset htraded.sub, ?_, ?_, ?_, fun id hid => ?_⟩
  · have hsum := h.sum
    have hdecided := htraded.sum hfin
    rw [hpending, Set.ncard_insert_of_notMem hnot h.finite] at hdecided
    unfold Node.quotas Node.feedback at hsum ⊢
    rw [hown, List.length_cons] at hsum
    rw [hrest]
    dsimp only
    omega
  · dsimp only
    omega
  · rw [hrest]
    exact fun m hm => h.single m (by simp [hown, hm])
  · rw [hrest]
    exact hnodup
  · rw [hrest]
    intro m hm b hb
    obtain ⟨hout, hlt⟩ := h.fresh m (by simp [hown, hm]) b hb
    refine ⟨fun hin => ?_, hlt⟩
    have hin := htraded.sub hin
    rw [hpending] at hin
    rcases hin with heq | hin
    · exact hapart m hm blk (by simp) b hb heq.symm
    · exact hout hin
  · have hid := htraded.sub hid
    rw [hpending] at hid
    rcases hid with rfl | hid
    · exact hlt
    · exact h.queries id hid

/-- A call of the block management that makes no block. -/
theorem QuotaInv.manage (h : QuotaInv cfg maxInflightBlk s) {mgmt : BlockManagement}
    (hquota : mgmt.blkQuota = s.mgmt.blkQuota) (hcounter : mgmt.blkCounter = s.mgmt.blkCounter) :
    QuotaInv cfg maxInflightBlk { s with mgmt := mgmt } := by
  refine h.upstream rfl rfl hcounter h.taken ?_
  dsimp only
  rw [hquota]
  rfl

/-- What comes first in the pipe to the dissemination stage moves to the next
pipe, unless it is an empty tail. -/
theorem QuotaInv.ownTransit_disseminate (h : QuotaInv cfg maxInflightBlk s) {src : NodeId}
    {tail : List Block} {rest : List (NodeId × List Block)}
    (hnew : s.newBlock = (src, tail) :: rest) :
    Node.ownTransit cfg { s with
      newBlock := rest
      blockReady := if tail = [] then s.blockReady else s.blockReady ++ [(src, tail)] } =
        s.ownTransit cfg := by
  by_cases htail : tail = []
  · -- own messages hold a block
    have hsrc : src ≠ cfg.self := by
      intro hsrc
      obtain ⟨blk, hblk⟩ := h.single (src, tail)
        (List.mem_filter.mpr ⟨by simp [Node.transit, hnew], by simp [hsrc]⟩)
      rw [htail] at hblk
      exact absurd hblk (by simp)
    unfold Node.ownTransit Node.transit
    simp [hnew, htail, hsrc]
  · unfold Node.ownTransit Node.transit
    simp [hnew, htail]

end Turns

/-- **Every turn keeps the law.** -/
theorem step_quota {ids : UniqueIds} {blkLen maxInflightBlk : Nat} {s s' : Node C} {a : Node.Act}
    (h : QuotaInv cfg maxInflightBlk s)
    (hstep : (node ids cfg blkLen maxInflightBlk).step s a s') :
    QuotaInv cfg maxInflightBlk s' := by
  obtain ⟨ord, fuel, now, hstep⟩ := hstep
  cases a with
  | getProposeMsg =>
    obtain ⟨_, -, hstep⟩ := bind_eq_ok.mp hstep
    obtain ⟨pmaker, hpmaker, hstep⟩ := bind_eq_ok.mp hstep
    rw [← Except.ok.inj hstep]
    unfold FixedInflightBlkPaceMaker.getProposeMsg at hpmaker
    split at hpmaker
    · exact absurd hpmaker (by simp)
    · rename_i hquota
      rw [← Except.ok.inj hpmaker]
      refine h.upstream rfl rfl rfl h.taken ?_
      show s.pmaker.quota - 1 + (s.shouldPropose + 1) + s.mgmt.blkQuota + s.feedback = _
      omega
  | handleFeedback =>
    rw [Node.act] at hstep
    split at hstep
    · rename_i hlt
      rw [← Except.ok.inj hstep]
      refine h.upstream rfl rfl rfl hlt ?_
      show s.pmaker.quota + 1 + s.shouldPropose + s.mgmt.blkQuota +
        (s.decision.pmakerFeedback - (s.feedbackTaken + 1)) = s.pmaker.quota + s.shouldPropose +
        s.mgmt.blkQuota + (s.decision.pmakerFeedback - s.feedbackTaken)
      omega
    · exact absurd hstep (by simp)
  | handlePmakerMsg =>
    rw [Node.act] at hstep
    split at hstep
    · exact absurd hstep (by simp)
    · rename_i n hn
      rw [← Except.ok.inj hstep]
      refine h.upstream rfl rfl rfl h.taken ?_
      show s.pmaker.quota + n + (s.mgmt.blkQuota + 1) + s.feedback = _
      omega
  | recordNewTxn txn =>
    obtain ⟨r, hr, hstep⟩ := bind_eq_ok.mp hstep
    rw [← Except.ok.inj hstep]
    obtain ⟨hquota, hcounter⟩ := recordNewTxn_quota hr
    exact h.manage hquota hcounter
  | prepareNewBlock =>
    obtain ⟨r, hr, hstep⟩ := bind_eq_ok.mp hstep
    rw [← Except.ok.inj hstep]
    obtain ⟨hquota, hcounter⟩ := prepareNewBlock_same hr
    exact h.manage hquota hcounter
  | getNewBlock =>
    obtain ⟨_, -, hstep⟩ := bind_eq_ok.mp hstep
    obtain ⟨r, hr, hstep⟩ := bind_eq_ok.mp hstep
    rw [← Except.ok.inj hstep]
    exact h.propose hr
  | validateBlock src block =>
    rw [Node.act] at hstep
    split at hstep
    · rw [← Except.ok.inj hstep]
      exact h
    · rename_i hsrc
      obtain ⟨v, hv, hstep⟩ := bind_eq_ok.mp hstep
      rw [← Except.ok.inj hstep]
      obtain ⟨hquota, hcounter⟩ := validateBlock_quota hv
      refine h.upstream ?_ rfl hcounter h.taken ?_
      · unfold Node.ownTransit Node.transit
        dsimp only
        split
        · rfl
        · rw [← List.append_assoc, List.filter_append]
          simp [hsrc]
      · dsimp only
        rw [hquota]
        rfl
  | disseminate =>
    rw [Node.act] at hstep
    split at hstep
    · exact absurd hstep (by simp)
    · rename_i src tail rest hnew
      rw [← Except.ok.inj hstep]
      exact h.upstream (h.ownTransit_disseminate hnew) rfl rfl h.taken rfl
  | newTail =>
    rw [Node.act] at hstep
    split at hstep
    · exact absurd hstep (by simp)
    · rename_i src tail rest hready
      obtain ⟨r, hr, hstep⟩ := bind_eq_ok.mp hstep
      rw [← Except.ok.inj hstep]
      by_cases hsrc : src = cfg.self
      · subst hsrc
        obtain ⟨blk, hblk⟩ := h.single (cfg.self, tail)
          (List.mem_filter.mpr ⟨by simp [Node.transit, hready], by simp⟩)
        dsimp only at hblk
        subst hblk
        exact h.arrive hready hr
      · refine h.traded (traded_newTail hsrc hr) ?_ rfl rfl rfl rfl
        unfold Node.ownTransit Node.transit
        simp [hready, hsrc]
  | peerMsg src content =>
    obtain ⟨d, hd, hstep⟩ := bind_eq_ok.mp hstep
    rw [← Except.ok.inj hstep]
    exact h.traded (traded_handlePeerMsg hd) rfl rfl rfl rfl rfl
  | timeout =>
    obtain ⟨d, hd, hstep⟩ := bind_eq_ok.mp hstep
    rw [← Except.ok.inj hstep]
    exact h.traded (traded_handleTimeout hd) rfl rfl rfl rfl rfl
  | commit =>
    obtain ⟨r, hr, hstep⟩ := bind_eq_ok.mp hstep
    rw [← Except.ok.inj hstep]
    exact h.traded (traded_nextToCommit hr) rfl rfl rfl rfl rfl

theorem quotaInv_new (cfg : Config C) (maxInflightBlk : Nat) :
    QuotaInv cfg maxInflightBlk (.new C maxInflightBlk) := by
  have hpending : (Node.new C maxInflightBlk).decision.pending = ∅ :=
    Set.eq_empty_of_forall_notMem fun id hid => by
      have hid : ((Node.new C maxInflightBlk).decision.queryPool id).isSome := hid
      exact absurd hid (by simp [Node.new, Decision.new])
  have hown : (Node.new C maxInflightBlk).ownTransit cfg = [] := rfl
  refine ⟨?_, Nat.le_refl _, ?_, ?_, ?_, ?_, ?_⟩
  · unfold Node.quotas
    rw [hown, hpending, Set.ncard_empty]
    rfl
  · rw [hpending]
    exact Set.finite_empty
  · rw [hown]
    exact fun m hm => absurd hm (by simp)
  · rw [hown]
    exact List.Pairwise.nil
  · rw [hown]
    exact fun m hm => absurd hm (by simp)
  · rw [hpending]
    exact fun id hid => absurd hid (Set.notMem_empty id)

/-- **The in-flight quota is conserved.** In every run of a node, with any voting
rule: the quota of the pacemaker, the propose messages in transit, the quota of
the block management, the own blocks in transit to the decision stage, the open
queries and the feedback messages in transit are together `max_inflight_blk`. So
at most that many own blocks are undecided, and neither subtraction is made at
zero. -/
theorem quota_conserved (ids : UniqueIds) (cfg : Config C) (blkLen maxInflightBlk : Nat)
    {tr : List Node.Act} {s : Node C}
    (h : (node ids cfg blkLen maxInflightBlk).Run (fun _ _ => True) tr s) :
    s.decision.pending.Finite ∧
    s.pmaker.quota + s.shouldPropose + s.mgmt.blkQuota + (s.ownTransit cfg).length +
      s.decision.pending.ncard + s.feedback = maxInflightBlk ∧
    (s.ownTransit cfg).length + s.decision.pending.ncard ≤ maxInflightBlk ∧
    (s.pmaker.waitToPropose >>= fun _ => s.pmaker.getProposeMsg) ≠ .error .panic ∧
    (s.mgmt.waitToPropose = .ok () → 0 < s.mgmt.blkQuota) := by
  have hinv : QuotaInv cfg maxInflightBlk s :=
    h.invariant (QuotaInv cfg maxInflightBlk) (quotaInv_new cfg maxInflightBlk)
      fun _ _ _ hs _ hstep => step_quota hs hstep
  have hsum := hinv.sum
  unfold Node.quotas at hsum
  refine ⟨hinv.finite, hsum, by omega, ?_, fun hwait => ?_⟩
  · unfold FixedInflightBlkPaceMaker.waitToPropose FixedInflightBlkPaceMaker.getProposeMsg
    by_cases hquota : s.pmaker.quota = 0
    · simp [hquota, bind, Except.bind]
    · simp [hquota, bind, Except.bind]
  · unfold BlockManagement.waitToPropose at hwait
    split at hwait
    · exact absurd hwait (by simp)
    · omega

/-- Turns that return are a run. -/
theorem run_turns {ids : UniqueIds} {blkLen maxInflightBlk fuel : Nat} {acts : List Node.Act}
    {s : Node C} (h : acts.foldlM (Node.act ids cfg blkLen .sorted fuel 0)
      (.new C maxInflightBlk) = .ok s) :
    (node ids cfg blkLen maxInflightBlk).Run (fun _ _ => True) acts s :=
  foldlM_prefix (fun done s => (node ids cfg blkLen maxInflightBlk).Run (fun _ _ => True) done s)
    (fun _ _ _ _ hrun hstep => .snoc hrun trivial ⟨.sorted, fuel, 0, hstep⟩) .nil h

def quotaConfig : Config Streak :=
  { demoThree avalancheRule with ids := UniqueIds.coded.toTxnIds }

def quotaTurns : List Node.Act :=
  [.getProposeMsg, .handlePmakerMsg, .recordNewTxn orderedGrant, .prepareNewBlock, .getNewBlock,
    .disseminate, .newTail, .peerMsg 1 (some ⟨0, [true], []⟩)]

/-- Of two units, one goes into a block that waits for the votes of peers. -/
theorem quota_conserved_demo : ∃ s : Node Streak,
    (node .coded quotaConfig 1 2).Run (fun _ _ => True) quotaTurns s ∧
    s.pmaker.quota = 1 ∧ s.decision.pending.ncard = 1 := by
  have hturns : returns (quotaTurns.foldlM (Node.act .coded quotaConfig 1 .sorted 20 0)
      (.new Streak 2))
      (fun s => s.pmaker.quota = 1 ∧ s.shouldPropose = 0 ∧ s.mgmt.blkQuota = 0 ∧
        s.blockReady = [] ∧ s.newBlock = [] ∧ s.feedback = 0) = true := by decide +kernel
  obtain ⟨s, hs, hcheck⟩ := returns_iff.mp hturns
  obtain ⟨hquota, hpropose, hblk, hready, hnew, hfeedback⟩ := of_decide_eq_true hcheck
  have hrun := run_turns hs
  have hown : s.ownTransit quotaConfig = [] := by
    unfold Node.ownTransit Node.transit
    rw [hready, hnew]
    rfl
  obtain ⟨-, hsum, -⟩ := quota_conserved _ _ _ _ hrun
  rw [hown, hquota, hpropose, hblk, hfeedback] at hsum
  refine ⟨s, hrun, hquota, ?_⟩
  rw [List.length_nil] at hsum
  omega

end Copycat.Avalanche
