import Copycat.Voting.Replica

/-!
# Queries and ballots of a node

The decision stage takes up each query once, its own or a peer's, and votes on what was
proposed, with placeholders where the node has rejected a transaction (`queries_once`,
`run_votes`). What it counts for its own queries are its own vote and the votes that
came in messages (`run_ballots`).

For this it has to be known that the blocks of peers are their own ones, which is proved
of the network.
-/

namespace Copycat.Voting

open Copycat.Lib
open Avalanche (Ballots Call PollRun VoteMsg addBallot answers castBallot castBallot_cases)
open Thread (Filled emits ownBlocks)

variable {C : Type} {c : Cluster C} {n : NodeId} {acts : List Act} {r r' : Replica C}
  {G : Replica C → Act → Prop}

/-! ## What is taken up -/

/-- The blocks that the decision stage has taken up. -/
def queries (acts : List Act) : List Avalanche.Block := (tails acts).flatMap Prod.snd

/-- The block thread hands on its own blocks and the ones that come out of validation. -/
theorem newBlocks_perm (n : NodeId) (evs : List BlockEvent) :
    ((evs.flatMap (newBlocks n)).flatMap Prod.snd).Perm (ownBlocks evs ++ emits evs) := by
  induction evs with
  | nil => exact List.Perm.refl _
  | cons e evs ih =>
    have hsplit : (((e :: evs).flatMap (newBlocks n)).flatMap Prod.snd) =
        (newBlocks n e).flatMap Prod.snd ++ (evs.flatMap (newBlocks n)).flatMap Prod.snd := by
      rw [List.flatMap_cons, List.flatMap_append]
    rw [hsplit]
    cases e with
    | propose blk => exact ih.cons blk
    | validate src blk newTail =>
      have hnew : (newBlocks n (.validate src blk newTail)).flatMap Prod.snd = newTail := by
        cases newTail with
        | nil => rfl
        | cons => simp [newBlocks]
      rw [hnew]
      refine (ih.append_left newTail).trans ?_
      show (newTail ++ (ownBlocks evs ++ emits evs)).Perm (ownBlocks evs ++ (newTail ++ emits evs))
      rw [← List.append_assoc, ← List.append_assoc]
      exact List.perm_append_comm.append_right _
    | _ => exact ih

/-- Queries come from the blocks the first thread passes on, in their order. -/
theorem queries_sublist (h : ((voting c).node n).Run G acts r) :
    (queries acts).Sublist (((events acts).flatMap (newBlocks n)).flatMap Prod.snd) := by
  refine List.Sublist.flatMap (List.Sublist.trans ?_ (run_pipes h)) _
  rw [List.append_assoc]
  exact List.sublist_append_left ..

/-- The blocks of peers are their own ones. -/
def OwnSent (acts : List Act) : Prop :=
  ∀ src blk, .peerBlk src blk ∈ events acts → blk.proposer = src

/-- A block that comes out of validation has come from a peer, who made it. -/
theorem emits_peer (h : ((voting c).node n).Run G acts r) (hown : OwnSent acts)
    {out : Avalanche.Block} (hout : out ∈ emits (events acts)) :
    out.proposer ≠ n ∧ out.depth = 0 ∧ ∃ txns,
      .peerBlk out.proposer ⟨out.proposer, out.id, 0, txns⟩ ∈ events acts ∧
      Filled txns out.txns := by
  have hans : out ∈ answers out.proposer out.id (emits (events acts)) :=
    List.mem_filter.mpr ⟨hout, by simp⟩
  obtain ⟨-, hall⟩ := Thread.answered_once c.ids (c.stage n) (run_blocks h) out.proposer out.id
  obtain ⟨hdepth, src, txns, hne, hpeer, hfilled⟩ := hall out hans
  have hsrc : out.proposer = src := hown src ⟨out.proposer, out.id, 0, txns⟩ hpeer
  refine ⟨fun he => hne (hsrc.symm.trans he), hdepth, txns, ?_, hfilled⟩
  rw [← hsrc] at hpeer
  exact hpeer

/-- What a node makes has its own name and depth zero. -/
theorem own_made (h : ((voting c).node n).Run G acts r) {blk : Avalanche.Block}
    (hblk : blk ∈ ownBlocks (events acts)) : blk.proposer = n ∧ blk.depth = 0 := by
  obtain ⟨hproposer, hdepth, -⟩ := (Thread.run_ownInv (run_blocks h)).made blk hblk
  exact ⟨hproposer, hdepth⟩

/-- A query is about an own block or one that was handed over. -/
theorem query_cases (h : ((voting c).node n).Run G acts r) {blk : Avalanche.Block}
    (hblk : blk ∈ queries acts) :
    blk ∈ ownBlocks (events acts) ∨ blk ∈ emits (events acts) := by
  have hmem := (newBlocks_perm n (events acts)).mem_iff.mp ((queries_sublist h).subset hblk)
  exact List.mem_append.mp hmem

/-- **Each query is taken up once.** -/
theorem queries_once (h : ((voting c).node n).Run G acts r) (hown : OwnSent acts)
    (proposer blkId : Nat) : (answers proposer blkId (queries acts)).length ≤ 1 := by
  have hle : (answers proposer blkId (queries acts)).length ≤
      (answers proposer blkId (ownBlocks (events acts))).length +
        (answers proposer blkId (emits (events acts))).length := by
    refine ((queries_sublist h).filter _).length_le.trans (le_of_eq ?_)
    rw [((newBlocks_perm n (events acts)).filter _).length_eq, List.filter_append,
      List.length_append]
    rfl
  have hnil : ∀ l : List Avalanche.Block, (∀ blk ∈ l, blk.proposer ≠ proposer) →
      (answers proposer blkId l).length = 0 := by
    intro l hl
    rw [List.length_eq_zero_iff]
    exact List.filter_eq_nil_iff.mpr fun blk hblk he => hl blk hblk (of_decide_eq_true he).1
  by_cases hproposer : proposer = n
  · have hemits := hnil (emits (events acts)) fun blk hblk he =>
      (emits_peer h hown hblk).1 (he.trans hproposer)
    have hids : ((answers proposer blkId (ownBlocks (events acts))).map Avalanche.Block.id).Nodup :=
      (Thread.run_ownInv (run_blocks h)).nodup.sublist (List.filter_sublist.map _)
    have hone : (answers proposer blkId (ownBlocks (events acts))).map Avalanche.Block.id =
        List.replicate (answers proposer blkId (ownBlocks (events acts))).length blkId := by
      refine List.eq_replicate_iff.mpr ⟨List.length_map .., fun x hx => ?_⟩
      obtain ⟨blk, hblk, rfl⟩ := List.mem_map.mp hx
      exact (of_decide_eq_true (List.mem_filter.mp hblk).2).2
    rw [hone, List.nodup_replicate] at hids
    omega
  · have howns := hnil (ownBlocks (events acts)) fun blk hblk he =>
      hproposer (he.symm.trans (own_made h hblk).1)
    have hemits := (Thread.answered_once c.ids (c.stage n) (run_blocks h) proposer blkId).1
    omega

/-! ## Votes -/

/-- The stage takes up tails of a single block, and its yes is for a transaction. -/
theorem run_votes (h : ((voting c).node n).Run G acts r) {src : NodeId}
    {blk : Avalanche.Block} {votes : List Bool}
    (hmem : .decide (.newTail src [blk]) votes ∈ acts) :
    src = blk.proposer ∧
      ∀ i : Nat, votes[i]? = some true → ∃ t, blk.txns[i]? = some t ∧ t ≠ .placeHolder := by
  obtain ⟨r₁, r₂, out, hturn⟩ := h.mem_step hmem
  cases hturn with
  | newTail _ hown hs =>
    obtain ⟨fuel, b, hb, rfl⟩ := hown src blk rfl
    obtain ⟨hnil, -⟩ | ⟨blk', -, htail, -, hsrc, -⟩ := Avalanche.newTail_cases hs
    · exact absurd hnil (by simp)
    · obtain ⟨rfl, -⟩ := List.cons.inj htail
      exact ⟨hsrc, (Avalanche.newTxns_slots hb).2.2⟩
  | inner hinner _ => exact hinner.elim

/-- Where a ballot comes from: it is the own vote, or it came in a message. -/
def Cast (n : NodeId) (acts : List Act) (round : Nat) (b : NodeId × List Bool) : Prop :=
  (b.1 = n ∧ ∃ blk : Avalanche.Block, .decide (.newTail n [blk]) b.2 ∈ acts ∧
    blk.proposer = n ∧ blk.id = round) ∨
  ∃ msg : VoteMsg, .decide (.peerMsg b.1 (some msg)) [] ∈ acts ∧ msg.round = round ∧
    msg.votes = b.2

theorem Cast.mono {round : Nat} {b : NodeId × List Bool} (h : Cast n acts round b) (a : Act) :
    Cast n (acts ++ [a]) round b := by
  rcases h with ⟨hn, blk, hmem, hblk⟩ | ⟨msg, hmem, hmsg⟩
  · exact Or.inl ⟨hn, blk, List.mem_append_left _ hmem, hblk⟩
  · exact Or.inr ⟨msg, List.mem_append_left _ hmem, hmsg⟩

theorem mem_addBallot {ballots : Ballots} {x : Option (Nat × NodeId × List Bool)} {round : Nat}
    {b : NodeId × List Bool} (h : b ∈ addBallot ballots x round) :
    b ∈ ballots round ∨ x = some (round, b) := by
  cases x with
  | none => exact Or.inl h
  | some x =>
    obtain ⟨round', b'⟩ := x
    have h : b ∈ Function.update ballots round' (ballots round' ++ [b']) round := h
    by_cases hr : round = round'
    · subst hr
      rw [Function.update_self] at h
      rcases List.mem_append.mp h with h | h
      · exact Or.inl h
      · exact Or.inr (by rw [List.mem_singleton.mp h])
    · rw [Function.update_of_ne hr] at h
      exact Or.inl h

/-- **What is counted.** The votes beside the decision stage are the own votes, and those
of the messages. -/
theorem run_ballots (h : ((voting c).node n).Run G acts r) :
    ∃ ballots, PollRun (c.config n) (calls acts) r.decision ballots ∧
      ∀ round, ∀ b ∈ ballots round, Cast n acts round b := by
  refine h.invariant_trace (fun acts r => ∃ ballots,
    PollRun (c.config n) (calls acts) r.decision ballots ∧
      ∀ round, ∀ b ∈ ballots round, Cast n acts round b) ?_ ?_
  · exact ⟨_, .nil, fun _ _ hb => absurd hb List.not_mem_nil⟩
  intro acts r a r' ih _ hstep
  obtain ⟨ballots, hrun, hcast⟩ := ih
  have hold : ∀ round, ∀ b ∈ ballots round, Cast n (acts ++ [a]) round b :=
    fun round b hb => (hcast round b hb).mono a
  have hself := c.self_config n
  obtain ⟨out, hturn⟩ := hstep
  unfold calls at hrun ⊢
  rw [List.filterMap_append]
  cases hturn with
  | blocks => exact ⟨ballots, by simpa using hrun, hold⟩
  | answer => exact ⟨ballots, by simpa using hrun, hold⟩
  | disseminate => exact ⟨ballots, by simpa using hrun, hold⟩
  | @newTail _ _ src tail _ votes d _ _ hown hs =>
    refine ⟨_, hrun.snoc trivial ⟨.newTail hs, votes, hown, rfl⟩, fun round b hb => ?_⟩
    rcases mem_addBallot hb with hb | hb
    · exact hold round b hb
    rcases castBallot_cases hb with ⟨_, blk, he, hblk, rfl, rfl⟩ | ⟨_, _, he, -⟩
    · obtain ⟨rfl, rfl⟩ := Call.newTail.inj he
      have hn : blk.proposer = n := hblk.trans hself
      obtain ⟨hnil, -⟩ | ⟨blk', -, htail, -, hsrc, -⟩ := Avalanche.newTail_cases hs
      · exact absurd hnil (by simp)
      · obtain ⟨rfl, -⟩ := List.cons.inj htail
        refine Or.inl ⟨hself, blk, ?_, hn, rfl⟩
        rw [← hsrc.trans hn]
        simp
    · exact absurd he (by simp)
  | @peerMsg _ src msg _ hs =>
    refine ⟨_, hrun.snoc trivial ⟨.peerMsg hs, [], fun _ _ he => by simp at he, rfl⟩,
      fun round b hb => ?_⟩
    rcases mem_addBallot hb with hb | hb
    · exact hold round b hb
    rcases castBallot_cases hb with ⟨_, _, he, -⟩ | ⟨_, msg', he, -, rfl, rfl⟩
    · exact absurd he (by simp)
    · obtain ⟨rfl, hmsg⟩ := Call.peerMsg.inj he
      rw [← Option.some.inj hmsg]
      exact Or.inr ⟨msg, by simp, rfl, rfl⟩
  | @inner call _ hinner hs =>
    have hcall : ∀ src blk, call ≠ .newTail src [blk] := fun src blk he => by
      subst he
      exact hinner.elim
    have hnone : castBallot (c.config n) r.decision [] call = none := by
      cases call with
      | timeout => rfl
      | commit => rfl
      | newTail => exact hinner.elim
      | peerMsg => exact hinner.elim
    refine ⟨_, hrun.snoc trivial ⟨hs, [], fun src blk he => absurd he (hcall src blk), rfl⟩, ?_⟩
    rw [hnone]
    exact hold

end Copycat.Voting
