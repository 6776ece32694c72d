import Copycat.Avalanche.Returns

/-!
# Voters and votes

What the numbers count that a query is decided by. `record_votes` keeps a
counter and a vector per round, and no trace of who has voted: a message whose
signature verifies is counted however often it comes, until the query is
decided. `polls` is the decision stage with a ghost beside it, the list of the
votes that were counted for each round and of who cast them. It changes nothing
(`polls_run`), and it is what `votes_received` and `accept_votes` are about
(`votes_counted`): the number of votes, which is the number of voters only if
nobody's vote came in twice. `replayed_vote` is a query that passes a threshold
of three with the votes of two nodes.
-/

namespace Copycat.Avalanche

open Copycat.Lib

variable {C : Type} {cfg : Config C}

/-! ## The ghost -/

/-- The votes counted for each round: who voted, and how. -/
abbrev Ballots := Nat → List (NodeId × List Bool)

/-- The vote that a call adds to a round: a peer's, if the message verifies and
the query is not finished, and the node's own, `ownVotes`, with its own
block. -/
def castBallot (cfg : Config C) (s : Decision C) (ownVotes : List Bool) :
    Call → Option (Nat × NodeId × List Bool)
  | .newTail _ [blk] =>
    if blk.proposer = cfg.self ∧ blk.id ∉ s.finishedQuery then some (blk.id, cfg.self, ownVotes)
    else none
  | .peerMsg src (some msg) =>
    if cfg.verify src (msg.round, msg.votes) msg.signature ∧ msg.round ∉ s.finishedQuery then
      some (msg.round, src, msg.votes)
    else none
  | _ => none

def addBallot (ballots : Ballots) : Option (Nat × NodeId × List Bool) → Ballots
  | none => ballots
  | some (id, voter, votes) => Function.update ballots id (ballots id ++ [(voter, votes)])

/-- What the node votes on the block that a call brings. -/
def OwnVotes (cfg : Config C) (s : Decision C) (call : Call) (ownVotes : List Bool) : Prop :=
  ∀ src blk, call = .newTail src [blk] → ∃ fuel b,
    blk.txns.foldlM (newTxn cfg fuel) ⟨s.toLedger, [], []⟩ = .ok b ∧ ownVotes = b.votes

/-- The stage, and beside it the votes it has counted. -/
def polls (cfg : Config C) : Machine (Decision C × Ballots) Call where
  start := (Decision.new C, fun _ => [])
  step p call p' := Step cfg p.1 call p'.1 ∧ ∃ ownVotes, OwnVotes cfg p.1 call ownVotes ∧
    p'.2 = addBallot p.2 (castBallot cfg p.1 ownVotes call)

/-- The runs of the stage with its ghost. -/
abbrev PollRun (cfg : Config C) (tr : List Call) (s : Decision C) (ballots : Ballots) : Prop :=
  (polls cfg).Run (fun _ _ => True) tr (s, ballots)

/-- The vote on a block does not depend on the fuel. -/
theorem newTxns_unique {fuel fuel' : Nat} {l : Ledger C} {txns : List AvalancheTxn} {b b' : Batch C}
    (h : txns.foldlM (newTxn cfg fuel) ⟨l, [], []⟩ = .ok b)
    (h' : txns.foldlM (newTxn cfg fuel') ⟨l, [], []⟩ = .ok b') : b = b' := by
  have hup : ∀ {f g : Nat} {r : Batch C}, f ≤ g →
      txns.foldlM (newTxn cfg f) ⟨l, [], []⟩ = .ok r →
      txns.foldlM (newTxn cfg g) ⟨l, [], []⟩ = .ok r :=
    fun hle => foldlM_mono fun _ _ _ hs => newTxn_mono hle hs
  rcases Nat.le_total fuel fuel' with hle | hle
  · have := (hup hle h).symm.trans h'
    rwa [Except.ok.injEq] at this
  · have := h.symm.trans (hup hle h')
    rwa [Except.ok.injEq] at this

theorem ownVotes_exist {s s' : Decision C} {call : Call} (hs : Step cfg s call s') :
    ∃ ownVotes, OwnVotes cfg s call ownVotes := by
  cases hs with
  | @newTail _ fuel now src tail reply hs =>
    obtain ⟨rfl, -⟩ | ⟨blk, b, rfl, -, -, hb, -⟩ := newTail_cases hs
    · exact ⟨[], fun src' blk' he => by simp at he⟩
    · refine ⟨b.votes, fun src' blk' he => ?_⟩
      rw [Call.newTail.injEq, List.cons.injEq] at he
      obtain ⟨-, rfl, -⟩ := he
      exact ⟨fuel, b, hb, rfl⟩
  | peerMsg => exact ⟨[], fun src' blk' he => by simp at he⟩
  | timeout => exact ⟨[], fun src' blk' he => by simp at he⟩
  | commit => exact ⟨[], fun src' blk' he => by simp at he⟩

/-- The ghost changes nothing. -/
theorem polls_run {tr : List Call} {s : Decision C} :
    Run cfg tr s ↔ ∃ ballots, PollRun cfg tr s ballots := by
  constructor
  · intro h
    induction h with
    | nil => exact ⟨fun _ => [], .nil⟩
    | snoc _ _ hs ih =>
      obtain ⟨ballots, ih⟩ := ih
      obtain ⟨ownVotes, hown⟩ := ownVotes_exist hs
      exact ⟨_, .snoc ih trivial ⟨hs, ownVotes, hown, rfl⟩⟩
  · intro h
    obtain ⟨ballots, h⟩ := h
    refine h.invariant_trace (fun tr p => Run cfg tr p.1) .nil ?_
    intro tr p call p' hrun _ hs
    exact .snoc hrun trivial hs.1

/-! ## What a call does to the votes -/

/-- The entries of `votes` after a vote. -/
def votesAfter (votes : Nat → Option (Nat × List Nat)) :
    Option (Nat × NodeId × List Bool) → Nat → Option (Nat × List Nat)
  | none => votes
  | some (id, _, vs) =>
    let entry := (votes id).getD (0, List.replicate vs.length 0)
    Function.update votes id (some (entry.1 + 1, addVotes entry.2 vs))

/-- The state in which `handle_votes` is called, or would have been: the vote
of the call has been counted, and nothing is finished yet. -/
structure Polled (s : Decision C) (ballot : Option (Nat × NodeId × List Bool))
    (s₀ : Decision C) : Prop where
  finished : s₀.finishedQuery = s.finishedQuery
  votes : s₀.votes = votesAfter s.votes ballot

/-- What can come of the state in which the votes are in. -/
def Resolves (cfg : Config C) (s₀ s' : Decision C) : Prop :=
  (s'.finishedQuery = s₀.finishedQuery ∧ s'.votes = s₀.votes) ∨
    ∃ fuel id l c, id ∉ s₀.finishedQuery ∧ handleVotes cfg fuel s₀ id = .ok s' ∧
      s' = finish s₀ id l c

theorem resolves_handleVotes {fuel id : Nat} {s₀ s' : Decision C} (hid : id ∉ s₀.finishedQuery)
    (h : handleVotes cfg fuel s₀ id = .ok s') : Resolves cfg s₀ s' := by
  rcases handleVotes_cases h with ⟨-, rfl⟩ | ⟨txns, n, acc, l, c, -, -, -, -, he⟩
  · exact Or.inl ⟨rfl, rfl⟩
  · exact Or.inr ⟨fuel, id, l, c, hid, h, he⟩

/-- `record_votes` for a round that is not finished. -/
theorem recordVotes_polled {fuel id : Nat} {voter : NodeId} {votes : List Bool}
    {s s₁ s' : Decision C} (hfin : s₁.finishedQuery = s.finishedQuery) (hv : s₁.votes = s.votes)
    (hid : id ∉ s.finishedQuery) (h : recordVotes cfg fuel s₁ id votes = .ok s') :
    ∃ s₀, Polled s (some (id, voter, votes)) s₀ ∧ Resolves cfg s₀ s' := by
  have hvoted : Polled s (some (id, voter, votes)) (voted s₁ id votes) := by
    refine ⟨hfin, ?_⟩
    show Function.update s₁.votes id _ = _
    rw [hv]
    rfl
  rcases recordVotes_cases h with ⟨hin, -⟩ | ⟨hnot, -, ⟨-, rfl⟩ | ⟨-, hh⟩⟩
  · rw [hfin] at hin
    exact absurd hin hid
  · exact ⟨_, hvoted, Or.inl ⟨rfl, rfl⟩⟩
  · exact ⟨_, hvoted, resolves_handleVotes hnot hh⟩

/-- **What a call does to the votes**: it counts its ballot, and then it may
decide one query. -/
theorem step_polled {s s' : Decision C} {call : Call} {ownVotes : List Bool}
    (hs : Step cfg s call s') (hown : OwnVotes cfg s call ownVotes) :
    ∃ s₀, Polled s (castBallot cfg s ownVotes call) s₀ ∧ Resolves cfg s₀ s' := by
  have hidle : Polled s none s := ⟨rfl, rfl⟩
  have hstay : Resolves cfg s s := Or.inl ⟨rfl, rfl⟩
  cases hs with
  | @newTail _ fuel now src tail reply hs =>
    obtain ⟨rfl, rfl, -⟩ | ⟨blk, b, rfl, -, -, hb, hs⟩ := newTail_cases hs
    · exact ⟨s', hidle, hstay⟩
    obtain ⟨fuel', b', hb', hvotes⟩ := hown src blk rfl
    have he := newTxns_unique hb hb'
    subst he
    rw [castBallot]
    obtain ⟨hself, hr, -⟩ | ⟨hself, rfl, -⟩ := hs
    · by_cases hfin : blk.id ∈ s.finishedQuery
      · rw [if_neg (fun hc => hc.2 hfin)]
        rcases recordVotes_cases hr with ⟨-, rfl⟩ | ⟨hnot, -⟩
        · exact ⟨s, hidle, Or.inl ⟨rfl, rfl⟩⟩
        · exact absurd hfin hnot
      · rw [if_pos ⟨hself, hfin⟩, hvotes]
        refine recordVotes_polled ?_ ?_ hfin hr
        · rfl
        · rfl
    · rw [if_neg (fun hc => hself hc.1)]
      exact ⟨s, hidle, Or.inl ⟨rfl, rfl⟩⟩
  | @peerMsg _ fuel src content hs =>
    obtain ⟨rfl, hidle'⟩ | ⟨msg, rfl, hfin, hver, hr⟩ := handlePeerMsg_cases hs
    · cases content with
      | none => exact ⟨s', hidle, hstay⟩
      | some msg =>
        rw [castBallot, if_neg fun hc => hc.2 (hidle' msg rfl hc.1)]
        exact ⟨s', hidle, hstay⟩
    · rw [castBallot, if_pos ⟨hver, hfin⟩]
      exact recordVotes_polled rfl rfl hfin hr
  | timeout hne hs =>
    obtain ⟨blkId, time, rest, -, hs⟩ := handleTimeout_cases hs
    refine ⟨{ s with voteTimeQueue := rest }, ⟨rfl, rfl⟩, ?_⟩
    obtain ⟨-, rfl⟩ | ⟨hfin, hv⟩ := hs
    · exact Or.inl ⟨rfl, rfl⟩
    · exact resolves_handleVotes hfin hv
  | commit hne hs =>
    obtain ⟨hashes, rest, -, -, rfl⟩ := nextToCommit_cases hs
    exact ⟨s, hidle, Or.inl ⟨rfl, rfl⟩⟩

/-! ## Counting -/

/-- The votes among `ballots` that say yes at index `i`. -/
def yesVotes (ballots : List (NodeId × List Bool)) (i : Nat) : List (NodeId × List Bool) :=
  ballots.filter fun ballot => decide (ballot.2[i]? = some true)

/-- An entry of `votes` counts the ballots of its round. -/
def Counts (entry : Option (Nat × List Nat)) (ballots : List (NodeId × List Bool)) : Prop :=
  match entry with
  | none => ballots = []
  | some (n, acc) => n = ballots.length ∧
    ∀ i v, acc[i]? = some v → v = (yesVotes ballots i).length

theorem addVotes_getElem {acc : List Nat} {votes : List Bool} {i v : Nat}
    (h : (addVotes acc votes)[i]? = some v) :
    ∃ n b, acc[i]? = some n ∧ votes[i]? = some b ∧ v = if b then n + 1 else n := by
  unfold addVotes at h
  rw [List.getElem?_zipWith] at h
  cases hn : acc[i]? with
  | none =>
    rw [hn] at h
    exact absurd h (by simp)
  | some n =>
    cases hb : votes[i]? with
    | none =>
      rw [hn, hb] at h
      exact absurd h (by simp)
    | some b =>
      rw [hn, hb] at h
      exact ⟨n, b, rfl, rfl, (Option.some.inj h).symm⟩

/-- One more ballot. -/
theorem Counts.vote {entry : Option (Nat × List Nat)} {ballots : List (NodeId × List Bool)}
    (h : Counts entry ballots) (voter : NodeId) (votes : List Bool) :
    Counts (some ((entry.getD (0, List.replicate votes.length 0)).1 + 1,
      addVotes (entry.getD (0, List.replicate votes.length 0)).2 votes))
      (ballots ++ [(voter, votes)]) := by
  -- what the entry counted so far, also if there was none
  have hold : (entry.getD (0, List.replicate votes.length 0)).1 = ballots.length ∧
      ∀ i n, (entry.getD (0, List.replicate votes.length 0)).2[i]? = some n →
        n = (yesVotes ballots i).length := by
    cases entry with
    | none =>
      have hnil : ballots = [] := h
      subst hnil
      refine ⟨rfl, fun i n hn => ?_⟩
      have hn : (List.replicate votes.length 0)[i]? = some n := hn
      rw [List.getElem?_replicate] at hn
      split at hn
      · exact (Option.some.inj hn).symm
      · exact absurd hn (by simp)
    | some entry => exact h
  refine ⟨?_, fun i v hv => ?_⟩
  · rw [hold.1, List.length_append]
    rfl
  · obtain ⟨n, b, hn, hb, rfl⟩ := addVotes_getElem hv
    rw [hold.2 i n hn]
    unfold yesVotes
    rw [List.filter_append, List.length_append]
    cases b with
    | true => simp [hb]
    | false => simp [hb]

/-- Who has voted in a round, as the calls say: the node itself with each own
block, and every peer whose message verifies. -/
def Call.voter (cfg : Config C) (id : Nat) : Call → Option NodeId
  | .newTail _ [blk] => if blk.proposer = cfg.self ∧ blk.id = id then some cfg.self else none
  | .peerMsg src (some msg) =>
    if cfg.verify src (msg.round, msg.votes) msg.signature ∧ msg.round = id then some src else none
  | _ => none

/-- The voters of a round, once for each of their votes. -/
def voters (cfg : Config C) (tr : List Call) (id : Nat) : List NodeId :=
  tr.filterMap (Call.voter cfg id)

theorem voters_snoc (tr : List Call) (call : Call) (id : Nat) :
    voters cfg (tr ++ [call]) id = voters cfg tr id ++ (call.voter cfg id).toList := by
  unfold voters
  rw [List.filterMap_append]
  cases h : call.voter cfg id <;> simp [h]

/-- A vote for a round that is not finished is counted. -/
theorem castBallot_voter (s : Decision C) (ownVotes : List Bool) (call : Call) {id : Nat}
    (hid : id ∉ s.finishedQuery) :
    (call.voter cfg id).toList =
      ((castBallot cfg s ownVotes call).toList.filter fun b => decide (b.1 = id)).map
        fun b => b.2.1 := by
  cases call with
  | newTail src tail =>
    match tail with
    | [] => rfl
    | [blk] =>
      rw [Call.voter, castBallot]
      by_cases hself : blk.proposer = cfg.self
      · by_cases hblk : blk.id = id
        · subst hblk
          simp [hself, hid]
        · by_cases hfin : blk.id ∈ s.finishedQuery
          · simp [hself, hblk, hfin]
          · simp [hself, hblk, hfin]
      · simp [hself]
    | _ :: _ :: _ => rfl
  | peerMsg src content =>
    cases content with
    | none => rfl
    | some msg =>
      rw [Call.voter, castBallot]
      by_cases hver : cfg.verify src (msg.round, msg.votes) msg.signature = true
      · by_cases hround : msg.round = id
        · subst hround
          simp [hver, hid]
        · by_cases hfin : msg.round ∈ s.finishedQuery
          · simp [hver, hround, hfin]
          · simp [hver, hround, hfin]
      · simp [hver]
  | timeout => rfl
  | commit => rfl

/-- The entry of a round that is not finished counts its ballots, and there is
one for each vote that came in. -/
def PollInv (cfg : Config C) (tr : List Call) (p : Decision C × Ballots) : Prop :=
  ∀ id ∉ p.1.finishedQuery, Counts (p.1.votes id) (p.2 id) ∧
    (p.2 id).map Prod.fst = voters cfg tr id

/-- The counters agree with the ballots when `handle_votes` is called. -/
theorem PollInv.polled {tr : List Call} {s s₀ : Decision C} {ballots : Ballots} {call : Call}
    {ownVotes : List Bool} (h : PollInv cfg tr (s, ballots))
    (hp : Polled s (castBallot cfg s ownVotes call) s₀) {id : Nat} (hid : id ∉ s.finishedQuery) :
    Counts (s₀.votes id) (addBallot ballots (castBallot cfg s ownVotes call) id) ∧
      (addBallot ballots (castBallot cfg s ownVotes call) id).map Prod.fst =
        voters cfg (tr ++ [call]) id := by
  obtain ⟨hcounts, hvoters⟩ := h id hid
  rw [hp.votes, voters_snoc, castBallot_voter s ownVotes call hid, ← hvoters]
  cases castBallot cfg s ownVotes call with
  | none => exact ⟨hcounts, by simp [addBallot]⟩
  | some ballot =>
    obtain ⟨round, voter, votes⟩ := ballot
    by_cases hround : id = round
    · subst hround
      refine ⟨?_, ?_⟩
      · show Counts (Function.update s.votes id _ id) (Function.update ballots id _ id)
        rw [Function.update_self, Function.update_self]
        exact hcounts.vote voter votes
      · simp [addBallot]
    · refine ⟨?_, ?_⟩
      · show Counts (Function.update s.votes round _ id) (Function.update ballots round _ id)
        rw [Function.update_of_ne hround, Function.update_of_ne hround]
        exact hcounts
      · simp [addBallot, hround, Ne.symm hround]

theorem pollInv_step {tr : List Call} {p p' : Decision C × Ballots} {call : Call}
    (h : PollInv cfg tr p) (hs : (polls cfg).step p call p') : PollInv cfg (tr ++ [call]) p' := by
  obtain ⟨s, ballots⟩ := p
  obtain ⟨s', ballots'⟩ := p'
  obtain ⟨hs, ownVotes, hown, hb⟩ := hs
  dsimp only at hs hown hb
  subst hb
  obtain ⟨s₀, hp, hres⟩ := step_polled hs hown
  intro id hid
  rcases hres with ⟨hfin, hv⟩ | ⟨fuel, round, l, c, -, -, rfl⟩
  · rw [show (s', addBallot ballots (castBallot cfg s ownVotes call)).1.votes = s₀.votes from hv]
    refine h.polled hp ?_
    rw [← hp.finished, ← hfin]
    exact hid
  · have hid : id ∉ insert round s₀.finishedQuery := hid
    rw [Finset.mem_insert, not_or, hp.finished] at hid
    have hvotes : (finish s₀ round l c).votes id = s₀.votes id := Function.update_of_ne hid.1 ..
    show Counts ((finish s₀ round l c).votes id) _ ∧ _
    rw [hvotes]
    exact h.polled hp hid.2

theorem pollInv_run {tr : List Call} {s : Decision C} {ballots : Ballots}
    (h : PollRun cfg tr s ballots) : PollInv cfg tr (s, ballots) := by
  refine h.invariant_trace (PollInv cfg) ?_ fun _ _ _ _ hinv _ hs => pollInv_step hinv hs
  intro id _
  exact ⟨rfl, rfl⟩

/-- **Votes.** When a query is decided, `votes_received` is the number of the
votes counted for its round, one for each that came in, and `accept_votes[i]`
the number of those that say yes at index `i`. These are numbers of voters just
if nobody's vote came in twice; a transaction then passes `vote_thresh` only
with that many nodes behind it. -/
theorem votes_counted {tr : List Call} {s s' : Decision C} {call : Call} {id : Nat}
    (h : Run cfg tr s) (hs : Step cfg s call s') (hopen : id ∉ s.finishedQuery)
    (hdone : id ∈ s'.finishedQuery) :
    ∃ ballots fuel s₀ n acc, PollRun cfg (tr ++ [call]) s' ballots ∧
      handleVotes cfg fuel s₀ id = .ok s' ∧ s₀.votes id = some (n, acc) ∧
      (ballots id).map Prod.fst = voters cfg (tr ++ [call]) id ∧
      n = (ballots id).length ∧
      (∀ i v, acc[i]? = some v → v = (yesVotes (ballots id) i).length) ∧
      (n = ((ballots id).map Prod.fst).toFinset.card ↔
        (voters cfg (tr ++ [call]) id).Nodup) ∧
      ((voters cfg (tr ++ [call]) id).Nodup → ∀ i v, acc[i]? = some v →
        v = ((yesVotes (ballots id) i).map Prod.fst).toFinset.card) := by
  obtain ⟨ballots, hrun⟩ := polls_run.mp h
  obtain ⟨ownVotes, hown⟩ := ownVotes_exist hs
  obtain ⟨s₀, hp, hres⟩ := step_polled hs hown
  have hrun' : PollRun cfg (tr ++ [call]) s'
      (addBallot ballots (castBallot cfg s ownVotes call)) :=
    .snoc hrun trivial ⟨hs, ownVotes, hown, rfl⟩
  obtain ⟨hcounts, hvoters⟩ := (pollInv_run hrun).polled hp hopen
  set after := addBallot ballots (castBallot cfg s ownVotes call)
  rcases hres with ⟨hfin, -⟩ | ⟨fuel, round, l, c, -, hv, he⟩
  · rw [hfin, hp.finished] at hdone
    exact absurd hdone hopen
  · have hround : id = round := by
      rw [he] at hdone
      have hdone : id ∈ insert round s₀.finishedQuery := hdone
      rw [Finset.mem_insert, hp.finished] at hdone
      exact hdone.resolve_right hopen
    subst hround
    obtain ⟨n, acc, hentry⟩ : ∃ n acc, s₀.votes id = some (n, acc) := by
      rcases handleVotes_cases hv with ⟨-, rfl⟩ | ⟨txns, n, acc, l', c', -, hentry, -⟩
      · rw [hp.finished] at hdone
        exact absurd hdone hopen
      · exact ⟨n, acc, hentry⟩
    rw [hentry] at hcounts
    obtain ⟨hn, hyes⟩ := hcounts
    refine ⟨after, fuel, s₀, n, acc, hrun', hv, hentry, hvoters, hn, hyes, ?_, ?_⟩
    · rw [← hvoters, hn, ← List.length_map (f := Prod.fst), eq_comm]
      exact Multiset.toFinset_card_eq_card_iff_nodup
        (m := (((after id).map Prod.fst : List NodeId) : Multiset NodeId))
    · intro hnd i v hi
      rw [← hvoters] at hnd
      have hsub : ((yesVotes (after id) i).map Prod.fst).Nodup :=
        hnd.sublist (List.filter_sublist.map Prod.fst)
      rw [List.toFinset_card_of_nodup hsub, List.length_map]
      exact hyes i v hi

/-- A node that waits for three votes, all of which have to be yes. -/
def demoThree (rule : VoteRule C) : Config C :=
  { demo rule 1 1 with k := 3, voteThresh := 3 }

/-- The two votes of a query from different peers. -/
theorem votes_counted_demo :
    ∃ s s', Run (demoThree avalancheRule) [demoBlock 1 [demoSend 1],
        .peerMsg 1 (some ⟨1, [true], []⟩)] s ∧
      Step (demoThree avalancheRule) s (.peerMsg 2 (some ⟨1, [false], []⟩)) s' ∧
      ∃ fuel s₀ n acc, handleVotes (demoThree avalancheRule) fuel s₀ 1 = .ok s' ∧
        s₀.votes 1 = some (n, acc) ∧ n = 3 := by
  have hcheck : returns (runCalls (demoThree avalancheRule) 20 [demoBlock 1 [demoSend 1],
      .peerMsg 1 (some ⟨1, [true], []⟩)]) (fun s => decide (1 ∉ s.finishedQuery) &&
        returns (runCall (demoThree avalancheRule) 20 s (.peerMsg 2 (some ⟨1, [false], []⟩)))
          (fun s' => decide (1 ∈ s'.finishedQuery))) = true := by
    decide +kernel
  obtain ⟨s, hs, hopen⟩ := returns_iff.mp hcheck
  rw [Bool.and_eq_true] at hopen
  obtain ⟨s', hs', hdone⟩ := returns_iff.mp hopen.2
  have hrun := run_of_runCalls hs
  have hstep := step_of_runCall hs'
  obtain ⟨ballots, fuel, s₀, n, acc, -, hv, hentry, hvoters, hn, -⟩ :=
    votes_counted hrun hstep (of_decide_eq_true hopen.1) (of_decide_eq_true hdone)
  refine ⟨s, s', hrun, hstep, fuel, s₀, n, acc, hv, hentry, ?_⟩
  rw [hn, ← List.length_map (f := Prod.fst), hvoters]
  rfl

/-- The vote of node `1` comes twice, and the query is decided with three
accepting votes, in Avalanche and in Blizzard: two nodes have voted. -/
def replayedVotes : List Call :=
  [demoBlock 1 [demoSend 1], demoVote 1, demoVote 1, .commit 1 [demoSend 1]]

theorem replayed_vote :
    (∃ s, Run (demoThree avalancheRule) replayedVotes s ∧ Op.ask (1, 0) 7 3 ∈ s.history ∧
      voters (demoThree avalancheRule) replayedVotes 1 = [0, 1, 1]) ∧
    (∃ s, Run (demoThree blizzardRule) replayedVotes s ∧ Op.ask (1, 0) 7 3 ∈ s.history ∧
      voters (demoThree blizzardRule) replayedVotes 1 = [0, 1, 1]) ∧
    (demoThree avalancheRule).voteThresh = 3 ∧ (demoThree blizzardRule).voteThresh = 3 ∧
    ([0, 1, 1] : List NodeId).toFinset.card = 2 := by
  have hava : returns (runCalls (demoThree avalancheRule) 20 replayedVotes)
      (fun s => decide (Op.ask (1, 0) 7 3 ∈ s.history)) = true := by
    decide +kernel
  have hbli : returns (runCalls (demoThree blizzardRule) 20 replayedVotes)
      (fun s => decide (Op.ask (1, 0) 7 3 ∈ s.history)) = true := by
    decide +kernel
  obtain ⟨s, hs, hask⟩ := returns_iff.mp hava
  obtain ⟨s', hs', hask'⟩ := returns_iff.mp hbli
  exact ⟨⟨s, run_of_runCalls hs, of_decide_eq_true hask, rfl⟩,
    ⟨s', run_of_runCalls hs', of_decide_eq_true hask', rfl⟩, rfl, rfl, rfl⟩

end Copycat.Avalanche
