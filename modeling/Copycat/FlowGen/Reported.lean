import Copycat.Bitcoin.Decision
import Copycat.FlowGen.Totals

/-!
# Statistics that follow the main chain

A node's two stages, `Pipeline`, with the generator that its commits are reported
to. The commits are on their way for a while, each with a snapshot of the main
chain the decision stage was at when `next_to_commit` returned it; other nodes
report in between.

A reorganisation may go back behind what is committed. The decision stage then
starts again from the branch point, so the next height is at most one more than the
last (`newTail_front`), and the generator drops what it had from there on.
`Ahead` says that what the generator will have counted, when everything on its way
has arrived, agrees with the main chain up to the next block to commit;
`reported_commits` is the result.
-/

namespace Copycat.FlowGen

open Copycat.Lib
open Copycat.Bitcoin

/-- A node, the commits on their way, and the generator. -/
structure Reporting where
  pipeline : Pipeline
  outputs : List (Nat × List BitcoinTxn × BlockManagement)
  gen : BitcoinFlowGen

/-- What can happen: a call of one of the stages, the arrival of the next commit, or
a commit of another node. -/
inductive ReportingCall where
  | stage (c : PipelineCall)
  | arrive
  | other (c : Commit)

/-- The commit a call of the pipeline puts out, with the main chain the decision
stage is at. -/
def putsOut (p : Pipeline) : PipelineCall → List (Nat × List BitcoinTxn × BlockManagement)
  | .manage _ | .deliver _ => []
  | .commit height txns => [(height, txns, p.asOf)]

inductive ReportingStep (cfg : Config) (commitLen : Nat) (node : NodeId) :
    Reporting → ReportingCall → Reporting → Prop
  | stage {r : Reporting} {c : PipelineCall} {p : Pipeline} :
      PipelineStep cfg commitLen r.pipeline c p →
      ReportingStep cfg commitLen node r (.stage c)
        { r with pipeline := p, outputs := r.outputs ++ putsOut r.pipeline c }
  | arrive {r : Reporting} {height : Nat} {txns : List BitcoinTxn} {s : BlockManagement}
      {rest : List (Nat × List BitcoinTxn × BlockManagement)} {gen : BitcoinFlowGen} :
      r.outputs = (height, txns, s) :: rest →
      r.gen.txnCommitted cfg.ids node txns height = .ok gen →
      ReportingStep cfg commitLen node r .arrive { r with outputs := rest, gen := gen }
  | other {r : Reporting} {c : Commit} {gen : BitcoinFlowGen} :
      c.node ≠ node → r.gen.txnCommitted cfg.ids c.node c.txns c.blkHeight = .ok gen →
      ReportingStep cfg commitLen node r (.other c) { r with gen := gen }

/-- The node and a generator it has reported nothing to. -/
def reportingNode (cfg : Config) (commitLen : Nat) (node : NodeId) (g₀ : BitcoinFlowGen) :
    Machine Reporting ReportingCall where
  start := ⟨(pipeline cfg commitLen).start, [], g₀⟩
  step := ReportingStep cfg commitLen node

/-- Mined ids are fresh. -/
def ReportingFresh (cfg : Config) (r : Reporting) (c : ReportingCall) : Prop :=
  ∀ c', c = .stage c' → PipelineFresh cfg r.pipeline c'

/-- What is counted is the main chain `M`, up to some height. -/
structure Tracks (info : ChainInfo) (M : List Block) : Prop where
  length : info.chainLength ≤ M.length
  keys : ∀ j, (info.txnCount j).isSome ↔ 1 ≤ j ∧ j ≤ info.chainLength
  counts : ∀ j b, j < info.chainLength → M[j]? = some b →
    info.txnCount (j + 1) = some b.txns.length

/-- The commits on their way are taken one by one, each leaving what is counted on
the main chain it was put out on, and lead to `e`. -/
def Arrives : ChainInfo → List (Nat × List BitcoinTxn × BlockManagement) → ChainInfo → Prop
  | info, [], e => info = e
  | info, (height, txns, s) :: rest, e => ∃ info₁ M,
    info.commit txns.length height = .ok info₁ ∧ PathTo s.blockPool s.chainTail M ∧
    Tracks info₁ M ∧ Arrives info₁ rest e

/-- What is counted agrees with the blocks `pre` that are committed and still on the
main chain. -/
structure Ahead (info : ChainInfo) (pre : List Block) : Prop where
  length : pre.length ≤ info.chainLength
  keys : ∀ j, (info.txnCount j).isSome ↔ 1 ≤ j ∧ j ≤ info.chainLength
  counts : ∀ j b, pre[j]? = some b → info.txnCount (j + 1) = some b.txns.length

theorem Arrives.snoc {height : Nat} {txns : List BitcoinTxn} {s : BlockManagement}
    {M : List Block} {e e₁ : ChainInfo} (hcommit : e.commit txns.length height = .ok e₁)
    (hM : PathTo s.blockPool s.chainTail M) (htracks : Tracks e₁ M) :
    ∀ {outputs : List (Nat × List BitcoinTxn × BlockManagement)} {info : ChainInfo},
      Arrives info outputs e → Arrives info (outputs ++ [(height, txns, s)]) e₁ := by
  intro outputs
  induction outputs with
  | nil =>
    intro info h
    obtain rfl : info = e := h
    exact ⟨e₁, M, hcommit, hM, htracks, rfl⟩
  | cons x outputs ih =>
    intro info h
    obtain ⟨info₁, M₁, h₁, hM₁, htracks₁, hrest⟩ := h
    exact ⟨info₁, M₁, h₁, hM₁, htracks₁, ih hrest⟩

/-- A reorganisation leaves fewer blocks to agree with. -/
theorem Ahead.initial {info : ChainInfo} {pre pre₁ : List Block} (h : Ahead info pre)
    (hpre : pre₁ <+: pre) : Ahead info pre₁ := by
  refine ⟨hpre.length_le.trans h.length, h.keys, fun j b hb => h.counts j b ?_⟩
  obtain ⟨rest, rfl⟩ := hpre
  obtain ⟨hlt, -⟩ := List.getElem?_eq_some_iff.mp hb
  rw [List.getElem?_append_left hlt]
  exact hb

/-- The heights counted after a commit at the first height that may differ. -/
theorem keys_of_committed {info info₁ : ChainInfo} {numTxns height : Nat}
    (hspec : ChainInfo.Committed info numTxns (height + 1) info₁)
    (hkeys : ∀ j, (info.txnCount j).isSome ↔ 1 ≤ j ∧ j ≤ info.chainLength) (j : Nat) :
    (info₁.txnCount j).isSome ↔ 1 ≤ j ∧ j ≤ info₁.chainLength := by
  have hle := hspec.le
  rw [hspec.chainLength, hspec.txnCount]
  by_cases hj : j = height + 1
  · rw [if_pos hj, hj]
    exact iff_of_true rfl ⟨Nat.le_add_left 1 height, le_rfl⟩
  · rw [if_neg hj]
    split
    · exact iff_of_false (by simp) (by omega)
    · rw [hkeys]
      omega

/-- The next block of the main chain is committed. -/
theorem Ahead.commit {info : ChainInfo} {pre : List Block} (h : Ahead info pre) (b : Block) :
    ∃ info₁, info.commit b.txns.length (pre.length + 1) = .ok info₁ ∧
      info₁.chainLength = pre.length + 1 ∧ Ahead info₁ (pre ++ [b]) := by
  have hle : pre.length + 1 ≤ info.chainLength + 1 := Nat.succ_le_succ h.length
  obtain ⟨info₁, h₁, hspec⟩ : ∃ info₁, info.commit b.txns.length (pre.length + 1) = .ok info₁ ∧
      ChainInfo.Committed info b.txns.length (pre.length + 1) info₁ := ChainInfo.commit_spec hle
  refine ⟨info₁, h₁, hspec.chainLength, ?_, keys_of_committed hspec h.keys, fun j b' hb' => ?_⟩
  · rw [hspec.chainLength]
    simp
  · by_cases hj : j < pre.length
    · rw [List.getElem?_append_left hj] at hb'
      rw [hspec.below (by omega)]
      exact h.counts j b' hb'
    · obtain ⟨hlt, -⟩ := List.getElem?_eq_some_iff.mp hb'
      rw [List.length_append, List.length_singleton] at hlt
      obtain rfl : j = pre.length := by omega
      rw [List.getElem?_concat_length, Option.some.injEq] at hb'
      rw [hspec.txnCount, if_pos rfl, hb']

/-- What is counted up to the end of `pre` is the main chain. -/
theorem Ahead.tracks {info : ChainInfo} {pre : List Block} (h : Ahead info pre)
    (hlen : info.chainLength = pre.length) (suf : List Block) : Tracks info (pre ++ suf) := by
  refine ⟨?_, h.keys, fun j b hj hb => h.counts j b ?_⟩
  · rw [hlen, List.length_append]
    exact Nat.le_add_right _ _
  · rw [List.getElem?_append_left (hlen ▸ hj)] at hb
    exact hb

/-! ## The invariant -/

variable {cfg : Config}

/-- The decision stage is at the main chain, of which `pre` is committed, and what is
on its way brings the generator there. -/
structure CommitsInv (cfg : Config) (node : NodeId) (r : Reporting) : Prop where
  pipe : PipelineInv cfg r.pipeline
  counted : ∀ other, (r.gen.info other).Counted
  front : ∃ pre suf e, PathTo r.pipeline.asOf.blockPool r.pipeline.asOf.chainTail (pre ++ suf) ∧
    Heighted cfg.ids r.pipeline.decision.blockPool (pre ++ suf) ∧
    r.pipeline.decision.chainTail = suf.map (fun b => cfg.ids.blkId b.header) ∧
    Arrives (r.gen.info node) r.outputs e ∧ Ahead e pre

/-- The next tail is delivered. -/
theorem CommitsInv.deliver {node : NodeId} {r : Reporting} (h : CommitsInv cfg node r)
    {newTail : List Block} {s : BlockManagement} {rest : List (List Block × BlockManagement)}
    (hch : r.pipeline.channel = (newTail, s) :: rest) {d : Decision}
    (hd : r.pipeline.decision.newTail cfg.ids newTail = .ok d) :
    ∃ pre suf e, PathTo s.blockPool s.chainTail (pre ++ suf) ∧
      Heighted cfg.ids d.blockPool (pre ++ suf) ∧
      d.chainTail = suf.map (fun b => cfg.ids.blkId b.header) ∧
      Arrives (r.gen.info node) r.outputs e ∧ Ahead e pre := by
  obtain ⟨M, N, hM, -, hfeed, -⟩ := h.pipe.follows
  obtain ⟨pre, suf, e, hpath, hpool, hdeque, harrives, hahead⟩ := h.front
  rw [hch] at hfeed
  obtain ⟨anc, old, rfl, hne, hk, hp, -⟩ := hfeed
  have hsame := hM.unique h.pipe.keyed hpath
  obtain ⟨a, ha, hlink⟩ := hp.linked hk
  obtain ⟨z, hz, hanc⟩ :=
    PathTo.linked (T := anc) hk (show PathTo s.blockPool a ([] ++ anc) from ha)
  rw [PathTo.nil_iff.mp hz] at hanc
  obtain ⟨d', pre', suf', hd', hpool', hM', hdeque', hpre, -⟩ :=
    newTail_front hne hanc hlink (hsame ▸ hpool) hsame hdeque
  rw [hd, Except.ok.injEq] at hd'
  subst hd'
  rw [hM'] at hp hpool'
  exact ⟨pre', suf', e, hp, hpool', hdeque', harrives, hahead.initial hpre⟩

theorem commitsInv_step {commitLen : Nat} {node : NodeId} {r r₁ : Reporting} {c : ReportingCall}
    (h : CommitsInv cfg node r) (hfresh : ReportingFresh cfg r c)
    (hstep : ReportingStep cfg commitLen node r c r₁) : CommitsInv cfg node r₁ := by
  cases hstep with
  | @stage c p hstep =>
    have hpipe := pipelineInv_step h.pipe (hfresh c rfl) hstep
    refine ⟨hpipe, h.counted, ?_⟩
    dsimp only
    cases hstep with
    | manage hmanage =>
      rw [putsOut, List.append_nil]
      exact h.front
    | deliver hch hd =>
      rw [putsOut, List.append_nil]
      exact h.deliver hch hd
    | @commit d height txns hready hcommit =>
      obtain ⟨pre, suf, e, hpath, hpool, hdeque, harrives, hahead⟩ := h.front
      cases suf with
      | nil =>
        rw [hdeque] at hready
        exact absurd hready (Nat.not_lt_zero _)
      | cons b suf =>
        obtain ⟨d', hd', hpool', hdeque'⟩ := nextToCommit_front hpool hdeque
        rw [hcommit, Except.ok.injEq, Prod.mk.injEq, Prod.mk.injEq] at hd'
        obtain ⟨rfl, rfl, rfl⟩ := hd'
        obtain ⟨e₁, he₁, hlen, hahead'⟩ := hahead.commit b
        have hsplit : pre ++ b :: suf = (pre ++ [b]) ++ suf := by simp
        rw [hsplit] at hpath hpool
        have htracks := hahead'.tracks (by rw [hlen]; simp) suf
        exact ⟨pre ++ [b], suf, e₁, hpath, hpool' ▸ hpool, hdeque',
          harrives.snoc he₁ hpath htracks, hahead'⟩
  | arrive hout hgen =>
    obtain ⟨pre, suf, e, hpath, hpool, hdeque, harrives, hahead⟩ := h.front
    refine ⟨h.pipe, BitcoinFlowGen.counted_txnCommitted hgen h.counted, pre, suf, e, hpath, hpool,
      hdeque, ?_, hahead⟩
    rw [hout] at harrives
    obtain ⟨info₁, M, hcommit, -, -, hrest⟩ := harrives
    have hinfo := (BitcoinFlowGen.txnCommitted_info hgen).1
    rw [hcommit, Except.ok.injEq] at hinfo
    exact hinfo ▸ hrest
  | other hne hgen =>
    obtain ⟨pre, suf, e, hpath, hpool, hdeque, harrives, hahead⟩ := h.front
    refine ⟨h.pipe, BitcoinFlowGen.counted_txnCommitted hgen h.counted, pre, suf, e, hpath, hpool,
      hdeque, ?_, hahead⟩
    rw [(BitcoinFlowGen.txnCommitted_spec hgen).2 node hne.symm]
    exact harrives

theorem commitsInv_run {commitLen : Nat} {node : NodeId} {g₀ : BitcoinFlowGen}
    (hnew : g₀.chainInfo = ∅) {tr : List ReportingCall} {r : Reporting}
    (h : (reportingNode cfg commitLen node g₀).Run (ReportingFresh cfg) tr r) :
    CommitsInv cfg node r := by
  refine h.invariant (CommitsInv cfg node) ?_ fun _ _ _ hinv hg hstep =>
    commitsInv_step hinv hg hstep
  refine ⟨pipelineInv_run (.nil : (pipeline cfg commitLen).Run _ [] _), counted_of_empty hnew,
    [], [], (g₀.info node), .genesis, ?_, rfl, rfl, Nat.zero_le _, fun j => ?_, ?_⟩
  · intro pre b suf he
    exact absurd he (by simp)
  · unfold BitcoinFlowGen.info
    rw [hnew, AList.lookup_empty]
    show (none : Option Nat).isSome ↔ 1 ≤ j ∧ j ≤ 0
    exact iff_of_false (by simp) (by omega)
  · intro j b hb
    exact absurd hb (by simp)

/-- **Committed statistics track the main chain.** In every reachable state the next
commit on its way passes the assertion of `txn_committed`. It leaves counts at
exactly the heights up to its own, and these are the numbers of transactions in the
blocks of the main chain that the decision stage was at when it put the commit out.
And `get_stats` returns. -/
theorem reported_commits (cfg : Config) (commitLen : Nat) (node : NodeId) {g₀ : BitcoinFlowGen}
    (hnew : g₀.chainInfo = ∅) {tr : List ReportingCall} {r : Reporting}
    (h : (reportingNode cfg commitLen node g₀).Run (ReportingFresh cfg) tr r) :
    (∀ height txns s rest, r.outputs = (height, txns, s) :: rest →
      ∃ gen M, r.gen.txnCommitted cfg.ids node txns height = .ok gen ∧
        (gen.info node).chainLength = height ∧ PathTo s.blockPool s.chainTail M ∧
        Tracks (gen.info node) M) ∧
    ∃ stats, r.gen.getStats = .ok stats := by
  have hinv := commitsInv_run hnew h
  constructor
  · intro height txns s rest hout
    obtain ⟨pre, suf, e, -, -, -, harrives, -⟩ := hinv.front
    rw [hout] at harrives
    obtain ⟨info₁, M, hcommit, hM, htracks, -⟩ := harrives
    obtain ⟨gen, hgen, hinfo⟩ := BitcoinFlowGen.txnCommitted_returns hcommit
    refine ⟨gen, M, hgen, ?_, hM, ?_⟩
    · rw [hinfo]
      exact (ChainInfo.committed_of_commit hcommit).chainLength
    · rw [hinfo]
      exact htracks
  · obtain ⟨stats, hstats, -⟩ := BitcoinFlowGen.getStats_spec hinv.counted
    exact ⟨stats, hstats⟩

/-! ## Evaluation -/

/-- The calls of the two stages. -/
def staged (tr : List ReportingCall) : List PipelineCall :=
  tr.filterMap fun
    | .stage c => some c
    | _ => none

/-- The pipeline runs by itself. -/
theorem staged_run {G : Reporting → ReportingCall → Prop} {commitLen : Nat} {node : NodeId}
    {g₀ : BitcoinFlowGen} {tr : List ReportingCall} {r : Reporting}
    (h : (reportingNode cfg commitLen node g₀).Run G tr r) :
    (pipeline cfg commitLen).Run (fun _ _ => True) (staged tr) r.pipeline := by
  refine h.project _ Reporting.pipeline rfl fun r c r' hstep => ?_
  cases hstep with
  | stage hs => exact Or.inr ⟨_, rfl, hs⟩
  | arrive => exact Or.inl ⟨rfl, rfl⟩
  | other => exact Or.inl ⟨rfl, rfl⟩

/-- The labels show whether the mined ids are fresh. -/
theorem reportingFresh_run {G : Reporting → ReportingCall → Prop} {commitLen : Nat}
    {node : NodeId} {g₀ : BitcoinFlowGen} {tr : List ReportingCall} {r : Reporting}
    (h : (reportingNode cfg commitLen node g₀).Run G tr r)
    (hmined : (managed (staged tr)).Pairwise (MinedAfter cfg.ids)) :
    (reportingNode cfg commitLen node g₀).Run (ReportingFresh cfg) tr r := by
  refine h.strengthen fun pre c suf r he hrun _ c' hc l hl => ?_
  have hsplit : managed (staged tr) =
      managed (staged pre) ++ l :: managed (staged suf) := by
    rw [he, hc, hl]
    unfold managed staged
    rw [List.filterMap_append, List.filterMap_append]
    rfl
  rw [hsplit, List.pairwise_append] at hmined
  exact freshId_of_labels (fresh_run (managed_run (staged_run hrun)) hmined.1) fun l' hl' =>
    hmined.2.2 l' hl' l (List.mem_cons_self ..)

/-- What is done next: a turn of the two stages, the arrival of the next commit, or a
commit of another node. -/
inductive ReportingTurn where
  | stage (turn : PipelineTurn)
  | arrive
  | other (c : Commit)

/-- A turn, taken. -/
def evalReporting (cfg : Config) (commitLen fuel : Nat) (node : NodeId) (r : Reporting) :
    ReportingTurn → Option (ReportingCall × Reporting)
  | .stage turn => (evalTurn cfg commitLen fuel r.pipeline turn).map fun (c, p) =>
      (.stage c, { r with pipeline := p, outputs := r.outputs ++ putsOut r.pipeline c })
  | .arrive =>
    match r.outputs with
    | [] => none
    | (height, txns, _) :: rest =>
      (r.gen.txnCommitted cfg.ids node txns height).toOption.map fun gen =>
        (.arrive, { r with outputs := rest, gen := gen })
  | .other c =>
    if c.node = node then none
    else (r.gen.txnCommitted cfg.ids c.node c.txns c.blkHeight).toOption.map fun gen =>
      (.other c, { r with gen := gen })

theorem evalReporting_step {commitLen fuel : Nat} {node : NodeId} {r r' : Reporting}
    {turn : ReportingTurn} {c : ReportingCall}
    (h : evalReporting cfg commitLen fuel node r turn = some (c, r')) :
    ReportingStep cfg commitLen node r c r' := by
  unfold evalReporting at h
  cases turn with
  | stage turn =>
    obtain ⟨⟨c, p⟩, hturn, h⟩ := Option.map_eq_some_iff.mp h
    obtain ⟨rfl, rfl⟩ := Prod.mk.inj h
    exact .stage (evalTurn_step hturn)
  | arrive =>
    dsimp only at h
    split at h
    · exact absurd h (by simp)
    · rename_i hout
      obtain ⟨gen, hgen, h⟩ := Option.map_eq_some_iff.mp h
      obtain ⟨rfl, rfl⟩ := Prod.mk.inj h
      exact .arrive hout (toOption_eq_some.mp hgen)
  | other c =>
    dsimp only at h
    split at h
    · exact absurd h (by simp)
    · rename_i hne
      obtain ⟨gen, hgen, h⟩ := Option.map_eq_some_iff.mp h
      obtain ⟨rfl, rfl⟩ := Prod.mk.inj h
      exact .other hne (toOption_eq_some.mp hgen)

/-- A node with `commit_len = 0` commits the block that it has mined, and then height
one again, with the first of two blocks of a peer. The generator has counted two
transactions there, and a commit of another node, when that arrives. -/
theorem reported_commits_demo :
    ∃ tr r, ∃ s : BlockManagement,
      (reportingNode demo 0 0 demoGen).Run (ReportingFresh demo) tr r ∧
      ((r.gen.info 0).chainLength = 1 ∧ (r.gen.info 0).txnCount 1 = some 2 ∧
        (r.gen.info 1).chainLength = 1) ∧
      (r.outputs.head?.map fun x => (x.1, x.2.1)) = some (1, [demoGrant]) ∧
      (∃ gen M, r.gen.txnCommitted demo.ids 0 [demoGrant] 1 = .ok gen ∧
          (gen.info 0).chainLength = 1 ∧ PathTo s.blockPool s.chainTail M ∧
          Tracks (gen.info 0) M) ∧
      ∃ stats, r.gen.getStats = .ok stats := by
  let turns : List ReportingTurn := [.stage (.call (.recordNewTxn demoGrant)),
    .stage (.call (.recordNewTxn demoPay)), .stage (.call (.prepareNewBlock 7)),
    .stage (.call .getNewBlock), .stage .deliver, .stage .commit, .arrive, .other demoAhead,
    .stage (.call (.validateBlock (demoPeer 0 [demoGrant]))),
    .stage (.call (.validateBlock (demoPeer 8650 [demoPay]))), .stage .deliver,
    .stage .commit, .stage .commit]
  obtain ⟨tr, r, hrun, hq⟩ := Machine.exists_run (M := reportingNode demo 0 0 demoGen)
    (evalReporting demo 0 5 0) (fun _ _ _ _ => evalReporting_step) (fun _ _ => true) turns
    (fun x => (managed (staged x.1)).Pairwise (MinedAfter demo.ids) ∧
      ((x.2.gen.info 0).chainLength = 1 ∧ (x.2.gen.info 0).txnCount 1 = some 2 ∧
        (x.2.gen.info 1).chainLength = 1) ∧
      (x.2.outputs.head?.map fun x => (x.1, x.2.1)) = some (1, [demoGrant]))
    (by decide +kernel)
  obtain ⟨hmined, hcounted, hnext⟩ := of_decide_eq_true hq
  have hfresh := reportingFresh_run hrun hmined
  obtain ⟨⟨height, txns, s⟩, hhead, he⟩ := Option.map_eq_some_iff.mp hnext
  obtain ⟨rfl, rfl⟩ := Prod.mk.inj he
  obtain ⟨rest, hout⟩ := List.head?_eq_some_iff.mp hhead
  obtain ⟨hcommits, hstats⟩ := reported_commits demo 0 0 rfl hfresh
  exact ⟨tr, r, s, hfresh, hcounted, hnext, hcommits 1 [demoGrant] s rest hout, hstats⟩

end Copycat.FlowGen
