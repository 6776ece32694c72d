import Copycat.Bitcoin.Decision
import Copycat.Lib.Confirmed

/-!
# What is committed is final

`next_to_commit` gives out the blocks of the main chain from the first one on, as
long as no tail that is delivered goes back behind what it has given out; when one
does, the deque runs empty, `new_tail` warns, and heights are committed again. The
rule of `commit_ready` is that `commit_len` blocks are above what is committed. So
where reorganisations replace no more than that many blocks (`Shallow`), the
commits are the beginning of the main chain, once each and in order
(`commits_final`), and nodes whose main chains part no deeper commit the same
transactions in the same order (`nodes_agree`).
-/

namespace Copycat.Bitcoin

open Copycat.Lib

variable {cfg : Config} {commitLen : Nat} {tr : List PipelineCall} {p p' : Pipeline}

/-- What `next_to_commit` has returned, in order. -/
def committedBy (tr : List PipelineCall) : List (Nat × List BitcoinTxn) :=
  tr.filterMap fun
    | .commit height txns => some (height, txns)
    | _ => none

/-- The blocks of a chain as they are committed. -/
def asCommits (blocks : List Block) : List (Nat × List BitcoinTxn) :=
  blocks.mapIdx fun i b => (i + 1, b.txns)

/-- Of the chain that the decision stage is at, a tail that is delivered replaces
no more than `commit_len` blocks. -/
def Shallow (commitLen : Nat) (p : Pipeline) (c : PipelineCall) : Prop :=
  ∀ blk rest M height, c = .deliver (blk :: rest) →
    PathTo p.asOf.blockPool p.asOf.chainTail M →
    p.decision.firstBlockHeight blk.prev = .ok height → M.length < height + commitLen

/-- The main chain of one state is shorter than that of another. -/
def Lower (s s' : BlockManagement) : Prop :=
  ∀ M M', PathTo s.blockPool s.chainTail M → PathTo s'.blockPool s'.chainTail M' →
    M.length < M'.length

/-- The states that tails were sent in, from the last one delivered on. -/
def Pipeline.snapshots (p : Pipeline) : List BlockManagement :=
  p.asOf :: p.channel.map Prod.snd

/-- The chains get longer from tail to tail. -/
structure Rising (p : Pipeline) : Prop where
  rising : p.snapshots.Pairwise Lower
  below : ∀ s ∈ p.snapshots, ∀ M N, PathTo s.blockPool s.chainTail M →
    PathTo p.management.blockPool p.management.chainTail N → M.length ≤ N.length

theorem Rising.manage (h : Rising p) (hinv : PipelineInv cfg p) {l : Label} {s' : BlockManagement}
    (hfresh : FreshId cfg p.management l) (hstep : Step cfg p.management l s') :
    Rising { p with
      management := s'
      channel := p.channel ++ if l.2 = [] then [] else [(l.2, s')] } := by
  obtain ⟨N, hN⟩ := hinv.chain.tail
  have hkeyed := (chainInv_step hinv.chain hfresh hstep).pools.keyed
  obtain ⟨hsame, hmove⟩ := step_path hinv.chain hfresh hstep hN
  by_cases hnil : l.2 = []
  · rw [if_pos hnil, List.append_nil]
    refine ⟨h.rising, fun s hs M N' hM hN' => ?_⟩
    rw [hN'.unique hkeyed (hsame hnil)]
    exact h.below s hs M N hM hN
  · obtain ⟨anc, old, hsplit, hnew, hlt⟩ := hmove hnil
    have hlonger : ∀ s ∈ p.snapshots, Lower s s' := by
      intro s hs M N' hM hN'
      have hle := h.below s hs M N hM hN
      rw [hN'.unique hkeyed hnew]
      rw [hsplit] at hle
      simp only [List.length_append] at hle ⊢
      omega
    have hsnapshots : (p.channel ++ [(l.2, s')]).map Prod.snd = p.channel.map Prod.snd ++ [s'] := by
      rw [List.map_append, List.map_singleton]
    rw [if_neg hnil]
    refine ⟨?_, fun s hs M N' hM hN' => ?_⟩
    · show (p.asOf :: (p.channel ++ [(l.2, s')]).map Prod.snd).Pairwise Lower
      rw [hsnapshots, ← List.cons_append, List.pairwise_append]
      refine ⟨h.rising, List.pairwise_singleton .., fun s hs s₁ hs₁ => ?_⟩
      exact List.mem_singleton.mp hs₁ ▸ hlonger s hs
    · have hs : s ∈ p.asOf :: (p.channel ++ [(l.2, s')]).map Prod.snd := hs
      rw [hsnapshots, ← List.cons_append] at hs
      rcases List.mem_append.mp hs with hs | hs
      · exact (hlonger s hs M N' hM hN').le
      · obtain rfl := List.mem_singleton.mp hs
        exact (hM.unique hkeyed hN').symm ▸ le_rfl

theorem Rising.deliver (h : Rising p) {newTail : List Block} {s : BlockManagement}
    {rest : List (List Block × BlockManagement)} (hch : p.channel = (newTail, s) :: rest)
    (d : Decision) : Rising { p with channel := rest, decision := d, asOf := s } := by
  have hsnapshots : p.snapshots = p.asOf :: s :: rest.map Prod.snd := by
    unfold Pipeline.snapshots
    rw [hch, List.map_cons]
  have hrising := h.rising
  rw [hsnapshots] at hrising
  exact ⟨hrising.of_cons, fun s' hs' => h.below s' (hsnapshots ▸ List.mem_cons_of_mem _ hs')⟩

theorem Rising.next (h : Rising p) {newTail : List Block} {s : BlockManagement}
    {rest : List (List Block × BlockManagement)} (hch : p.channel = (newTail, s) :: rest) :
    Lower p.asOf s := by
  have hrising := h.rising
  unfold Pipeline.snapshots at hrising
  rw [hch, List.map_cons] at hrising
  exact (List.pairwise_cons.mp hrising).1 s (List.mem_cons_self ..)

/-- What has been committed is `log`, a beginning of the chain that the decision
stage is at, and the rest of it waits. -/
structure FinalInv (cfg : Config) (commitLen : Nat) (tr : List PipelineCall) (p : Pipeline) :
    Prop where
  pipe : PipelineInv cfg p
  rising : Rising p
  front : ∃ log suf, PathTo p.asOf.blockPool p.asOf.chainTail (log ++ suf) ∧
    Heighted cfg.ids p.decision.blockPool (log ++ suf) ∧
    p.decision.chainTail = suf.map (fun b => cfg.ids.blkId b.header) ∧
    committedBy tr = asCommits log ∧ Confirmed commitLen log (log ++ suf)

theorem finalInv_new (cfg : Config) (commitLen : Nat) :
    FinalInv cfg commitLen [] (pipeline cfg commitLen).start where
  pipe := pipelineInv_run (.nil : (pipeline cfg commitLen).Run _ [] _)
  rising := by
    refine ⟨List.pairwise_singleton .., fun s hs M N hM hN => ?_⟩
    obtain rfl := List.mem_singleton.mp hs
    have hkeyed : Keyed cfg.ids BlockManagement.new.blockPool := chainInv_new.pools.keyed
    exact (hM.unique hkeyed hN).symm ▸ le_rfl
  front := by
    refine ⟨[], [], .genesis, fun pre b suf he => ?_, rfl, rfl, confirmed_nil ..⟩
    exact absurd he (by simp)

/-- A tail that replaces no more than `commit_len` blocks leaves alone what is
committed. -/
theorem FinalInv.deliver (h : FinalInv cfg commitLen tr p) {newTail : List Block}
    {s : BlockManagement} {rest : List (List Block × BlockManagement)}
    (hch : p.channel = (newTail, s) :: rest) {d : Decision}
    (hd : p.decision.newTail cfg.ids newTail = .ok d)
    (hshallow : Shallow commitLen p (.deliver newTail)) :
    FinalInv cfg commitLen (tr ++ [.deliver newTail])
      { p with channel := rest, decision := d, asOf := s } := by
  obtain ⟨d₀, hd₀, hpipe⟩ := h.pipe.deliver hch
  obtain rfl := Except.ok.inj (hd.symm.trans hd₀)
  refine ⟨hpipe, h.rising.deliver hch d, ?_⟩
  obtain ⟨M, N, hM, -, hfeed, -⟩ := h.pipe.follows
  obtain ⟨log, suf, hpath, hpool, hdeque, hlog, hconf⟩ := h.front
  rw [hch] at hfeed
  obtain ⟨anc, old, rfl, hne, hk, hp, -⟩ := hfeed
  have hsame := hM.unique h.pipe.keyed hpath
  obtain ⟨a, ha, hlink⟩ := hp.linked hk
  obtain ⟨z, hz, hanc⟩ :=
    PathTo.linked (T := anc) hk (show PathTo s.blockPool a ([] ++ anc) from ha)
  rw [PathTo.nil_iff.mp hz] at hanc
  have hold : old.length ≤ commitLen := by
    cases hlink with
    | nil => exact absurd rfl hne
    | @cons _ _ blk rest hprev _ =>
      have hheight := firstBlockHeight_eq (d := p.decision) hanc fun pre b q he =>
        hpool pre b (q ++ old) (by rw [← hsame, he]; simp)
      have hless := hshallow blk rest _ _ rfl hM (hprev ▸ hheight)
      rw [List.length_append] at hless
      omega
  have hlong : old.length ≤ newTail.length := by
    have hlower := h.rising.next hch _ _ hM hp
    simp only [List.length_append] at hlower
    omega
  rw [← hsame] at hconf
  obtain ⟨d', pre', suf', hd', hpool', hM', hdeque', -, hstay⟩ :=
    newTail_front hne hanc hlink (hsame ▸ hpool) hsame hdeque
  rw [hd, Except.ok.injEq] at hd'
  obtain rfl := hstay (hconf.start_of_le hold)
  refine ⟨pre', suf', hM' ▸ hp, hM' ▸ hd' ▸ hpool', hd' ▸ hdeque', ?_, ?_⟩
  · unfold committedBy at hlog ⊢
    rw [List.filterMap_append, hlog]
    exact List.append_nil _
  · rw [← hM']
    exact hconf.replace hold hlong

/-- A block with `commit_len` others above it is committed. -/
theorem FinalInv.commit (h : FinalInv cfg commitLen tr p) {d : Decision} {height : Nat}
    {txns : List BitcoinTxn} (hlen : commitLen < p.decision.chainTail.length)
    (hd : p.decision.nextToCommit = .ok (d, height, txns)) :
    FinalInv cfg commitLen (tr ++ [.commit height txns]) { p with decision := d } := by
  have hpipe : PipelineInv cfg { p with decision := d } :=
    pipelineInv_step h.pipe (fun l hl => absurd hl (by simp)) (.commit hlen hd)
  obtain ⟨log, suf, hpath, hpool, hdeque, hlog, -⟩ := h.front
  rw [hdeque, List.length_map] at hlen
  cases suf with
  | nil => exact absurd hlen (Nat.not_lt_zero _)
  | cons b suf =>
    obtain ⟨d', hd', hpool', hdeque'⟩ := nextToCommit_front hpool hdeque
    obtain ⟨rfl, hcommit⟩ := Prod.mk.inj (Except.ok.inj (hd.symm.trans hd'))
    obtain ⟨rfl, rfl⟩ := Prod.mk.inj hcommit
    have hassoc : log ++ b :: suf = (log ++ [b]) ++ suf := by simp
    refine ⟨hpipe, ⟨h.rising.rising, h.rising.below⟩, log ++ [b], suf, hassoc ▸ hpath, ?_, hdeque',
      ?_, ?_⟩
    · rw [← hassoc, hpool']
      exact hpool
    · unfold committedBy asCommits at hlog ⊢
      rw [List.filterMap_append, hlog, List.mapIdx_concat]
      rfl
    · rw [← hassoc]
      rw [List.length_cons] at hlen
      exact .append (Nat.lt_succ_iff.mp hlen)

theorem finalInv_run (h : (pipeline cfg commitLen).Run
    (fun p c => PipelineFresh cfg p c ∧ Shallow commitLen p c) tr p) :
    FinalInv cfg commitLen tr p := by
  refine h.invariant_trace (FinalInv cfg commitLen) (finalInv_new cfg commitLen) ?_
  intro tr p c p' ih hg hstep
  obtain ⟨hfresh, hshallow⟩ := hg
  cases hstep with
  | @manage l s' hs =>
    refine ⟨pipelineInv_step ih.pipe hfresh (@PipelineStep.manage cfg commitLen p l s' hs),
      ih.rising.manage ih.pipe (hfresh l rfl) hs, ?_⟩
    obtain ⟨log, suf, hpath, hpool, hdeque, hlog, hconf⟩ := ih.front
    refine ⟨log, suf, hpath, hpool, hdeque, ?_, hconf⟩
    unfold committedBy at hlog ⊢
    rw [List.filterMap_append, hlog]
    exact List.append_nil _
  | deliver hch hd => exact ih.deliver hch hd hshallow
  | commit hlen hd => exact ih.commit hlen hd

/-- **What is committed is final.** Where no reorganisation replaces more than
`commit_len` blocks, the node has committed the beginning of the main chain that
its decision stage is at, every block once, in order and at its height, with
`commit_len` blocks above the last; the deque holds the rest of the chain. -/
theorem commits_final (cfg : Config) (commitLen : Nat) {tr : List PipelineCall} {p : Pipeline}
    (h : (pipeline cfg commitLen).Run
      (fun p c => PipelineFresh cfg p c ∧ Shallow commitLen p c) tr p) :
    ∃ log suf, PathTo p.asOf.blockPool p.asOf.chainTail (log ++ suf) ∧
      committedBy tr = asCommits log ∧ (log ≠ [] → commitLen ≤ suf.length) ∧
      p.decision.chainTail = suf.map fun b => cfg.ids.blkId b.header := by
  obtain ⟨log, suf, hpath, -, hdeque, hlog, hconf⟩ := (finalInv_run h).front
  refine ⟨log, suf, hpath, hlog, fun hne => ?_, hdeque⟩
  have hdeep := hconf.deep hne
  rw [List.length_append] at hdeep
  omega

/-- Whether what is delivered next is shallow, for chains of up to three blocks. -/
def shallow (commitLen : Nat) (p : Pipeline) : PipelineCall → Bool
  | .deliver (blk :: _) =>
    match walk p.asOf.blockPool 3 p.asOf.chainTail, p.decision.firstBlockHeight blk.prev with
    | some M, .ok height => M.length < height + commitLen
    | _, _ => false
  | _ => true

theorem shallow_of_check (hkeyed : Keyed cfg.ids p.asOf.blockPool) {c : PipelineCall}
    (h : shallow commitLen p c = true) : Shallow commitLen p c := by
  rintro blk rest M height rfl hM hheight
  unfold shallow at h
  dsimp only at h
  split at h
  · rename_i M' height' hwalk hheight'
    obtain rfl := hM.unique hkeyed (pathTo_of_walk hwalk)
    obtain rfl := Except.ok.inj (hheight.symm.trans hheight')
    exact of_decide_eq_true h
  · exact absurd h Bool.false_ne_true

/-- A run that passes the check is one of shallow reorganisations. -/
theorem shallow_run (h : (pipeline cfg commitLen).Run
    (fun p c => shallow commitLen p c = true ∧ PipelineFresh cfg p c) tr p) :
    (pipeline cfg commitLen).Run
      (fun p c => PipelineFresh cfg p c ∧ Shallow commitLen p c) tr p := by
  refine h.strengthen fun pre c suf p _ hrun hg => ⟨hg.2, ?_⟩
  exact shallow_of_check (finalInv_run hrun).pipe.keyed hg.1

/-- A node that waits for one block mines one, delivers it, moves to two blocks of a
peer, and commits the first of them. -/
theorem final_demo_run : ∃ tr p, (pipeline demo 1).Run
    (fun p c => PipelineFresh demo p c ∧ Shallow 1 p c) tr p ∧
      (managed tr).flatMap Label.mined = [demoBlock [demoGrant, demoPay]] ∧
      committedBy tr = [(1, [demoGrant])] ∧
      PathTo p.asOf.blockPool p.asOf.chainTail
        [demoPeer 0 [demoGrant], demoPeer 8650 [demoPay]] := by
  obtain ⟨tr, p, hrun, hq⟩ := evalTurns_run demo 1 5 (shallow 1)
    [.call (.recordNewTxn demoGrant), .call (.recordNewTxn demoPay),
      .call (.prepareNewBlock 7), .call .getNewBlock, .deliver,
      .call (.validateBlock (demoPeer 0 [demoGrant])),
      .call (.validateBlock (demoPeer 8650 [demoPay])), .deliver, .commit]
    (fun r => (managed r.1).flatMap Label.mined = [demoBlock [demoGrant, demoPay]] ∧
      committedBy r.1 = [(1, [demoGrant])] ∧ walk r.2.asOf.blockPool 3 r.2.asOf.chainTail =
        some [demoPeer 0 [demoGrant], demoPeer 8650 [demoPay]])
    (by decide +kernel)
  obtain ⟨hmined, hlog, hwalk⟩ := of_decide_eq_true hq
  exact ⟨tr, p, shallow_run hrun, hmined, hlog, pathTo_of_walk hwalk⟩

/-- The block that is committed is not the one that the node has mined. -/
theorem commits_final_demo : ∃ tr, ∃ p : Pipeline, ∃ log suf,
    (managed tr).flatMap Label.mined = [demoBlock [demoGrant, demoPay]] ∧
    committedBy tr = [(1, [demoGrant])] ∧
    PathTo p.asOf.blockPool p.asOf.chainTail (log ++ suf) ∧ committedBy tr = asCommits log ∧
    (log ≠ [] → 1 ≤ suf.length) ∧
    p.decision.chainTail = suf.map fun b => demo.ids.blkId b.header := by
  obtain ⟨tr, p, hrun, hmined, hlog, -⟩ := final_demo_run
  obtain ⟨log, suf, h⟩ := commits_final demo 1 hrun
  exact ⟨tr, p, log, suf, hmined, hlog, h⟩

theorem asCommits_prefix {log log' : List Block} (h : log <+: log') :
    asCommits log <+: asCommits log' := by
  obtain ⟨rest, rfl⟩ := h
  unfold asCommits
  rw [List.mapIdx_append]
  exact List.prefix_append ..

/-- **Nodes agree on what is committed.** Two nodes whose reorganisations are
shallow, and whose main chains part no deeper than one of them waits for, have
committed the same transactions at the same heights as far as both of them got. -/
theorem nodes_agree (cfg cfg' : Config) (commitLen commitLen' : Nat) {tr tr' : List PipelineCall}
    {p p' : Pipeline}
    (h : (pipeline cfg commitLen).Run
      (fun p c => PipelineFresh cfg p c ∧ Shallow commitLen p c) tr p)
    (h' : (pipeline cfg' commitLen').Run
      (fun p c => PipelineFresh cfg' p c ∧ Shallow commitLen' p c) tr' p')
    {common fork fork' : List Block}
    (hp : PathTo p.asOf.blockPool p.asOf.chainTail (common ++ fork))
    (hp' : PathTo p'.asOf.blockPool p'.asOf.chainTail (common ++ fork'))
    (hfork : fork.length ≤ commitLen ∨ fork'.length ≤ commitLen') :
    committedBy tr <+: committedBy tr' ∨ committedBy tr' <+: committedBy tr := by
  have hinv := finalInv_run h
  have hinv' := finalInv_run h'
  obtain ⟨log, suf, hpath, -, -, hlog, hconf⟩ := hinv.front
  obtain ⟨log', suf', hpath', -, -, hlog', hconf'⟩ := hinv'.front
  rw [hpath.unique hinv.pipe.keyed hp] at hconf
  rw [hpath'.unique hinv'.pipe.keyed hp'] at hconf'
  rw [hlog, hlog']
  exact (hconf.agree hconf' hfork).imp asCommits_prefix asCommits_prefix

/-- The peer that mines the two blocks. -/
noncomputable def demoMiner : Config := { demo with self := 1 }

/-- The node has left its own block for the blocks of the peer, and commits the first
of them as the peer does, who is one block ahead. -/
theorem nodes_agree_demo : ∃ tr tr' : List PipelineCall,
    (managed tr).flatMap Label.mined = [demoBlock [demoGrant, demoPay]] ∧
    committedBy tr = [(1, [demoGrant])] ∧
    (managed tr').flatMap Label.mined = [demoPeer 0 [demoGrant], demoPeer 8650 [demoPay]] ∧
    committedBy tr' = [(1, [demoGrant]), (2, [demoPay])] ∧
    (committedBy tr <+: committedBy tr' ∨ committedBy tr' <+: committedBy tr) := by
  obtain ⟨tr, p, hrun, hmined, hlog, hpath⟩ := final_demo_run
  let third := demoPeer (demo.ids.blkId (demoPeer 8650 [demoPay]).header) []
  obtain ⟨tr', p', hrun', hq⟩ := evalTurns_run demoMiner 1 5 (shallow 1)
    [.call (.recordNewTxn demoGrant), .call (.prepareNewBlock 9), .call .getNewBlock, .deliver,
      .call (.recordNewTxn demoPay), .call (.prepareNewBlock 9), .call .getNewBlock, .deliver,
      .commit, .call (.validateBlock third), .deliver, .commit]
    (fun r => ((managed r.1).flatMap Label.mined =
        [demoPeer 0 [demoGrant], demoPeer 8650 [demoPay]]) ∧
      committedBy r.1 = [(1, [demoGrant]), (2, [demoPay])] ∧
      walk r.2.asOf.blockPool 3 r.2.asOf.chainTail =
        some [demoPeer 0 [demoGrant], demoPeer 8650 [demoPay], third])
    (by decide +kernel)
  obtain ⟨hmined', hlog', hwalk⟩ := of_decide_eq_true hq
  have hcommon : PathTo p.asOf.blockPool p.asOf.chainTail
      ([demoPeer 0 [demoGrant], demoPeer 8650 [demoPay]] ++ []) := hpath
  have hahead : PathTo p'.asOf.blockPool p'.asOf.chainTail
      ([demoPeer 0 [demoGrant], demoPeer 8650 [demoPay]] ++ [third]) := pathTo_of_walk hwalk
  have hagree := nodes_agree demo demoMiner 1 1 hrun (shallow_run hrun') hcommon hahead
    (Or.inl (Nat.zero_le 1))
  exact ⟨tr, tr', hmined, hlog, hmined', hlog', hagree⟩

end Copycat.Bitcoin
