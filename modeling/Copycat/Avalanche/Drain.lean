import Copycat.Avalanche.Ordering
import Copycat.Avalanche.Rechecks

/-!
# When the proposal DAG drains

A transaction leaves the DAG when `prepare_new_block` finds it on the frontier,
and it gets there when its counter comes down to zero. The counter comes down
once for each transaction of the DAG that has it as a child. It has to start
there:

- `record_new_txn` counts the parents in the DAG, and stores the number of all
  listed parents;
- a parent listed twice is counted twice, and has the transaction as a child
  once;
- `validate_block` drops `pending_frontier` when it returns early on a block
  that was not asked for, and what is free from the start is never pushed again.

`Act.Counted` is the condition on a call that none of this happens. In every run
of such calls a DAG with an empty frontier is empty, and alternating
`prepare_new_block` and `get_new_block` gets there (`dag_drained`).
-/

namespace Copycat.Avalanche

open Copycat.Lib
open BlockManagement

/-! ## The condition -/

/-- A transaction that `validate_block` may come across: one of the block, or of a
block parked below it. -/
def Material (s : BlockManagement) (block : Block) (t : AvalancheTxn) : Prop :=
  t ∈ block.txns ∨ ∃ d < block.depth, ∃ parked,
    s.pendingBlks (block.proposer, block.id, d) = some parked ∧ t ∈ parked.txns

/-- One that it may add. -/
structure Incoming (ids : UniqueIds) (s : BlockManagement) (block : Block) (t : AvalancheTxn) :
    Prop where
  material : Material s block t
  unknown : s.txnPool (ids.txnId t) = none
  passes : PassesCheck ids t

/-- Known, and no longer in the DAG. -/
def Moved (s : BlockManagement) (p : Hash) : Prop := (s.txnPool p).isSome ∧ s.txnDag p = none

/-- The transactions that may come in list no parent twice that waits in the DAG
or comes in with them, and if the early return is taken none of them has moved
parents only. -/
structure BlockCounted (ids : UniqueIds) (s : BlockManagement) (block : Block) : Prop where
  once : ∀ t, Incoming ids s block t → ∀ p, 1 < t.parents.count p →
    s.txnDag p = none ∧ ∀ t', Incoming ids s block t' → ids.txnId t' ≠ p
  held : Dropped ids s block → ∀ t, Incoming ids s block t → ∃ p ∈ t.parents, ¬ Moved s p

/-- The call counts what it should: a recorded transaction is known, or has no
parent in the DAG, or has all of them there and lists none twice. -/
def BlockManagement.Act.Counted (ids : UniqueIds) (s : BlockManagement) : Act → Prop
  | .recordNewTxn txn =>
    (s.txnPool (ids.txnId txn)).isSome ∨ (∀ p ∈ txn.parents, s.txnDag p = none) ∨
      (txn.parents.Nodup ∧ ∀ p ∈ txn.parents, (s.txnDag p).isSome)
  | .validateBlock block => BlockCounted ids s block
  | _ => True

/-! ## The invariant -/

/-- What a call that counts keeps. -/
structure LiveInv (ids : UniqueIds) (s : Proposals) : Prop where
  stage : StageInv ids s
  filed : FiledPool ids s.txnPool
  finite : (view s.txnDag).waiting.Finite
  live : (view s.txnDag).Live s.dagFrontier

section Insert

variable {ids : UniqueIds} {proposed : List Hash} {d : ProposalDag} {txn : AvalancheTxn}

theorem FiledPool.insert (h : FiledPool ids d.txnPool) (hclient : txn.fromClient) (n : UInt64) :
    FiledPool ids (insertTxn ids d txn n).txnPool := by
  intro x t ht
  have ht : Function.update d.txnPool (ids.txnId txn) (some txn) x = some t := ht
  by_cases hx : x = ids.txnId txn
  · rw [hx, Function.update_self, Option.some.injEq] at ht
    rw [← ht, hx]
    exact ⟨rfl, hclient⟩
  · rw [Function.update_of_ne hx] at ht
    exact h x t ht

theorem finite_insert (h : DagInv ids proposed d) (hnew : d.txnPool (ids.txnId txn) = none)
    (hfin : (view d.txnDag).waiting.Finite) (n : UInt64) :
    (view (insertTxn ids d txn n).txnDag).waiting.Finite := by
  rw [view_insertTxn h hnew]
  exact hfin.insert _

/-- The transactions of the DAG, and the new one. -/
theorem mem_insertTxn (h : DagInv ids proposed d) (hnew : d.txnPool (ids.txnId txn) = none)
    (n : UInt64) (y : Hash) : ((insertTxn ids d txn n).txnDag y).isSome ↔
      y = ids.txnId txn ∨ (d.txnDag y).isSome := by
  show y ∈ (view (insertTxn ids d txn n).txnDag).waiting ↔ _
  rw [view_insertTxn h hnew]
  rfl

/-- A counter that counts the parents in the DAG, each of them listed once, is
right; and it is above zero if there is one. -/
theorem held_insert_self (h : DagInv ids proposed d) (hnew : d.txnPool (ids.txnId txn) = none)
    {n : UInt64} (hn : n.toNat = txn.parents.countP fun p => (d.txnDag p).isSome)
    (honce : ∀ p, (d.txnDag p).isSome → txn.parents.count p ≤ 1) {q : Hash}
    (hq : q ∈ txn.parents) (hin : (d.txnDag q).isSome) :
    (view (insertTxn ids d txn n).txnDag).Exact (ids.txnId txn) ∧
      ¬ (view (insertTxn ids d txn n).txnDag).Free (ids.txnId txn) := by
  rw [view_insertTxn h hnew, hn]
  refine ⟨?_, fun hfree => hfree q (Or.inr ⟨rfl, hq, hin⟩)⟩
  have hnodup : (txn.parents.filter fun p => (d.txnDag p).isSome).Nodup := by
    refine List.nodup_iff_count_le_one.mpr fun p => ?_
    by_cases hp : (d.txnDag p).isSome
    · rw [List.count_filter (p := fun p => (d.txnDag p).isSome) hp]
      exact honce p hp
    · have hout : p ∉ txn.parents.filter fun p => (d.txnDag p).isSome :=
        fun hmem => hp (List.mem_filter.mp hmem).2
      rw [List.count_eq_zero_of_not_mem hout]
      exact Nat.zero_le 1
  have hcard : (txn.parents.filter fun p => (d.txnDag p).isSome).toFinset.card =
      txn.parents.countP fun p => (d.txnDag p).isSome := by
    rw [List.toFinset_card_of_nodup hnodup, List.countP_eq_length_filter]
  rw [← hcard]
  refine Countdown.exact_add_self h.sound ?_ fun p => ?_
  · show ¬ (d.txnDag _).isSome
    rw [h.not_in_dag hnew]
    simp
  · rw [List.mem_toFinset, List.mem_filter]
    rfl

theorem live_insert (h : DagInv ids proposed d) (hnew : d.txnPool (ids.txnId txn) = none)
    {n : UInt64} {ready ready' : List Hash} (hlive : (view d.txnDag).Live ready)
    (hsub : ∀ y ∈ ready, y ∈ ready')
    (hself : ids.txnId txn ∈ ready' ∨
      ((view (insertTxn ids d txn n).txnDag).Exact (ids.txnId txn) ∧
        ¬ (view (insertTxn ids d txn n).txnDag).Free (ids.txnId txn))) :
    (view (insertTxn ids d txn n).txnDag).Live ready' := by
  rw [view_insertTxn h hnew] at hself ⊢
  exact hlive.add hsub hself

end Insert

section Calls

variable {ids : UniqueIds} {s : Proposals}

theorem LiveInv.record (h : LiveInv ids s) {txn : AvalancheTxn} (hsized : Sized txn)
    (hcounted : (Act.recordNewTxn txn).Counted ids s.toBlockManagement)
    {r : BlockManagement × Bool} (hr : recordNewTxn ids s.toBlockManagement txn = .ok r) :
    LiveInv ids ⟨r.1, s.ownBlocks⟩ := by
  have hstage := (Advance.record h.stage hsized hr).inv
  rcases recordNewTxn_cases hr with ⟨-, hsame⟩ | ⟨hnew, hclient, hadded⟩
  · rw [hsame]
    exact h
  · rw [hadded] at hstage ⊢
    refine ⟨hstage, h.filed.insert hclient _, finite_insert h.stage.dag hnew h.finite _, ?_⟩
    have hnot : ¬ (s.txnPool (ids.txnId txn)).isSome := by simp [hnew]
    dsimp only
    split
    · exact live_insert h.stage.dag hnew h.live (fun y hy => List.mem_append_left _ hy)
        (Or.inl (by simp))
    · rename_i hpos
      refine live_insert h.stage.dag hnew h.live (fun y hy => hy) (Or.inr ?_)
      have hcount : (txn.parents.countP fun p => (s.txnDag p).isSome) ≠ 0 := by
        intro hzero
        rw [hzero] at hpos
        exact hpos rfl
      obtain ⟨q, hq, hin⟩ := List.countP_pos_iff.mp (Nat.pos_of_ne_zero hcount)
      have hall := hcounted.resolve_left hnot
      obtain ⟨hnodup, hall⟩ := hall.resolve_left fun hnone => by
        rw [hnone q hq] at hin
        exact absurd hin (by simp)
      refine held_insert_self h.stage.dag hnew ?_
        (fun p _ => List.nodup_iff_count_le_one.mp hnodup p) hq hin
      rw [UInt64.toNat_ofNat_of_lt' hsized]
      exact (List.countP_eq_length.mpr fun p hp => hall p hp).symm

/-- The DAG in the course of `validate_block`, with `pending_frontier`: what is new
in the pool is in the DAG, and every transaction of the DAG is on one of the
frontiers or held back. If `pending_frontier` will be dropped, it is not needed
for that. -/
structure Counting (ids : UniqueIds) (s : Proposals) (block : Block)
    (m : ProposalDag × List Hash) : Prop where
  filed : FiledPool ids m.1.txnPool
  finite : (view m.1.txnDag).waiting.Finite
  old : ∀ h, (s.txnPool h).isSome → (m.1.txnPool h).isSome
  keeps : ∀ h, (s.txnDag h).isSome → (m.1.txnDag h).isSome
  waits : ∀ h, s.txnPool h = none → (m.1.txnPool h).isSome → (m.1.txnDag h).isSome
  origin : ∀ h, (m.1.txnDag h).isSome →
    (s.txnDag h).isSome ∨ ∃ t, Incoming ids s.toBlockManagement block t ∧ ids.txnId t = h
  live : (view m.1.txnDag).Live (m.2 ++ s.dagFrontier)
  held : Dropped ids s.toBlockManagement block → (view m.1.txnDag).Live s.dagFrontier

theorem Counting.push {block : Block} {m : ProposalDag × List Hash}
    (h : Counting ids s block m) (x : Hash) : Counting ids s block (m.1, m.2 ++ [x]) :=
  { h with
    live := h.live.mono fun y _ hy => by
      rcases List.mem_append.mp hy with hy | hy
      · exact List.mem_append_left _ (List.mem_append_left _ hy)
      · exact List.mem_append_right _ hy }

theorem Counting.add {block : Block} {m : ProposalDag × List Hash} (h : Counting ids s block m)
    (hdag : DagInv ids (s.proposed ids) m.1) (hcounted : BlockCounted ids s.toBlockManagement block)
    {t : AvalancheTxn} (hsized : Sized t) (hmaterial : Material s.toBlockManagement block t)
    (hnew : m.1.txnPool (ids.txnId t) = none) (hclient : t.fromClient)
    (hvalid : validateTxn m.1.txnPool t = .ok (.ok true)) :
    Counting ids s block (addTxn ids m t) := by
  have hincoming : Incoming ids s.toBlockManagement block t := by
    refine ⟨hmaterial, ?_, ?_⟩
    · by_contra hold
      have := h.old _ (Option.isSome_iff_ne_none.mpr hold)
      rw [hnew] at this
      exact absurd this (by simp)
    · obtain ⟨res, hres, hverdict⟩ := validateTxn_spec h.filed hclient
      rw [hvalid, Except.ok.injEq] at hres
      rw [← hres] at hverdict
      cases hverdict with
      | valid _ hpasses => exact hpasses
  have hparents := parents_of_valid hclient hvalid
  have honce : ∀ p, (m.1.txnDag p).isSome → t.parents.count p ≤ 1 := by
    intro p hp
    by_contra hmany
    obtain ⟨hout, hno⟩ := hcounted.once t hincoming p (by omega)
    rcases h.origin p hp with hold | ⟨t', ht', he⟩
    · rw [hout] at hold
      exact absurd hold (by simp)
    · exact hno t' ht' he
  -- a parent that has not moved is in the DAG by now
  have hheld : Dropped ids s.toBlockManagement block →
      (t.parents.countP fun p => (m.1.txnDag p).isSome) ≠ 0 := by
    intro hdropped hzero
    obtain ⟨p, hp, hmoved⟩ := hcounted.held hdropped t hincoming
    have hout := List.countP_eq_zero.mp hzero p hp
    refine hout ?_
    cases hpool : s.txnPool p with
    | none => exact h.waits p hpool (hparents p hp)
    | some t' =>
      refine h.keeps p (Option.isSome_iff_ne_none.mpr fun hnone => hmoved ⟨?_, hnone⟩)
      rw [hpool]
      rfl
  have hn : (UInt64.ofNat (t.parents.countP fun p => (m.1.txnDag p).isSome)).toNat =
      t.parents.countP fun p => (m.1.txnDag p).isSome := toNat_countP hsized
  -- an in-DAG parent holds the new transaction back, and its counter is right
  have hself : (t.parents.countP fun p => (m.1.txnDag p).isSome) ≠ 0 →
      (view (insertTxn ids m.1 t (UInt64.ofNat (t.parents.countP fun p =>
        (m.1.txnDag p).isSome))).txnDag).Exact (ids.txnId t) ∧
      ¬ (view (insertTxn ids m.1 t (UInt64.ofNat (t.parents.countP fun p =>
        (m.1.txnDag p).isSome))).txnDag).Free (ids.txnId t) := by
    intro hpos
    obtain ⟨q, hq, hin⟩ := List.countP_pos_iff.mp (Nat.pos_of_ne_zero hpos)
    exact held_insert_self hdag hnew hn honce hq hin
  have hgrow : ∀ y, (m.1.txnPool y).isSome →
      (Function.update m.1.txnPool (ids.txnId t) (some t) y).isSome := by
    intro y hy
    by_cases hyt : y = ids.txnId t
    · rw [hyt, Function.update_self]
      rfl
    · rwa [Function.update_of_ne hyt]
  have hmem := mem_insertTxn hdag hnew (UInt64.ofNat (t.parents.countP fun p =>
    (m.1.txnDag p).isSome))
  rw [addTxn_eq]
  refine ⟨h.filed.insert hclient _, finite_insert hdag hnew h.finite _,
    fun y hy => hgrow y (h.old y hy), fun y hy => (hmem y).mpr (Or.inr (h.keeps y hy)),
    fun y hnone hy => (hmem y).mpr ?_, fun y hy => ?_, ?_, fun hdropped => ?_⟩
  · by_cases hyt : y = ids.txnId t
    · exact Or.inl hyt
    · have hy : (Function.update m.1.txnPool (ids.txnId t) (some t) y).isSome := hy
      rw [Function.update_of_ne hyt] at hy
      exact Or.inr (h.waits y hnone hy)
  · rcases (hmem y).mp hy with rfl | hy
    · exact Or.inr ⟨t, hincoming, rfl⟩
    · exact h.origin y hy
  · dsimp only
    split
    · refine live_insert hdag hnew h.live (fun y hy => ?_) (Or.inl (by simp))
      rcases List.mem_append.mp hy with hy | hy
      · exact List.mem_append_left _ (List.mem_append_left _ hy)
      · exact List.mem_append_right _ hy
    · rename_i hpos
      exact live_insert hdag hnew h.live (fun y hy => hy)
        (Or.inr (hself fun hzero => hpos (by rw [hzero]; rfl)))
  · exact live_insert hdag hnew (h.held hdropped) (fun y hy => hy)
      (Or.inr (hself (hheld hdropped)))

theorem LiveInv.check (h : LiveInv ids s) {block : Block}
    (hsized : ∀ t ∈ block.txns, Sized t)
    (hcounted : BlockCounted ids s.toBlockManagement block) {v : Validated}
    (hv : validateBlock ids s.toBlockManagement block = .ok v) :
    LiveInv ids ⟨v.state, s.ownBlocks⟩ := by
  have hK : Kept ids (fun t => Sized t ∧ (Material s.toBlockManagement block t ∨ t = .placeHolder))
      (fun m => Working ids s m ∧ Counting ids s block m) :=
    { add := by
        intro m t hm ht hnew hclient hvalid
        refine ⟨hm.1.add ht.1 hnew hclient hvalid, ?_⟩
        refine hm.2.add hm.1.dag hcounted ht.1 (ht.2.resolve_right ?_) hnew hclient hvalid
        rintro rfl
        exact absurd hclient (by simp [AvalancheTxn.fromClient])
      push := fun m x node hm hnode hzero => ⟨hm.1.push hnode hzero, hm.2.push x⟩
      placeHolder := ⟨by simp [Sized, AvalancheTxn.parents], Or.inr rfl⟩ }
  have hstart : Counting ids s block (s.toProposalDag, []) :=
    { filed := h.filed
      finite := h.finite
      old := fun _ hh => hh
      keeps := fun _ hh => hh
      waits := fun x hnone hsome => by
        have hsome : (s.txnPool x).isSome := hsome
        rw [hnone] at hsome
        exact absurd hsome (by simp)
      origin := fun _ hh => Or.inl hh
      live := h.live
      held := fun _ => h.live }
  obtain ⟨⟨pending, ⟨-, hw⟩, hfrontier⟩, -, -⟩ := validateBlock_rule hK
    ⟨working_start h.stage, hstart⟩ (fun t ht => ⟨hsized t ht, Or.inl (Or.inl ht)⟩)
    (fun d hd parked hp t ht => ⟨h.stage.parked _ parked hp t ht,
      Or.inl (Or.inr ⟨d, hd, parked, hp, ht⟩)⟩) hv
  refine ⟨(Advance.check h.stage hsized hv).inv, hw.filed, hw.finite, ?_⟩
  show (view v.state.txnDag).Live v.state.dagFrontier
  rcases hfrontier with hfrontier | ⟨hfrontier, hdropped⟩
  · rw [hfrontier]
    exact hw.live
  · rw [hfrontier]
    exact hw.held hdropped

/-- A stale entry of the frontier is dropped. -/
theorem LiveInv.skip (h : LiveInv ids s) {x : Hash} {rest : List Hash}
    (hfrontier : s.dagFrontier = x :: rest) (hx : s.txnDag x = none) :
    LiveInv ids ⟨{ s.toBlockManagement with dagFrontier := rest }, s.ownBlocks⟩ := by
  refine ⟨(h.stage.skip hfrontier).inv, h.filed, h.finite, h.live.mono fun y hy hmem => ?_⟩
  rw [hfrontier] at hmem
  refine (List.mem_cons.mp hmem).resolve_left fun he => ?_
  have hy : (s.txnDag y).isSome := hy
  rw [he, hx] at hy
  exact absurd hy (by simp)

/-- A transaction is taken off the frontier. -/
theorem LiveInv.take (h : LiveInv ids s) {x : Hash} {rest : List Hash} {node : ProposalNode}
    (hfrontier : s.dagFrontier = x :: rest) (hnode : s.txnDag x = some node) (ord : HashOrder) :
    LiveInv ids ⟨{ s.toBlockManagement with
      txnDag := (released ord s.txnDag x node rest).1
      dagFrontier := (released ord s.txnDag x node rest).2
      currBatch := s.currBatch ++ [x] }, s.ownBlocks⟩ := by
  have hview := view_release ord rest h.stage.dag.sound hnode
  have hfree : (view s.txnDag).Free x := (h.stage.ready x (by simp [hfrontier])).2
  have hmem : ∀ y, y ∈ (released ord s.txnDag x node rest).2 ↔
      y ∈ rest ∨ ((view s.txnDag).holds x y ∧ (view s.txnDag).count y - 1 = 0) :=
    mem_released_frontier h.stage.dag.sound hnode hfree
  refine ⟨(h.stage.take hfrontier hnode ord).inv, h.filed, ?_, ?_⟩
  · dsimp only
    rw [hview]
    exact h.finite.subset fun y hy => hy.2
  · dsimp only
    rw [hview]
    refine h.live.take (fun y hy hne => (hmem y).mpr (Or.inl ?_))
      fun y _ hheld hzero => (hmem y).mpr (Or.inr ⟨hheld, hzero⟩)
    rw [hfrontier] at hy
    exact (List.mem_cons.mp hy).resolve_left hne

theorem LiveInv.prepare (h : LiveInv ids s) {blkLen fuel : Nat} {ord : HashOrder}
    {r : BlockManagement × Bitcoin.CurBlockState}
    (hr : prepareNewBlock blkLen ord fuel s.toBlockManagement = .ok r) :
    LiveInv ids ⟨r.1, s.ownBlocks⟩ :=
  prepareNewBlock_rule (fun s' => LiveInv ids ⟨s', s.ownBlocks⟩)
    (fun _ _ _ hs' hfrontier hx => hs'.skip hfrontier hx)
    (fun _ _ _ _ hs' hfrontier hnode => hs'.take hfrontier hnode ord) h hr

/-- Calls that leave the pool, the DAG and the frontier as they are. -/
theorem LiveInv.same (h : LiveInv ids s) {s' : Proposals} (hstage : StageInv ids s')
    (hdag : s'.toProposalDag = s.toProposalDag) (hfrontier : s'.dagFrontier = s.dagFrontier) :
    LiveInv ids s' := by
  refine ⟨hstage, ?_, ?_, ?_⟩
  · rw [hdag]
    exact h.filed
  · rw [hdag]
    exact h.finite
  · rw [hdag, hfrontier]
    exact h.live

theorem LiveInv.propose (h : LiveInv ids s) {self : NodeId} {r : BlockManagement × Block}
    (hr : getNewBlock self s.toBlockManagement = .ok r) :
    LiveInv ids ⟨r.1, s.ownBlocks ++ [r.2]⟩ := by
  have heq := getNewBlock_eq hr
  refine h.same (Advance.propose h.stage hr).inv ?_ ?_
  · rw [heq]
  · rw [heq]

end Calls

/-- Every call that counts keeps the invariant. -/
theorem step_live {ids : UniqueIds} {cfg : StageConfig} {s s' : Proposals}
    {l : Act × List Block} (h : LiveInv ids s) (hsized : l.1.Sized)
    (hcounted : l.1.Counted ids s.toBlockManagement)
    (hstep : (proposing ids cfg).step s l s') : LiveInv ids s' := by
  have hinv := (step_advance h.stage hsized hstep).inv
  have hcall := called_of_step hstep
  obtain ⟨a, out⟩ := l
  cases hcall with
  | record hr => exact h.record hsized hcounted hr
  | prepare hr => exact h.prepare hr
  | propose hr => exact h.propose hr
  | allow => exact h.same hinv rfl rfl
  | check hv => exact h.check hsized hcounted hv

theorem liveInv_new (ids : UniqueIds) : LiveInv ids ⟨.new, []⟩ where
  stage := stageInv_new ids
  filed x t ht := absurd ht (by simp [BlockManagement.new])
  finite := by
    refine Set.finite_empty.subset fun y hy => ?_
    have hy : (BlockManagement.new.txnDag y).isSome := hy
    exact absurd hy (by simp [BlockManagement.new])
  live y hy := by
    have hy : (BlockManagement.new.txnDag y).isSome := hy
    exact absurd hy (by simp [BlockManagement.new])

/-! ## Draining -/

/-- With an empty frontier, the DAG is empty. -/
theorem LiveInv.drained {ids : UniqueIds} {s : Proposals} (h : LiveInv ids s)
    (hfrontier : s.dagFrontier = []) (x : Hash) : s.txnDag x = none := by
  have hlive : (view s.txnDag).Live [] := hfrontier ▸ h.live
  have hnot := hlive.drained h.stage.dag.sound ids.rank (fun p y hp => by
    obtain ⟨t, ht, hmem⟩ := h.stage.dag.parent p y hp
    rw [← h.stage.dag.filed y t ht]
    exact ids.rank_parent t p hmem) x
  exact Option.not_isSome_iff_eq_none.mp hnot

/-- Call `prepare_new_block` and `get_new_block` in turn until the frontier is
empty. -/
def drain (cfg : StageConfig) (ord : HashOrder) (fuel : Nat) :
    Nat → BlockManagement → Res BlockManagement
  | 0, _ => .error .diverge
  | rounds + 1, s =>
    prepareNewBlock cfg.blkLen ord fuel s >>= fun r =>
    if r.1.dagFrontier = [] then .ok r.1
    else getNewBlock cfg.self r.1 >>= fun r' => drain cfg ord fuel rounds r'.1

/-- `prepare_new_block` neither reads nor writes the quota. -/
theorem prepareNewBlock_quota (blkLen : Nat) (ord : HashOrder) (quota : Nat) :
    ∀ {fuel : Nat} {s : BlockManagement} {r : BlockManagement × Bitcoin.CurBlockState},
      prepareNewBlock blkLen ord fuel s = .ok r →
      prepareNewBlock blkLen ord fuel { s with blkQuota := quota } =
        .ok ({ r.1 with blkQuota := quota }, r.2) := by
  intro fuel
  induction fuel with
  | zero => intro s r h; exact absurd h (by simp [prepareNewBlock])
  | succ fuel ih =>
    intro s r h
    rw [prepareNewBlock] at h ⊢
    dsimp only
    split at h
    · rename_i hfull
      rw [if_pos hfull, ← Except.ok.inj h]
    · rename_i hfull
      rw [if_neg hfull]
      cases hfrontier : s.dagFrontier with
      | nil =>
        rw [hfrontier] at h
        rw [← Except.ok.inj h]
        dsimp only
        rw [hfrontier]
      | cons x rest =>
        rw [hfrontier] at h
        dsimp only at h ⊢
        cases hnode : s.txnDag x with
        | none =>
          rw [hnode] at h
          exact ih h
        | some node =>
          rw [hnode] at h
          exact ih h

/-- How many transactions wait in the DAG or in the batch. -/
noncomputable def load (s : BlockManagement) : Nat :=
  (view s.txnDag).waiting.ncard + s.currBatch.length

section Drain

variable {ids : UniqueIds} {own : List Block} {s : BlockManagement}

/-- Taking a transaction leaves one less to wait. -/
theorem ncard_release (h : LiveInv ids ⟨s, own⟩) {x : Hash} {node : ProposalNode}
    (hnode : s.txnDag x = some node) (ord : HashOrder) (rest : List Hash) :
    (view (released ord s.txnDag x node rest).1).waiting.ncard + 1 =
      (view s.txnDag).waiting.ncard := by
  rw [view_release ord rest h.stage.dag.sound hnode]
  have hx : x ∈ (view s.txnDag).waiting := by
    show (s.txnDag x).isSome
    rw [hnode]
    rfl
  have htake : ((view s.txnDag).take x).waiting = (view s.txnDag).waiting \ {x} := by
    refine Set.ext fun y => ?_
    rw [Set.mem_sdiff, Set.mem_singleton_iff, and_comm]
    rfl
  rw [htake]
  exact Set.ncard_sdiff_singleton_add_one hx h.finite

/-- `prepare_new_block` comes to an end, with a full batch or an empty
frontier. -/
theorem prepareNewBlock_returns (blkLen : Nat) (ord : HashOrder) (h : LiveInv ids ⟨s, own⟩) :
    ∃ N r, (∀ fuel ≥ N, prepareNewBlock blkLen ord fuel s = .ok r) ∧ load r.1 = load s ∧
      (r.1.currBatch.length ≥ blkLen ∨ r.1.dagFrontier = []) := by
  induction hn : (view s.txnDag).waiting.ncard using Nat.strong_induction_on generalizing s with
  | _ n ihn =>
    induction hf : s.dagFrontier generalizing s with
    | nil =>
      by_cases hfull : s.currBatch.length ≥ blkLen
      · refine ⟨1, (s, .full), fun fuel hfuel => ?_, rfl, Or.inl hfull⟩
        obtain ⟨fuel, rfl⟩ := Nat.exists_eq_add_of_le' hfuel
        rw [prepareNewBlock, if_pos hfull]
      · refine ⟨1, (s, .emptyMempool), fun fuel hfuel => ?_, rfl, Or.inr hf⟩
        obtain ⟨fuel, rfl⟩ := Nat.exists_eq_add_of_le' hfuel
        rw [prepareNewBlock, if_neg hfull, hf]
    | cons x rest ihf =>
      by_cases hfull : s.currBatch.length ≥ blkLen
      · refine ⟨1, (s, .full), fun fuel hfuel => ?_, rfl, Or.inl hfull⟩
        obtain ⟨fuel, rfl⟩ := Nat.exists_eq_add_of_le' hfuel
        rw [prepareNewBlock, if_pos hfull]
      · cases hnode : s.txnDag x with
        | none =>
          obtain ⟨N, r, hr, hload, hstop⟩ := ihf (h.skip hf hnode) hn rfl
          refine ⟨N + 1, r, fun fuel hfuel => ?_, hload, hstop⟩
          obtain ⟨fuel, rfl⟩ := Nat.exists_eq_add_of_le' (Nat.le_of_add_left_le hfuel)
          rw [prepareNewBlock, if_neg hfull, hf]
          dsimp only
          rw [hnode]
          exact hr fuel (by omega)
        | some node =>
          have hcard := ncard_release h hnode ord rest
          obtain ⟨N, r, hr, hload, hstop⟩ :=
            ihn (view (released ord s.txnDag x node rest).1).waiting.ncard (by omega)
              (h.take hf hnode ord) rfl
          refine ⟨N + 1, r, fun fuel hfuel => ?_, ?_, hstop⟩
          · obtain ⟨fuel, rfl⟩ := Nat.exists_eq_add_of_le' (Nat.le_of_add_left_le hfuel)
            rw [prepareNewBlock, if_neg hfull, hf]
            dsimp only
            rw [hnode]
            exact hr fuel (by omega)
          · rw [hload]
            unfold load
            dsimp only
            rw [List.length_append, List.length_singleton]
            omega

/-- What is in the batch is in the pool, so with quota left there is a block. -/
theorem getNewBlock_returns (h : LiveInv ids ⟨s, own⟩) (self : NodeId) (hquota : 0 < s.blkQuota) :
    ∃ r, getNewBlock self s = .ok r := by
  have hbatch : ∀ x ∈ s.currBatch, ∃ t, s.txnPool x = some t := by
    intro x hx
    exact Option.isSome_iff_exists.mp
      ((h.stage.dag.cover x).mpr (Or.inr (List.mem_append_right _ hx)))
  obtain ⟨txns, htxns⟩ := exists_mapM hbatch
  unfold getNewBlock
  rw [if_pos hquota, htxns]
  exact ⟨_, rfl⟩

theorem LiveInv.quota (h : LiveInv ids ⟨s, own⟩) (quota : Nat) :
    LiveInv ids ⟨{ s with blkQuota := quota }, own⟩ := by
  have hstage : Advance ids ⟨s, own⟩ ⟨{ s with blkQuota := quota }, own⟩ :=
    h.stage.same rfl rfl rfl rfl
  exact h.same hstage.inv rfl rfl

/-- With enough rounds and quota, the draining loop ends: every round that does
not end it makes a block of at least one transaction. -/
theorem drain_returns {cfg : StageConfig} (hlen : 0 < cfg.blkLen) (ord : HashOrder)
    (h : LiveInv ids ⟨s, own⟩) :
    ∃ N, ∀ fuel rounds quota, N ≤ fuel → N ≤ rounds → N ≤ quota →
      ∃ s', drain cfg ord fuel rounds { s with blkQuota := quota } = .ok s' ∧
        s'.dagFrontier = [] ∧ ∀ x, s'.txnDag x = none := by
  induction hn : load s using Nat.strong_induction_on generalizing s own with
  | _ n ih =>
    obtain ⟨N, r, hr, hload, hstop⟩ := prepareNewBlock_returns cfg.blkLen ord h
    have hlive : LiveInv ids ⟨r.1, own⟩ := h.prepare (hr N (Nat.le_refl N))
    by_cases hfrontier : r.1.dagFrontier = []
    · refine ⟨N + 1, fun fuel rounds quota hfuel hrounds _ => ?_⟩
      obtain ⟨rounds, rfl⟩ := Nat.exists_eq_add_of_le' (Nat.le_of_add_left_le hrounds)
      refine ⟨{ r.1 with blkQuota := quota }, ?_, hfrontier, hlive.drained hfrontier⟩
      rw [drain, prepareNewBlock_quota _ _ quota (hr fuel (by omega))]
      exact if_pos hfrontier
    · -- the batch is full, so the block takes something off the load
      have hfull := hstop.resolve_right hfrontier
      have hproposed : ∀ quota, 0 < quota → ∃ b,
          getNewBlock cfg.self { r.1 with blkQuota := quota } = .ok ({ r.1 with
            currBatch := [], blkCounter := r.1.blkCounter + 1, blkQuota := quota - 1 }, b) := by
        intro quota hquota
        obtain ⟨⟨s', b⟩, hb⟩ := getNewBlock_returns (hlive.quota quota) cfg.self hquota
        have heq := getNewBlock_eq hb
        dsimp only at heq
        exact ⟨b, by rw [hb, heq]⟩
      have hnext : ∃ own', LiveInv ids ⟨{ r.1 with
          currBatch := [], blkCounter := r.1.blkCounter + 1, blkQuota := 0 }, own'⟩ := by
        obtain ⟨b, hb⟩ := hproposed 1 Nat.one_pos
        exact ⟨_, (hlive.quota 1).propose hb⟩
      obtain ⟨own', hnext⟩ := hnext
      have hless : load { r.1 with
          currBatch := [], blkCounter := r.1.blkCounter + 1, blkQuota := 0 } < n := by
        rw [← hn, ← hload]
        unfold load
        dsimp only
        rw [List.length_nil]
        omega
      obtain ⟨N', hN'⟩ := ih _ hless hnext rfl
      refine ⟨max N N' + 1, fun fuel rounds quota hfuel hrounds hquota => ?_⟩
      obtain ⟨rounds, rfl⟩ := Nat.exists_eq_add_of_le' (Nat.le_of_add_left_le hrounds)
      obtain ⟨b, hb⟩ := hproposed quota (by omega)
      obtain ⟨s', hs', hempty⟩ := hN' fuel rounds (quota - 1) (by omega) (by omega) (by omega)
      refine ⟨s', ?_, hempty⟩
      rw [drain, prepareNewBlock_quota _ _ quota (hr fuel (by omega))]
      refine (if_neg hfrontier).trans ?_
      rw [hb]
      exact hs'

end Drain

/-- **The proposal DAG drains.** In every run of calls that count, whatever state
is reached: if the frontier is empty, so is the DAG; and calling
`prepare_new_block` and `get_new_block` in turn, often enough and with enough
quota, empties both. -/
theorem dag_drained (ids : UniqueIds) (cfg : StageConfig) {tr : List (Act × List Block)}
    {s : Proposals} (h : (proposing ids cfg).Run
      (fun s l => l.1.Sized ∧ l.1.Counted ids s.toBlockManagement) tr s) :
    (s.dagFrontier = [] → ∀ x, s.txnDag x = none) ∧
    (0 < cfg.blkLen → ∀ ord, ∃ N, ∀ fuel rounds quota, N ≤ fuel → N ≤ rounds → N ≤ quota →
      ∃ s', drain cfg ord fuel rounds { s.toBlockManagement with blkQuota := quota } = .ok s' ∧
        s'.dagFrontier = [] ∧ ∀ x, s'.txnDag x = none) := by
  have hlive : LiveInv ids s := h.invariant (LiveInv ids) (liveInv_new ids)
    fun _ _ _ hs hguard hstep => step_live hs hguard.1 hguard.2 hstep
  exact ⟨hlive.drained, fun hlen ord => drain_returns hlen ord hlive⟩

/-- A grant is recorded and a payment of it comes in a block; both are
proposed. -/
theorem dag_drained_demo : ∃ tr s, (proposing .coded ⟨0, 2⟩).Run
      (fun s l => l.1.Sized ∧ l.1.Counted .coded s.toBlockManagement) tr s ∧
    (s.txnDag (codeTxn orderedPay)).isSome ∧
    ∃ fuel rounds quota s',
      drain ⟨0, 2⟩ .sorted fuel rounds { s.toBlockManagement with blkQuota := quota } = .ok s' ∧
        s'.dagFrontier = [] ∧ ∀ x, s'.txnDag x = none := by
  have hcalls : returns (calls .coded ⟨0, 2⟩ 3 ⟨.new, []⟩
      [.recordNewTxn orderedGrant, .validateBlock ⟨1, 0, 0, [orderedPay]⟩])
      (fun s => (s.txnDag (codeTxn orderedPay)).isSome) = true := by decide +kernel
  obtain ⟨s, hs, hwaits⟩ := returns_iff.mp hcalls
  -- one listed parent is counted right in every state
  have hcounted : ∀ a ∈ [Act.recordNewTxn orderedGrant, .validateBlock ⟨1, 0, 0, [orderedPay]⟩],
      a.Sized ∧ ∀ s, a.Counted .coded s := by
    intro a ha
    rcases List.mem_pair.mp ha with rfl | rfl
    · refine ⟨by simp [Act.Sized, Sized, AvalancheTxn.parents, orderedGrant], fun s => ?_⟩
      exact Or.inr (Or.inl fun p hp => absurd hp (by simp [AvalancheTxn.parents, orderedGrant]))
    · refine ⟨by simp [Act.Sized, Sized, AvalancheTxn.parents, orderedPay], fun s => ⟨?_, ?_⟩⟩
      · intro t ht p hp
        rcases ht.material with hmem | ⟨d, hd, -⟩
        · rw [List.mem_singleton.mp hmem] at hp
          have := List.count_le_length (a := p) (l := orderedPay.parents)
          simp only [orderedPay, AvalancheTxn.parents, List.length_singleton] at this hp
          omega
        · exact absurd hd (Nat.not_lt_zero d)
      · intro hdropped
        obtain ⟨-, d, hd, -⟩ := hdropped
        exact absurd hd (Nat.not_lt_zero d)
  obtain ⟨tr, hrun, -⟩ := run_calls (P := fun a => a.Sized ∧ ∀ s, a.Counted .coded s) .nil
    hcounted hs
  have hrun : (proposing .coded ⟨0, 2⟩).Run
      (fun s l => l.1.Sized ∧ l.1.Counted .coded s.toBlockManagement) tr s :=
    hrun.mono fun s l _ hl => ⟨hl.1, hl.2 s.toBlockManagement⟩
  obtain ⟨N, hN⟩ := (dag_drained .coded ⟨0, 2⟩ hrun).2 Nat.two_pos .sorted
  obtain ⟨s', hs'⟩ := hN N N N (Nat.le_refl N) (Nat.le_refl N) (Nat.le_refl N)
  exact ⟨tr, s, hrun, hwaits, N, N, N, s', hs'⟩

/-- Two grants, and a payment of both. -/
def stuckGrant : AvalancheTxn := .grant 3 [1] 1

def stuckPay : AvalancheTxn :=
  .send [1] [codeTxn orderedGrant, codeTxn stuckGrant] [2] 10 3 []

/-- The first grant is in the batch when the payment is recorded. It counts one
parent, the second grant, and stores two; its counter never gets to zero. -/
theorem dag_not_drained : ∃ tr s,
    (proposing .coded ⟨0, 4⟩).Run (fun _ l => l.1.Sized) tr s ∧
    tr.map Prod.fst = [.recordNewTxn orderedGrant, .prepareNewBlock, .recordNewTxn stuckGrant,
      .recordNewTxn stuckPay] ∧
    ∃ s', drain ⟨0, 4⟩ .sorted 3 1 s.toBlockManagement = .ok s' ∧
      s'.dagFrontier = [] ∧ s'.txnDag (codeTxn stuckPay) ≠ none := by
  have hcalls : returns (calls .coded ⟨0, 4⟩ 3 ⟨.new, []⟩ [.recordNewTxn orderedGrant,
      .prepareNewBlock, .recordNewTxn stuckGrant, .recordNewTxn stuckPay])
      (fun s => returns (drain ⟨0, 4⟩ .sorted 3 1 s.toBlockManagement)
        fun s' => s'.dagFrontier = [] ∧ s'.txnDag (codeTxn stuckPay) ≠ none) = true := by
    decide +kernel
  obtain ⟨s, hs, hdrain⟩ := returns_iff.mp hcalls
  obtain ⟨s', hs', hstuck⟩ := returns_iff.mp hdrain
  obtain ⟨tr, hrun, hacts⟩ := run_calls (P := Act.Sized) .nil (by
    simp [Act.Sized, Sized, AvalancheTxn.parents, orderedGrant, stuckGrant, stuckPay]) hs
  exact ⟨tr, s, hrun, hacts, s', hs', of_decide_eq_true hstuck⟩

end Copycat.Avalanche
