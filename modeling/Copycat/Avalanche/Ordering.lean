import Copycat.Avalanche.Proposals

/-!
# Own blocks hold no transaction twice, and parents first

`validate_block` adds the transactions of peers to the DAG on two paths, the
first pass over a block and the second one over the blocks parked below it.
`validateBlock_rule` says once what that can do to the pool, the DAG and
`pending_frontier`: transactions that pass `validate_txn` are added, and
transactions of the DAG without parents there are pushed.

`Proposals` is the stage with the blocks it has made. In every run, what has
been proposed and the current batch hold no id twice, and a transaction comes
after each of its parents that was known when it came in; no counter of the
DAG underflows on the way (`proposals_ordered`).
-/

namespace Copycat.Avalanche

open Copycat.Lib
open BlockManagement

/-! ## What `validate_block` can do -/

/-- What adding a valid transaction and pushing one without parents preserve. -/
structure Kept (ids : UniqueIds) (Q : AvalancheTxn → Prop) (P : ProposalDag × List Hash → Prop) :
    Prop where
  add : ∀ m t, P m → Q t → m.1.txnPool (ids.txnId t) = none → t.fromClient →
    validateTxn m.1.txnPool t = .ok (.ok true) → P (addTxn ids m t)
  push : ∀ m h node, P m → m.1.txnDag h = some node → node.numParents = 0 → P (m.1, m.2 ++ [h])
  placeHolder : Q .placeHolder

section Rule

variable {ids : UniqueIds} {Q : AvalancheTxn → Prop} {P : ProposalDag × List Hash → Prop}

theorem filterTxn_rule (hK : Kept ids Q P) {f f' : Filtered} {x : AvalancheTxn × Nat}
    (hP : P f.dag) (hQ : Q x.1) (h : filterTxn ids f x = .ok f') :
    P f'.dag ∧ ∀ t ∈ f'.txns, t ∈ f.txns ∨ t = x.1 ∨ t = .placeHolder := by
  obtain ⟨txn, idx⟩ := x
  have hsnoc : ∀ t, ∀ t' ∈ f.txns ++ [t], t = txn ∨ t = .placeHolder →
      t' ∈ f.txns ∨ t' = txn ∨ t' = .placeHolder := by
    intro t t' ht' ht
    rcases List.mem_append.mp ht' with ht' | ht'
    · exact Or.inl ht'
    · rw [List.mem_singleton.mp ht']
      exact Or.inr ht
  unfold filterTxn at h
  dsimp only at h
  split at h
  · rw [← Except.ok.inj h]
    refine ⟨?_, fun t ht => hsnoc txn t ht (Or.inl rfl)⟩
    cases hnode : f.dag.1.txnDag (ids.txnId txn) with
    | none => exact hP
    | some node =>
      dsimp only
      split
      · rename_i hzero
        exact hK.push _ _ node hP hnode hzero
      · exact hP
  · rename_i hnew
    have hnew : f.dag.1.txnPool (ids.txnId txn) = none := by simpa using hnew
    cases txn with
    | noop parents =>
      rw [← Except.ok.inj h]
      exact ⟨hP, fun t ht => hsnoc _ t ht (Or.inl rfl)⟩
    | placeHolder =>
      rw [← Except.ok.inj h]
      exact ⟨hP, fun t ht => hsnoc _ t ht (Or.inl rfl)⟩
    | grant outUtxo receiver nonce =>
      rw [← Except.ok.inj h]
      exact ⟨hK.add _ _ hP hQ hnew rfl rfl, fun t ht => hsnoc _ t ht (Or.inl rfl)⟩
    | send sender inUtxo receiver outUtxo remainder signature =>
      dsimp only at h
      rw [bind_eq_ok] at h
      obtain ⟨res, hres, h⟩ := h
      cases res with
      | error missing =>
        rw [← Except.ok.inj h]
        exact ⟨hP, fun t ht => hsnoc _ t ht (Or.inl rfl)⟩
      | ok valid =>
        cases valid with
        | true =>
          rw [← Except.ok.inj h]
          exact ⟨hK.add _ _ hP hQ hnew rfl hres, fun t ht => hsnoc _ t ht (Or.inl rfl)⟩
        | false =>
          rw [← Except.ok.inj h]
          exact ⟨hP, fun t ht => hsnoc _ t ht (Or.inr rfl)⟩

/-- The first pass. -/
theorem filterLoop_rule (hK : Kept ids Q P) {txns : List AvalancheTxn} (hQ : ∀ t ∈ txns, Q t)
    {f f' : Filtered} (hP : P f.dag) (htxns : ∀ t ∈ f.txns, t ∈ txns ∨ t = .placeHolder)
    (h : txns.zipIdx.foldlM (filterTxn ids) f = .ok f') :
    P f'.dag ∧ ∀ t ∈ f'.txns, t ∈ txns ∨ t = .placeHolder := by
  refine foldlM_split (l := txns.zipIdx)
    (fun _ f => P f.dag ∧ ∀ t ∈ f.txns, t ∈ txns ∨ t = .placeHolder) ?_ ⟨hP, htxns⟩ h
  intro done x rest f f' hsplit hf hstep
  have hx : x.1 ∈ txns := by
    have hmem : x ∈ txns.zipIdx := hsplit ▸ List.mem_append_right _ (List.mem_cons_self ..)
    exact (List.mem_zipIdx hmem).2.2 ▸ List.getElem_mem _
  obtain ⟨hP', htxns'⟩ := filterTxn_rule hK hf.1 (hQ _ hx) hstep
  refine ⟨hP', fun t ht => ?_⟩
  rcases htxns' t ht with ht | rfl | rfl
  · exact hf.2 t ht
  · exact Or.inl hx
  · exact Or.inr rfl

theorem recheckTxn_rule (hK : Kept ids Q P)
    {acc acc' : (ProposalDag × List Hash) × List AvalancheTxn} {idx : Nat} (hP : P acc.1)
    (hQ : ∀ t ∈ acc.2, Q t) (h : recheckTxn ids acc idx = .ok acc') :
    P acc'.1 ∧ ∀ t ∈ acc'.2, Q t := by
  unfold recheckTxn at h
  rw [bind_eq_ok] at h
  obtain ⟨txn, htxn, h⟩ := h
  have hmem : txn ∈ acc.2 := List.mem_of_getElem? (unwrap_eq_ok.mp htxn)
  have hset : ∀ t ∈ acc.2.set idx .placeHolder, Q t := by
    intro t ht
    rcases List.mem_or_eq_of_mem_set ht with ht | rfl
    · exact hQ t ht
    · exact hK.placeHolder
  split at h
  · rw [← Except.ok.inj h]
    exact ⟨hP, hQ⟩
  · rename_i hnew
    have hnew : acc.1.1.txnPool (ids.txnId txn) = none := by simpa using hnew
    cases txn with
    | noop => rw [← Except.ok.inj h]; exact ⟨hP, hQ⟩
    | placeHolder => rw [← Except.ok.inj h]; exact ⟨hP, hQ⟩
    | grant => rw [← Except.ok.inj h]; exact ⟨hP, hQ⟩
    | send sender inUtxo receiver outUtxo remainder signature =>
      dsimp only at h
      rw [bind_eq_ok] at h
      obtain ⟨res, hres, h⟩ := h
      cases res with
      | error missing => rw [← Except.ok.inj h]; exact ⟨hP, hset⟩
      | ok valid =>
        cases valid with
        | true => rw [← Except.ok.inj h]; exact ⟨hK.add _ _ hP (hQ _ hmem) hnew rfl hres, hQ⟩
        | false => rw [← Except.ok.inj h]; exact ⟨hP, hset⟩

/-- The second pass, down the parked blocks. -/
theorem recheckBlks_rule (hK : Kept ids Q P) {proposer blkId d : Nat} :
    ∀ {dag : ProposalDag × List Hash} {pending : NodeId × Nat × Nat → Option ParkedBlk}
      {txns : List AvalancheTxn} {r : (ProposalDag × List Hash) ×
        (NodeId × Nat × Nat → Option ParkedBlk) × Option (List AvalancheTxn)}, P dag →
      (∀ k < d, ∀ parked, pending (proposer, blkId, k) = some parked →
        ∀ t ∈ parked.txns, Q t) →
      recheckBlks ids proposer blkId d dag pending txns = .ok r →
      P r.1 ∧ (∀ key parked, r.2.1 key = some parked → pending key = some parked) ∧
        (r.2.2 = none → ∃ k < d, pending (proposer, blkId, k) = none) := by
  induction d with
  | zero =>
    intro dag pending txns r hP _ h
    rw [← Except.ok.inj h]
    exact ⟨hP, fun _ _ h => h, fun h => absurd h (by simp)⟩
  | succ d ih =>
    intro dag pending txns r hP hQ h
    rw [recheckBlks] at h
    cases hparked : pending (proposer, blkId, d) with
    | none =>
      rw [hparked] at h
      rw [← Except.ok.inj h]
      exact ⟨hP, fun _ _ h => h, fun _ => ⟨d, Nat.lt_succ_self d, hparked⟩⟩
    | some parked =>
      rw [hparked] at h
      dsimp only at h
      rw [bind_eq_ok] at h
      obtain ⟨acc, hacc, h⟩ := h
      have hsame : ∀ {key parked'}, Function.update pending (proposer, blkId, d) none key =
          some parked' → pending key = some parked' := by
        intro key parked' hkey
        by_cases hk : key = (proposer, blkId, d)
        · rw [hk, Function.update_self] at hkey
          exact absurd hkey (by simp)
        · rwa [Function.update_of_ne hk] at hkey
      obtain ⟨hP', -⟩ := foldlM_invariant (fun acc => P acc.1 ∧ ∀ t ∈ acc.2, Q t)
        (fun acc idx acc' hacc hstep => recheckTxn_rule hK hacc.1 hacc.2 hstep)
        ⟨hP, hQ d (Nat.lt_succ_self d) parked hparked⟩ hacc
      obtain ⟨hP'', hpending, hgap⟩ := ih hP'
        (fun k hk parked' hparked' => hQ k (Nat.lt_succ_of_lt hk) parked' (hsame hparked')) h
      refine ⟨hP'', fun key parked' hkey => hsame (hpending key parked' hkey), fun hnone => ?_⟩
      obtain ⟨k, hk, hgone⟩ := hgap hnone
      refine ⟨k, Nat.lt_succ_of_lt hk, ?_⟩
      rwa [Function.update_of_ne (by simp; omega)] at hgone

/-- A block of positive depth that was not asked for: below it nothing is
parked. -/
def Unrequested (s : BlockManagement) (block : Block) : Prop :=
  ∃ d < block.depth, s.pendingBlks (block.proposer, block.id, d) = none

/-- The early return is taken: the first pass misses nothing, and the block was
not asked for. -/
def Dropped (ids : UniqueIds) (s : BlockManagement) (block : Block) : Prop :=
  (∃ f, block.txns.zipIdx.foldlM (filterTxn ids) ⟨(s.toProposalDag, []), [], [], []⟩ = .ok f ∧
    f.missingDeps = []) ∧ Unrequested s block

/-- What `validate_block` leaves: what `P` says of the pool and the DAG, with
`pending_frontier` in front of the frontier unless it was dropped. -/
structure BlockChecked (ids : UniqueIds) (P : ProposalDag × List Hash → Prop)
    (s : BlockManagement) (block : Block) (s' : BlockManagement) : Prop where
  frontier : ∃ pendingFrontier, P (s'.toProposalDag, pendingFrontier) ∧
    (s'.dagFrontier = pendingFrontier ++ s.dagFrontier ∨
      (s'.dagFrontier = s.dagFrontier ∧ Dropped ids s block))
  batch : s'.currBatch = s.currBatch
  parked : ∀ key parked, s'.pendingBlks key = some parked → s.pendingBlks key = some parked ∨
    ∀ t ∈ parked.txns, t ∈ block.txns ∨ t = .placeHolder

/-- **What `validate_block` can do.** -/
theorem validateBlock_rule (hK : Kept ids Q P) {s : BlockManagement} {block : Block}
    {v : Validated} (hP : P (s.toProposalDag, [])) (hblock : ∀ t ∈ block.txns, Q t)
    (hparked : ∀ d < block.depth, ∀ parked,
      s.pendingBlks (block.proposer, block.id, d) = some parked → ∀ t ∈ parked.txns, Q t)
    (h : validateBlock ids s block = .ok v) : BlockChecked ids P s block v.state := by
  unfold validateBlock at h
  rw [bind_eq_ok] at h
  obtain ⟨f, hf, h⟩ := h
  obtain ⟨hP', htxns⟩ := filterLoop_rule hK hblock hP (by simp) hf
  split at h
  · rw [← Except.ok.inj h]
    refine ⟨⟨f.dag.2, hP', Or.inl rfl⟩, rfl, fun key parked hkey => ?_⟩
    by_cases hk : key = (block.proposer, block.id, block.depth)
    · right
      rw [hk] at hkey
      dsimp only at hkey
      rw [Function.update_self, Option.some.injEq] at hkey
      rw [← hkey]
      exact htxns
    · left
      dsimp only at hkey
      rwa [Function.update_of_ne hk] at hkey
  · rename_i hmissing
    have hmissing : f.missingDeps = [] := by simpa using hmissing
    rw [bind_eq_ok] at h
    obtain ⟨⟨dag, pending, out⟩, hr, h⟩ := h
    obtain ⟨hP'', hpending, hgap⟩ := recheckBlks_rule hK hP' hparked hr
    cases out with
    | none =>
      rw [← Except.ok.inj h]
      exact ⟨⟨dag.2, hP'', Or.inr ⟨rfl, ⟨f, hf, hmissing⟩, hgap rfl⟩⟩, rfl, fun key parked hkey =>
        Or.inl (hpending key parked hkey)⟩
    | some out =>
      rw [← Except.ok.inj h]
      exact ⟨⟨dag.2, hP'', Or.inl rfl⟩, rfl, fun key parked hkey =>
        Or.inl (hpending key parked hkey)⟩

end Rule

/-! ## The stage with its blocks -/

/-- The stage, and the blocks it has made. -/
structure Proposals extends BlockManagement where
  ownBlocks : List Block

/-- The block a call makes. -/
def ownBlock (cfg : StageConfig) (s : BlockManagement) : Act → List Block
  | .getNewBlock =>
    match getNewBlock cfg.self s with
    | .ok r => [r.2]
    | .error _ => []
  | _ => []

/-- The stage as a machine that keeps the blocks it makes. -/
def proposing (ids : UniqueIds) (cfg : StageConfig) : Machine Proposals (Act × List Block) where
  start := ⟨.new, []⟩
  step s l s' := ∃ ord fuel,
    act ids cfg ord fuel s.toBlockManagement l.1 = .ok (s'.toBlockManagement, l.2) ∧
    s'.ownBlocks = s.ownBlocks ++ ownBlock cfg s.toBlockManagement l.1

/-- The ids of the transactions of all own blocks, and those of the current
batch. -/
def Proposals.proposed (ids : UniqueIds) (s : Proposals) : List Hash :=
  s.ownBlocks.flatMap (fun block => block.txns.map ids.txnId) ++ s.currBatch

/-- The parents of a transaction are a `Vec`, whose length is a `usize`. -/
def Sized (txn : AvalancheTxn) : Prop := txn.parents.length < 2 ^ 64

/-- The transactions a call brings are sized. -/
def BlockManagement.Act.Sized : Act → Prop
  | .recordNewTxn txn => Avalanche.Sized txn
  | .validateBlock block => ∀ t ∈ block.txns, Avalanche.Sized t
  | _ => True

/-- What every call keeps. -/
structure StageInv (ids : UniqueIds) (s : Proposals) : Prop where
  dag : DagInv ids (s.proposed ids) s.toProposalDag
  ready : Ready s.toProposalDag s.dagFrontier
  parked : ∀ key parked, s.pendingBlks key = some parked → ∀ t ∈ parked.txns, Sized t

/-- What a call does for the order of the proposals: who is behind a parent stays
so, and who comes in is behind the parents that are known. -/
structure Advance (ids : UniqueIds) (s s' : Proposals) : Prop where
  inv : StageInv ids s'
  keeps : ∀ p x, Behind (s.proposed ids) s.txnDag p x → Behind (s'.proposed ids) s'.txnDag p x
  fresh : ∀ t, s.txnPool (ids.txnId t) = none → s'.txnPool (ids.txnId t) = some t →
    ∀ p ∈ t.parents, (s'.txnPool p).isSome →
      Behind (s'.proposed ids) s'.txnDag p (ids.txnId t)

section Calls

variable {ids : UniqueIds} {s : Proposals}

theorem toNat_countP {dag : Hash → Option ProposalNode} {txn : AvalancheTxn} (h : Sized txn) :
    (UInt64.ofNat (txn.parents.countP fun p => (dag p).isSome)).toNat =
      txn.parents.countP fun p => (dag p).isSome :=
  UInt64.toNat_ofNat_of_lt' (Nat.lt_of_le_of_lt List.countP_le_length h)

/-- Counting to zero means that there is nothing to count. -/
theorem parents_of_countP {dag : Hash → Option ProposalNode} {txn : AvalancheTxn} (h : Sized txn)
    (hzero : UInt64.ofNat (txn.parents.countP fun p => (dag p).isSome) = 0) :
    ∀ p ∈ txn.parents, (dag p).isNone := by
  intro p hp
  have hcount : (txn.parents.countP fun p => (dag p).isSome) = 0 := by
    rw [← toNat_countP h, hzero]
    rfl
  have := List.countP_eq_zero.mp hcount p hp
  simpa using this

/-- Nothing of the DAG changes. -/
theorem StageInv.same (h : StageInv ids s) {s' : Proposals}
    (hdag : s'.toProposalDag = s.toProposalDag) (hproposed : s'.proposed ids = s.proposed ids)
    (hfrontier : s'.dagFrontier = s.dagFrontier) (hparked : s'.pendingBlks = s.pendingBlks) :
    Advance ids s s' where
  inv := by
    refine ⟨?_, ?_, ?_⟩
    · rw [hdag, hproposed]
      exact h.dag
    · rw [hdag, hfrontier]
      exact h.ready
    · rw [hparked]
      exact h.parked
  keeps p x hb := by
    rw [hdag, hproposed]
    exact hb
  fresh t hnone hsome := by
    rw [hdag, hnone] at hsome
    exact absurd hsome (by simp)

/-- What `record_new_txn` does: it ignores what it knows, and adds the rest with
the counter set to the number of listed parents. -/
theorem recordNewTxn_cases {s : BlockManagement} {txn : AvalancheTxn} {r : BlockManagement × Bool}
    (h : recordNewTxn ids s txn = .ok r) :
    ((s.txnPool (ids.txnId txn)).isSome ∧ r.1 = s) ∨
    (s.txnPool (ids.txnId txn) = none ∧ txn.fromClient ∧ r.1 = { s with
      toProposalDag := insertTxn ids s.toProposalDag txn (UInt64.ofNat txn.parents.length)
      dagFrontier :=
        if UInt64.ofNat (txn.parents.countP fun p => (s.txnDag p).isSome) = 0
        then s.dagFrontier ++ [ids.txnId txn] else s.dagFrontier }) := by
  unfold recordNewTxn at h
  dsimp only at h
  split at h
  · rename_i hknown
    exact Or.inl ⟨hknown, (congrArg Prod.fst (Except.ok.inj h)).symm⟩
  · rename_i hnew
    refine Or.inr ⟨by simpa using hnew, ?_⟩
    have hcount : (linkParents (ids.txnId txn) s.txnDag txn.parents).2 =
        UInt64.ofNat (txn.parents.countP fun p => (s.txnDag p).isSome) := by rw [linkParents_eq]
    cases txn with
    | noop => exact absurd h (by simp)
    | placeHolder => exact absurd h (by simp)
    | grant => rw [← Except.ok.inj h, ← hcount]; exact ⟨rfl, rfl⟩
    | send => rw [← Except.ok.inj h, ← hcount]; exact ⟨rfl, rfl⟩

theorem Advance.record (h : StageInv ids s) {txn : AvalancheTxn} (hsized : Sized txn)
    {r : BlockManagement × Bool} (hr : recordNewTxn ids s.toBlockManagement txn = .ok r) :
    Advance ids s ⟨r.1, s.ownBlocks⟩ := by
  rcases recordNewTxn_cases hr with ⟨-, hsame⟩ | ⟨hnew, -, hadded⟩
  · rw [hsame]
    exact h.same rfl rfl rfl rfl
  · rw [hadded]
    have hn : (txn.parents.countP fun p => (s.txnDag p).isSome) ≤
        (UInt64.ofNat txn.parents.length).toNat := by
      rw [UInt64.toNat_ofNat_of_lt' hsized]
      exact List.countP_le_length
    refine ⟨⟨h.dag.insert hnew hn, ?_, h.parked⟩, fun p x hb => hb.insert h.dag hnew _,
      fun t hnone hsome p hp hin => ?_⟩
    · have hold := h.ready.insert h.dag hnew (UInt64.ofNat txn.parents.length)
      dsimp only
      split
      · rename_i hzero
        have hself := ready_insert_self h.dag hnew (parents_of_countP hsized hzero)
          (UInt64.ofNat txn.parents.length)
        intro x hx
        rcases List.mem_append.mp hx with hx | hx
        · exact hold x hx
        · exact hself x hx
      · exact hold
    · have ht : t = txn := by
        by_contra hne
        have hne : ids.txnId t ≠ ids.txnId txn := fun e => hne (ids.txnId_inj e)
        have hsome : Function.update s.txnPool (ids.txnId txn) (some txn) (ids.txnId t) = some t :=
          hsome
        rw [Function.update_of_ne hne, hnone] at hsome
        exact absurd hsome (by simp)
      subst ht
      -- a transaction is not a parent of itself
      have hne : p ≠ ids.txnId t := by
        intro e
        have := ids.rank_parent t p hp
        rw [e] at this
        exact absurd this (Nat.lt_irrefl _)
      have hin : (Function.update s.txnPool (ids.txnId t) (some t) p).isSome := hin
      rw [Function.update_of_ne hne] at hin
      exact behind_insert_self h.dag hnew _ hp hin

/-- Calls after which the pool is the same. -/
theorem Advance.trans {s' s'' : Proposals} (h : Advance ids s s') (h' : Advance ids s' s'')
    (hpool : s''.txnPool = s'.txnPool) : Advance ids s s'' where
  inv := h'.inv
  keeps p x hb := h'.keeps p x (h.keeps p x hb)
  fresh t hnone hsome p hp hin := by
    rw [hpool] at hsome hin
    exact h'.keeps p _ (h.fresh t hnone hsome p hp hin)

/-- A stale entry of the frontier is dropped. -/
theorem StageInv.skip (h : StageInv ids s) {x : Hash} {rest : List Hash}
    (hfrontier : s.dagFrontier = x :: rest) :
    Advance ids s ⟨{ s.toBlockManagement with dagFrontier := rest }, s.ownBlocks⟩ where
  inv := by
    refine ⟨h.dag, fun y hy => h.ready y ?_, h.parked⟩
    rw [hfrontier]
    exact List.mem_cons_of_mem _ hy
  keeps p y hb := hb
  fresh t hnone hsome := absurd (hnone.symm.trans hsome) (by simp)

/-- A transaction is taken off the frontier. -/
theorem StageInv.take (h : StageInv ids s) {x : Hash} {rest : List Hash} {node : ProposalNode}
    (hfrontier : s.dagFrontier = x :: rest) (hnode : s.txnDag x = some node) (ord : HashOrder) :
    Advance ids s ⟨{ s.toBlockManagement with
      txnDag := (released ord s.txnDag x node rest).1
      dagFrontier := (released ord s.txnDag x node rest).2
      currBatch := s.currBatch ++ [x] }, s.ownBlocks⟩ := by
  have hready : Ready s.toProposalDag (x :: rest) := hfrontier ▸ h.ready
  have hfree := (hready x (List.mem_cons_self ..)).2
  have hrest : Ready s.toProposalDag rest := fun y hy => hready y (List.mem_cons_of_mem _ hy)
  have hproposed : Proposals.proposed ids ⟨{ s.toBlockManagement with
      txnDag := (released ord s.txnDag x node rest).1
      dagFrontier := (released ord s.txnDag x node rest).2
      currBatch := s.currBatch ++ [x] }, s.ownBlocks⟩ = s.proposed ids ++ [x] :=
    (List.append_assoc ..).symm
  refine ⟨⟨?_, hrest.take h.dag hnode hfree ord, h.parked⟩, fun p y hb => ?_,
    fun t hnone hsome => absurd (hnone.symm.trans hsome) (by simp)⟩
  · rw [hproposed]
    exact h.dag.take hnode hfree ord rest
  · rw [hproposed]
    exact hb.take h.dag hnode hfree ord rest

theorem Advance.prepare (h : StageInv ids s) {blkLen fuel : Nat} {ord : HashOrder}
    {r : BlockManagement × Bitcoin.CurBlockState}
    (hr : prepareNewBlock blkLen ord fuel s.toBlockManagement = .ok r) :
    Advance ids s ⟨r.1, s.ownBlocks⟩ := by
  refine prepareNewBlock_rule (fun s' => Advance ids s ⟨s', s.ownBlocks⟩) ?_ ?_
    (h.same rfl rfl rfl rfl) hr
  · exact fun s' x rest hs' hfrontier _ => hs'.trans (hs'.inv.skip hfrontier) rfl
  · exact fun s' x rest node hs' hfrontier hnode =>
      hs'.trans (hs'.inv.take hfrontier hnode ord) rfl

/-- What `get_new_block` does to the state. -/
theorem getNewBlock_eq {self : NodeId} {s : BlockManagement} {r : BlockManagement × Block}
    (hr : getNewBlock self s = .ok r) : r.1 = { s with
      currBatch := [], blkCounter := s.blkCounter + 1, blkQuota := s.blkQuota - 1 } := by
  unfold getNewBlock at hr
  split at hr
  · rw [bind_eq_ok] at hr
    obtain ⟨txns, -, hr⟩ := hr
    rw [← Except.ok.inj hr]
  · exact absurd hr (by simp)

theorem Advance.propose (h : StageInv ids s) {self : NodeId} {r : BlockManagement × Block}
    (hr : getNewBlock self s.toBlockManagement = .ok r) :
    Advance ids s ⟨r.1, s.ownBlocks ++ [r.2]⟩ := by
  unfold getNewBlock at hr
  split at hr
  · rw [bind_eq_ok] at hr
    obtain ⟨txns, htxns, hr⟩ := hr
    rw [← Except.ok.inj hr]
    refine h.same rfl ?_ rfl rfl
    have hids : txns.map ids.txnId = s.currBatch := by
      have hall := mapM_eq_some_iff.mp (unwrap_eq_ok.mp htxns)
      have hkey : ∀ h ∈ s.currBatch, (s.txnPool h).map ids.txnId = some h := by
        intro h' hh
        have hmem : s.txnPool h' ∈ txns.map some := hall ▸ List.mem_map_of_mem hh
        obtain ⟨t, -, ht⟩ := List.mem_map.mp hmem
        rw [← ht, Option.map_some, h.dag.filed h' t ht.symm]
      apply List.map_injective_iff.mpr (Option.some_injective Hash)
      calc (txns.map ids.txnId).map some
          = (txns.map some).map (Option.map ids.txnId) := by simp
        _ = s.currBatch.map fun h => (s.txnPool h).map ids.txnId := by rw [← hall]; simp
        _ = s.currBatch.map some := List.map_congr_left hkey
    unfold Proposals.proposed
    simp [hids]
  · exact absurd hr (by simp)

/-- What of the DAG `validate_block` works on, with `pending_frontier`. -/
structure Working (ids : UniqueIds) (s : Proposals) (m : ProposalDag × List Hash) : Prop where
  dag : DagInv ids (s.proposed ids) m.1
  pending : Ready m.1 m.2
  frontier : Ready m.1 s.dagFrontier
  keeps : ∀ p x, Behind (s.proposed ids) s.txnDag p x → Behind (s.proposed ids) m.1.txnDag p x
  fresh : ∀ t, s.txnPool (ids.txnId t) = none → m.1.txnPool (ids.txnId t) = some t →
    ∀ p ∈ t.parents, Behind (s.proposed ids) m.1.txnDag p (ids.txnId t)

/-- A transaction that passes `validate_txn` has all its parents in the pool. -/
theorem parents_of_valid {pool : Hash → Option AvalancheTxn} {t : AvalancheTxn}
    (hclient : t.fromClient) (h : validateTxn pool t = .ok (.ok true)) :
    ∀ p ∈ t.parents, (pool p).isSome := by
  cases t with
  | noop => exact absurd hclient (by simp [AvalancheTxn.fromClient])
  | placeHolder => exact absurd hclient (by simp [AvalancheTxn.fromClient])
  | grant => exact fun p hp => absurd hp (by simp [AvalancheTxn.parents])
  | send sender inUtxo receiver outUtxo remainder signature =>
    intro p hp
    have hp : p ∈ inUtxo := hp
    simp only [validateTxn] at h
    split at h
    · exact absurd h (by simp)
    · rename_i hlen
      by_contra hno
      have hmem : p ∈ inUtxo.filter fun h => (pool h).isNone :=
        List.mem_filter.mpr ⟨hp, by simpa using hno⟩
      have := List.length_pos_of_mem hmem
      omega

theorem addTxn_eq (ids : UniqueIds) (m : ProposalDag × List Hash) (t : AvalancheTxn) :
    addTxn ids m t = (insertTxn ids m.1 t (UInt64.ofNat (t.parents.countP fun p =>
      (m.1.txnDag p).isSome)), if UInt64.ofNat (t.parents.countP fun p =>
      (m.1.txnDag p).isSome) = 0 then m.2 ++ [ids.txnId t] else m.2) := by
  unfold addTxn insertTxn
  dsimp only
  rw [linkParents_eq]

theorem Working.add {m : ProposalDag × List Hash} (h : Working ids s m) {t : AvalancheTxn}
    (hsized : Sized t) (hnew : m.1.txnPool (ids.txnId t) = none) (hclient : t.fromClient)
    (hvalid : validateTxn m.1.txnPool t = .ok (.ok true)) : Working ids s (addTxn ids m t) := by
  rw [addTxn_eq]
  have hn : (t.parents.countP fun p => (m.1.txnDag p).isSome) ≤
      (UInt64.ofNat (t.parents.countP fun p => (m.1.txnDag p).isSome)).toNat :=
    (toNat_countP hsized).ge
  refine ⟨h.dag.insert hnew hn, ?_, h.frontier.insert h.dag hnew _,
    fun p x hb => (h.keeps p x hb).insert h.dag hnew _, fun t' hnone hsome p hp => ?_⟩
  · have hold := h.pending.insert h.dag hnew (UInt64.ofNat (t.parents.countP fun p =>
      (m.1.txnDag p).isSome))
    dsimp only
    split
    · rename_i hzero
      have hself := ready_insert_self h.dag hnew (parents_of_countP hsized hzero)
        (UInt64.ofNat (t.parents.countP fun p => (m.1.txnDag p).isSome))
      intro x hx
      rcases List.mem_append.mp hx with hx | hx
      · exact hold x hx
      · exact hself x hx
    · exact hold
  · by_cases ht : t' = t
    · subst ht
      exact behind_insert_self h.dag hnew _ hp (parents_of_valid hclient hvalid p hp)
    · have hne : ids.txnId t' ≠ ids.txnId t := fun e => ht (ids.txnId_inj e)
      have hsome : Function.update m.1.txnPool (ids.txnId t) (some t) (ids.txnId t') = some t' :=
        hsome
      rw [Function.update_of_ne hne] at hsome
      exact (h.fresh t' hnone hsome p hp).insert h.dag hnew _

theorem Working.push {m : ProposalDag × List Hash} (h : Working ids s m) {x : Hash}
    {node : ProposalNode} (hnode : m.1.txnDag x = some node) (hzero : node.numParents = 0) :
    Working ids s (m.1, m.2 ++ [x]) := by
  refine ⟨h.dag, fun y hy => ?_, h.frontier, h.keeps, h.fresh⟩
  rcases List.mem_append.mp hy with hy | hy
  · exact h.pending y hy
  · rw [List.mem_singleton.mp hy]
    refine ⟨(h.dag.cover x).mpr (Or.inl (by rw [hnode]; rfl)), h.dag.sound.free ?_⟩
    rw [view_count hnode, hzero]
    rfl

theorem working_start (h : StageInv ids s) : Working ids s (s.toProposalDag, []) := by
  refine ⟨h.dag, fun x hx => absurd hx (by simp), h.ready, fun p x hb => hb,
    fun t hnone hsome => ?_⟩
  have hsome : s.txnPool (ids.txnId t) = some t := hsome
  rw [hnone] at hsome
  exact absurd hsome (by simp)

theorem Advance.check (h : StageInv ids s) {block : Block}
    (hsized : ∀ t ∈ block.txns, Sized t) {v : Validated}
    (hv : validateBlock ids s.toBlockManagement block = .ok v) :
    Advance ids s ⟨v.state, s.ownBlocks⟩ := by
  have hK : Kept ids Sized (Working ids s) :=
    { add := fun m t hm ht hnew hclient hvalid => hm.add ht hnew hclient hvalid
      push := fun m x node hm hnode hzero => hm.push hnode hzero
      placeHolder := by simp [Sized, AvalancheTxn.parents] }
  obtain ⟨⟨pending, hw, hfrontier⟩, hbatch, hparked⟩ := validateBlock_rule hK
    (working_start h) hsized
    (fun d _ parked hp => h.parked _ parked hp) hv
  have hproposed : Proposals.proposed ids ⟨v.state, s.ownBlocks⟩ = s.proposed ids := by
    unfold Proposals.proposed
    rw [hbatch]
  refine ⟨⟨?_, ?_, fun key parked hkey t ht => ?_⟩, ?_, ?_⟩
  · rw [hproposed]
    exact hw.dag
  · show Ready v.state.toProposalDag v.state.dagFrontier
    rcases hfrontier with hfrontier | ⟨hfrontier, -⟩
    · rw [hfrontier]
      intro x hx
      rcases List.mem_append.mp hx with hx | hx
      · exact hw.pending x hx
      · exact hw.frontier x hx
    · rw [hfrontier]
      exact hw.frontier
  · rcases hparked key parked hkey with hold | hnew
    · exact h.parked key parked hold t ht
    · rcases hnew t ht with ht | rfl
      · exact hsized t ht
      · exact hK.placeHolder
  · rw [hproposed]
    exact hw.keeps
  · rw [hproposed]
    exact fun t hnone hsome p hp _ => hw.fresh t hnone hsome p hp

end Calls

/-- A call, by the function it runs and what becomes of the state and the own
blocks. -/
inductive Called (ids : UniqueIds) (cfg : StageConfig) (s : Proposals) : Act → Proposals → Prop
  | record {txn : AvalancheTxn} {r : BlockManagement × Bool} :
      recordNewTxn ids s.toBlockManagement txn = .ok r →
      Called ids cfg s (.recordNewTxn txn) ⟨r.1, s.ownBlocks⟩
  | prepare {ord : HashOrder} {fuel : Nat} {r : BlockManagement × Bitcoin.CurBlockState} :
      prepareNewBlock cfg.blkLen ord fuel s.toBlockManagement = .ok r →
      Called ids cfg s .prepareNewBlock ⟨r.1, s.ownBlocks⟩
  | propose {r : BlockManagement × Block} :
      getNewBlock cfg.self s.toBlockManagement = .ok r →
      Called ids cfg s .getNewBlock ⟨r.1, s.ownBlocks ++ [r.2]⟩
  | allow : Called ids cfg s .handlePmakerMsg ⟨handlePmakerMsg s.toBlockManagement, s.ownBlocks⟩
  | check {block : Block} {v : Validated} :
      validateBlock ids s.toBlockManagement block = .ok v →
      Called ids cfg s (.validateBlock block) ⟨v.state, s.ownBlocks⟩

theorem called_of_step {ids : UniqueIds} {cfg : StageConfig} {s s' : Proposals}
    {l : Act × List Block} (hstep : (proposing ids cfg).step s l s') :
    Called ids cfg s l.1 s' := by
  obtain ⟨ord, fuel, hact, hown⟩ := hstep
  obtain ⟨a, out⟩ := l
  obtain ⟨node', own'⟩ := s'
  dsimp only at hact hown
  subst hown
  cases a with
  | recordNewTxn txn =>
    obtain ⟨r, hr, hact⟩ := bind_eq_ok.mp hact
    obtain ⟨rfl, -⟩ := Prod.mk.inj (Except.ok.inj hact)
    rw [show ownBlock cfg s.toBlockManagement (.recordNewTxn txn) = [] from rfl, List.append_nil]
    exact .record hr
  | prepareNewBlock =>
    obtain ⟨r, hr, hact⟩ := bind_eq_ok.mp hact
    obtain ⟨rfl, -⟩ := Prod.mk.inj (Except.ok.inj hact)
    rw [show ownBlock cfg s.toBlockManagement .prepareNewBlock = [] from rfl, List.append_nil]
    exact .prepare hr
  | getNewBlock =>
    obtain ⟨r, hr, hact⟩ := bind_eq_ok.mp hact
    obtain ⟨rfl, -⟩ := Prod.mk.inj (Except.ok.inj hact)
    unfold ownBlock
    dsimp only
    rw [hr]
    exact .propose hr
  | handlePmakerMsg =>
    obtain ⟨rfl, -⟩ := Prod.mk.inj (Except.ok.inj hact)
    rw [show ownBlock cfg s.toBlockManagement .handlePmakerMsg = [] from rfl, List.append_nil]
    exact .allow
  | validateBlock block =>
    obtain ⟨v, hv, hact⟩ := bind_eq_ok.mp hact
    obtain ⟨rfl, -⟩ := Prod.mk.inj (Except.ok.inj hact)
    rw [show ownBlock cfg s.toBlockManagement (.validateBlock block) = [] from rfl,
      List.append_nil]
    exact .check hv

/-- **Every call keeps the order of the proposals.** -/
theorem step_advance {ids : UniqueIds} {cfg : StageConfig} {s s' : Proposals}
    {l : Act × List Block} (h : StageInv ids s) (hsized : l.1.Sized)
    (hstep : (proposing ids cfg).step s l s') : Advance ids s s' := by
  have hcall := called_of_step hstep
  obtain ⟨a, out⟩ := l
  cases hcall with
  | record hr => exact .record h hsized hr
  | prepare hr => exact .prepare h hr
  | propose hr => exact .propose h hr
  | allow => exact h.same rfl rfl rfl rfl
  | check hv => exact .check h hsized hv

theorem stageInv_new (ids : UniqueIds) : StageInv ids ⟨.new, []⟩ where
  dag :=
    { filed := fun h t ht => absurd ht (by simp [BlockManagement.new])
      cover := by simp [BlockManagement.new, Proposals.proposed]
      apart := by simp [BlockManagement.new, Proposals.proposed]
      nodup := by simp [BlockManagement.new, Proposals.proposed]
      sound :=
        { ends := fun p y hp => by
            obtain ⟨node, hnode, -⟩ := hp
            exact absurd hnode (by simp [BlockManagement.new])
          bound := fun y hy =>
            absurd hy (by simp [BlockManagement.new, view, Membership.mem, Set.Mem]) }
      parent := fun p y hp => by
        obtain ⟨node, hnode, -⟩ := hp
        exact absurd hnode (by simp [BlockManagement.new]) }
  ready x hx := absurd hx (by simp [BlockManagement.new])
  parked key parked hkey := absurd hkey (by simp [BlockManagement.new])

theorem stageInv_run {ids : UniqueIds} {cfg : StageConfig} {tr : List (Act × List Block)}
    {s : Proposals} (h : (proposing ids cfg).Run (fun _ l => l.1.Sized) tr s) : StageInv ids s :=
  h.invariant (StageInv ids) (stageInv_new ids) fun _ _ _ hs hsized hstep =>
    (step_advance hs hsized hstep).inv

/-! ## No counter underflows -/

/-- `releaseChild` as the debug profile compiles it: `num_parents -= 1` panics
at zero. -/
def releaseChildChecked (acc : (Hash → Option ProposalNode) × List Hash) (child : Hash) :
    Res ((Hash → Option ProposalNode) × List Hash) :=
  match acc.1 child with
  | none => .ok acc
  | some node => if node.numParents = 0 then .error .panic else .ok (releaseChild acc child)

/-- `prepare_new_block` with the subtraction checked. -/
def prepareNewBlockChecked (blkLen : Nat) (ord : HashOrder) :
    Nat → BlockManagement → Res (BlockManagement × Bitcoin.CurBlockState)
  | 0, _ => .error .diverge
  | fuel + 1, s =>
    if s.currBatch.length ≥ blkLen then .ok (s, .full)
    else match s.dagFrontier with
      | [] => .ok (s, .emptyMempool)
      | nextTxn :: rest =>
        match s.txnDag nextTxn with
        | none => prepareNewBlockChecked blkLen ord fuel { s with dagFrontier := rest }
        | some node =>
          (ord.iter node.children).foldlM releaseChildChecked
            (Function.update s.txnDag nextTxn none, rest) >>= fun released =>
          prepareNewBlockChecked blkLen ord fuel { s with
            txnDag := released.1
            dagFrontier := released.2
            currBatch := s.currBatch ++ [nextTxn] }

theorem releaseChildChecked_foldlM (l : List Hash) (hl : l.Nodup) :
    ∀ {dag : Hash → Option ProposalNode} {frontier : List Hash},
      (∀ c ∈ l, ∀ node, dag c = some node → node.numParents ≠ 0) →
      l.foldlM releaseChildChecked (dag, frontier) =
        .ok (l.foldl releaseChild (dag, frontier)) := by
  induction l with
  | nil => intro dag frontier _; rfl
  | cons c l ih =>
    intro dag frontier hpos
    obtain ⟨hc, hl⟩ := List.nodup_cons.mp hl
    have hstep : releaseChildChecked (dag, frontier) c = .ok (releaseChild (dag, frontier) c) := by
      unfold releaseChildChecked releaseChild
      dsimp only
      cases hdag : dag c with
      | none => rfl
      | some node =>
        dsimp only
        rw [if_neg (hpos c (List.mem_cons_self ..) node hdag)]
    have hother : ∀ y ∈ l, (releaseChild (dag, frontier) c).1 y = dag y := by
      intro y hy
      have hne : y ≠ c := fun e => hc (e ▸ hy)
      unfold releaseChild
      dsimp only
      cases dag c with
      | none => rfl
      | some node => exact Function.update_of_ne hne ..
    rw [List.foldlM_cons, hstep]
    exact ih hl fun y hy node hnode =>
      hpos y (List.mem_cons_of_mem _ hy) node ((hother y hy).symm.trans hnode)

/-- In a state the stage can be in, the checks make no difference. -/
theorem prepareNewBlockChecked_eq {ids : UniqueIds} (blkLen : Nat) (ord : HashOrder)
    (own : List Block) : ∀ (fuel : Nat) {s : BlockManagement}, StageInv ids ⟨s, own⟩ →
      prepareNewBlockChecked blkLen ord fuel s = prepareNewBlock blkLen ord fuel s := by
  intro fuel
  induction fuel with
  | zero => intro s _; rfl
  | succ fuel ih =>
    intro s h
    rw [prepareNewBlockChecked, prepareNewBlock]
    split
    · rfl
    · rename_i hroom
      cases hfrontier : s.dagFrontier with
      | nil => rfl
      | cons x rest =>
        dsimp only
        cases hnode : s.txnDag x with
        | none => exact ih (h.skip hfrontier).inv
        | some node =>
          have hpos : ∀ c ∈ ord.iter node.children, ∀ child,
              Function.update s.txnDag x none c = some child → child.numParents ≠ 0 := by
            intro c hc child hchild hzero
            have hheld := (view_holds hnode c).mpr ((ord.mem ..).mp hc)
            have hcount := h.dag.sound.count_pos hheld
            by_cases hcx : c = x
            · rw [hcx, Function.update_self] at hchild
              exact absurd hchild (by simp)
            · rw [Function.update_of_ne hcx] at hchild
              rw [view_count hchild, hzero] at hcount
              exact absurd hcount (by simp)
          dsimp only
          rw [releaseChildChecked_foldlM _ (ord.nodup _) hpos]
          exact ih (h.take hfrontier hnode ord).inv

/-! ## Runs that can be computed -/

/-- A sequence of calls, one after the other. -/
def calls (ids : UniqueIds) (cfg : StageConfig) (fuel : Nat) (s : Proposals) (acts : List Act) :
    Res Proposals :=
  acts.foldlM
    (fun s a => act ids cfg .sorted fuel s.toBlockManagement a >>= fun r =>
      .ok ⟨r.1, s.ownBlocks ++ ownBlock cfg s.toBlockManagement a⟩) s

/-- Calls that return are a run. -/
theorem run_calls {ids : UniqueIds} {cfg : StageConfig} {fuel : Nat} {P : Act → Prop}
    {acts : List Act} : ∀ {tr : List (Act × List Block)} {s s' : Proposals},
      (proposing ids cfg).Run (fun _ l => P l.1) tr s → (∀ a ∈ acts, P a) →
      calls ids cfg fuel s acts = .ok s' →
      ∃ tr', (proposing ids cfg).Run (fun _ l => P l.1) (tr ++ tr') s' ∧
        tr'.map Prod.fst = acts := by
  induction acts with
  | nil =>
    intro tr s s' hrun _ h
    rw [← Except.ok.inj h]
    exact ⟨[], by rwa [List.append_nil], rfl⟩
  | cons a acts ih =>
    intro tr s s' hrun hP h
    unfold calls at h
    rw [List.foldlM_cons, bind_eq_ok] at h
    obtain ⟨s₁, hs₁, h⟩ := h
    obtain ⟨r, hr, hs₁⟩ := bind_eq_ok.mp hs₁
    rw [← Except.ok.inj hs₁] at h
    have hrun' := hrun.snoc (i := (a, r.2)) (hP a (List.mem_cons_self ..))
      (⟨.sorted, fuel, hr, rfl⟩ : (proposing ids cfg).step s (a, r.2)
        ⟨r.1, s.ownBlocks ++ ownBlock cfg s.toBlockManagement a⟩)
    obtain ⟨tr', htr', hacts⟩ := ih hrun' (fun a ha => hP a (List.mem_cons_of_mem _ ha)) h
    refine ⟨(a, r.2) :: tr', ?_, by rw [List.map_cons, hacts]⟩
    rwa [List.append_assoc] at htr'

/-! ## The result -/

/-- **Own blocks hold no transaction twice, and parents first.** In every run no
id repeats among the own blocks and the current batch; a transaction that is
there comes after each of its parents that the pool had by the end of the call
that brought it, so after each one the pool had when it was added; and no
counter underflows in `prepare_new_block`. -/
theorem proposals_ordered (ids : UniqueIds) (cfg : StageConfig) {tr : List (Act × List Block)}
    {s : Proposals} (h : (proposing ids cfg).Run (fun _ l => l.1.Sized) tr s) :
    (s.proposed ids).Nodup ∧
    (∀ tr₁ l tr₂ s₁ s₂, tr = tr₁ ++ l :: tr₂ →
      (proposing ids cfg).Run (fun _ l => l.1.Sized) tr₁ s₁ → (proposing ids cfg).step s₁ l s₂ →
      (proposing ids cfg).Path (fun _ l => l.1.Sized) s₂ tr₂ s →
      ∀ t, s₁.txnPool (ids.txnId t) = none → s₂.txnPool (ids.txnId t) = some t →
        ids.txnId t ∈ s.proposed ids →
        ∀ p ∈ t.parents, (s₂.txnPool p).isSome → [p, ids.txnId t].Sublist (s.proposed ids)) ∧
    ∀ ord fuel, prepareNewBlockChecked cfg.blkLen ord fuel s.toBlockManagement =
      prepareNewBlock cfg.blkLen ord fuel s.toBlockManagement := by
  have hinv := stageInv_run h
  refine ⟨hinv.dag.nodup, ?_, fun ord fuel =>
    prepareNewBlockChecked_eq cfg.blkLen ord s.ownBlocks fuel hinv⟩
  intro tr₁ l tr₂ s₁ s₂ htr hrun hstep hpath t hnone hsome hmem p hp hin
  have hsized : l.1.Sized := h.labels l (by simp [htr])
  have hadv := step_advance (stageInv_run hrun) hsized hstep
  obtain ⟨hinv', hbehind⟩ := hpath.invariant
    (fun s => StageInv ids s ∧ Behind (s.proposed ids) s.txnDag p (ids.txnId t))
    (fun s l s' hs hsized hstep => by
      have hadv := step_advance hs.1 hsized hstep
      exact ⟨hadv.inv, hadv.keeps _ _ hs.2⟩)
    ⟨hadv.inv, hadv.fresh t hnone hsome p hp hin⟩
  rcases hbehind with ⟨hwaits, -⟩ | hdone
  · rw [hinv'.dag.apart _ hmem] at hwaits
    exact absurd hwaits (by simp)
  · exact hdone

/-- A grant, and a payment of all it is worth. -/
def orderedGrant : AvalancheTxn := .grant 10 [1] 0

def orderedPay : AvalancheTxn := .send [1] [codeTxn orderedGrant] [2] 4 6 []

/-- The payment comes in a block of a peer after the grant was recorded, and is
proposed after it. -/
theorem proposals_ordered_demo : ∃ tr s,
    (proposing .coded ⟨0, 2⟩).Run (fun _ l => l.1.Sized) tr s ∧
    tr.map Prod.fst = [.recordNewTxn orderedGrant, .validateBlock ⟨1, 0, 0, [orderedPay]⟩,
      .prepareNewBlock, .handlePmakerMsg, .getNewBlock] ∧
    (s.proposed .coded).Nodup ∧ s.proposed .coded = [codeTxn orderedGrant, codeTxn orderedPay] := by
  have hcalls : returns (calls .coded ⟨0, 2⟩ 3 ⟨.new, []⟩
      [.recordNewTxn orderedGrant, .validateBlock ⟨1, 0, 0, [orderedPay]⟩, .prepareNewBlock,
        .handlePmakerMsg, .getNewBlock])
      (fun s => s.proposed .coded = [codeTxn orderedGrant, codeTxn orderedPay]) = true := by
    decide +kernel
  obtain ⟨s, hs, hproposed⟩ := returns_iff.mp hcalls
  obtain ⟨tr, hrun, hacts⟩ := run_calls (P := Act.Sized) .nil (by
    simp [Act.Sized, Sized, AvalancheTxn.parents, orderedGrant, orderedPay]) hs
  exact ⟨tr, s, hrun, hacts, (proposals_ordered .coded ⟨0, 2⟩ hrun).1, by simpa using hproposed⟩

end Copycat.Avalanche
