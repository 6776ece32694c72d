import Copycat.Bitcoin.Mempool

/-!
# Recorded transactions are not lost

A recorded transaction waits in `pending_txns`, stands in the block under
construction, or is on the main chain: `Covered`. No call takes a transaction
out of these three places (`covered_step`): a reorganisation puts back what it
undoes, and what it drops from the queue is on the new branch.

A transaction can fail to get into one of them. `record_new_txn` ignores
what is in `txn_pool` already, and `validate_block` fills `txn_pool` before it
knows what becomes of the block. `Unfiltered` says that no call runs into that,
`recorded_txns_kept` is what holds then, and `recorded_txn_lost` the shortest
run in which it does not.
-/

namespace Copycat.Bitcoin

open Copycat.Lib

variable {ids : IdScheme} {cfg : Config}

/-- The id is queued, under construction, or on the main chain. -/
def Covered (ids : IdScheme) (s : BlockManagement) (x : Hash) : Prop :=
  x ∈ s.pendingTxns ∨ x ∈ s.blockUnderConstruction ∨
    ∃ p, PathTo s.blockPool s.chainTail p ∧ x ∈ txnIds ids (chainTxns p)

/-- What is recorded is new to `txn_pool`, or in one of the three places. -/
def Unfiltered (cfg : Config) (s : BlockManagement) (l : Label) : Prop :=
  ∀ t, l.1 = .recordNewTxn t → (s.txnPool (cfg.ids.txnId t)).isSome →
    Covered cfg.ids s (cfg.ids.txnId t)

/-! ## Reorganisations -/

theorem mem_undoTxns {txns : List BitcoinTxn} {t : BitcoinTxn} (hplain : t.isIncentive = false) :
    ∀ {u : Undo}, t ∈ txns ∨ ids.txnId t ∈ u.undoTxns →
      ids.txnId t ∈ (txns.foldl (undoTxn ids) u).undoTxns := by
  induction txns with
  | nil =>
    intro u h
    exact h.resolve_left (by simp)
  | cons x txns ih =>
    intro u h
    rw [List.foldl_cons]
    refine ih ?_
    have hstep : ids.txnId t ∈ u.undoTxns → ids.txnId t ∈ (undoTxn ids u x).undoTxns := by
      intro hmem
      unfold undoTxn
      dsimp only
      split
      · exact hmem
      · exact Finset.mem_insert_of_mem hmem
    rcases h with h | h
    · rcases List.mem_cons.mp h with rfl | h
      · right
        unfold undoTxn
        simp [hplain]
      · exact Or.inl h
    · exact Or.inr (hstep h)

/-- What the redo loop takes out of `undo_txns`, and what it lists as applied,
is on the branch. -/
theorem redo_places {U : Finset Utxo} {txns : List BitcoinTxn} :
    ∀ {r r' : Redo}, txns.foldlM (redoTxn ids U) r = some r' →
      (∀ x ∈ r.undoTxns, x ∈ r'.undoTxns ∨ x ∈ txnIds ids txns) ∧
      (∀ x ∈ r'.txnsApplied, x ∈ r.txnsApplied ∨ x ∈ txnIds ids txns) := by
  induction txns with
  | nil =>
    intro r r' h
    have he : r = r' := Option.some.inj h
    subst he
    exact ⟨fun x hx => Or.inl hx, fun x hx => Or.inl hx⟩
  | cons t txns ih =>
    intro r r' h
    rw [List.foldlM_cons] at h
    obtain ⟨r₁, hr₁, h⟩ := Option.bind_eq_some_iff.mp h
    obtain ⟨hundo, happlied⟩ := ih h
    obtain ⟨d, -, hr₁⟩ := Option.bind_eq_some_iff.mp hr₁
    have hcons : ∀ x, x ∈ txnIds ids (t :: txns) ↔ x = ids.txnId t ∨ x ∈ txnIds ids txns := by
      intro x
      exact List.mem_cons
    split at hr₁
    · have hr₁ := Option.some.inj hr₁
      subst hr₁
      constructor
      · intro x hx
        rw [hcons]
        by_cases hxt : x = ids.txnId t
        · exact Or.inr (Or.inl hxt)
        · have hkeep : x ∈ (if t.isIncentive then r.undoTxns
              else r.undoTxns.erase (ids.txnId t)) := by
            split
            · exact hx
            · exact Finset.mem_erase.mpr ⟨hxt, hx⟩
          rcases hundo x hkeep with h | h
          · exact Or.inl h
          · exact Or.inr (Or.inr h)
      · intro x hx
        rw [hcons]
        rcases happlied x hx with h | h
        · dsimp only at h
          split at h
          · exact Or.inl h
          · rcases Finset.mem_insert.mp h with h | h
            · exact Or.inr (Or.inl h)
            · exact Or.inl h
        · exact Or.inr (Or.inr h)
    · exact absurd hr₁ (by simp)

/-- Moving over keeps every transaction in one of the three places. -/
theorem covered_moveOver (ord : HashOrder) {s : BlockManagement} {newTail : Hash}
    {anc new old : List Block} {rd : Redo}
    (hnew : PathTo s.blockPool newTail (anc ++ new))
    (hrd : redoBranch ids s.utxo old new = some rd) {t : BitcoinTxn}
    (hplain : t.isIncentive = false)
    (h : ids.txnId t ∈ s.pendingTxns ∨ ids.txnId t ∈ s.blockUnderConstruction ∨
      ids.txnId t ∈ txnIds ids (chainTxns (anc ++ old))) :
    Covered ids (moveOver ord s newTail rd) (ids.txnId t) := by
  unfold redoBranch at hrd
  dsimp only at hrd
  rw [redoChain_eq, undoChain_eq] at hrd
  obtain ⟨hundo, happlied⟩ := redo_places hrd
  by_cases hon : ids.txnId t ∈ txnIds ids (chainTxns (anc ++ new))
  · exact Or.inr (Or.inr ⟨_, hnew, hon⟩)
  · rw [chainTxns_append, txnIds_append, List.mem_append] at hon
    push Not at hon
    refine Or.inl ((mem_pending_moveOver ord newTail).mpr ⟨?_, fun happ => ?_⟩)
    · rcases h with h | h | h
      · exact Or.inl (List.mem_append_right _ h)
      · exact Or.inl (List.mem_append_left _ h)
      · rw [chainTxns_append, txnIds_append, List.mem_append] at h
        rcases h with h | h
        · exact absurd h hon.1
        · have hmem : ids.txnId t ∈
              ((chainTxns old).reverse.foldl (undoTxn ids) ⟨⟨∅, ∅⟩, ∅⟩).undoTxns :=
            mem_undoTxns hplain (Or.inl (List.mem_reverse.mpr (mem_txnIds.mp h)))
          exact Or.inr ((hundo _ hmem).resolve_right hon.2)
    · rcases happlied _ happ with h | h
      · exact absurd h (by simp)
      · exact hon.2 h

/-! ## The calls -/

/-- A call that leaves the chain, and at most moves ids to the block under
construction. -/
theorem Covered.mono {s s' : BlockManagement} {x : Hash} (h : Covered ids s x)
    (hqueue : x ∈ s.blockUnderConstruction ++ s.pendingTxns →
      x ∈ s'.blockUnderConstruction ++ s'.pendingTxns)
    (hext : Extends s.blockPool s'.blockPool) (htail : s'.chainTail = s.chainTail) :
    Covered ids s' x := by
  have hplace : x ∈ s'.blockUnderConstruction ++ s'.pendingTxns → Covered ids s' x := by
    intro hx
    rcases List.mem_append.mp hx with hx | hx
    · exact Or.inr (Or.inl hx)
    · exact Or.inl hx
  rcases h with h | h | ⟨p, hp, h⟩
  · exact hplace (hqueue (List.mem_append_right _ h))
  · exact hplace (hqueue (List.mem_append_left _ h))
  · refine Or.inr (Or.inr ⟨p, ?_, h⟩)
    rw [htail]
    exact hp.mono hext

/-- No call takes a transaction out of the three places. -/
theorem covered_step {s s' : BlockManagement} {l : Label} (hchain : ChainInv cfg.ids s)
    (hinv : QueueInv cfg.ids s) (hfresh : FreshId cfg s l) (h : Step cfg s l s')
    {t : BitcoinTxn} (hplain : t.isIncentive = false) (hcov : Covered cfg.ids s (cfg.ids.txnId t)) :
    Covered cfg.ids s' (cfg.ids.txnId t) := by
  have hrefl : ∀ pool : Hash → Option (Block × Nat), Extends pool pool :=
    fun _ _ b n hb => ⟨n, hb⟩
  cases h with
  | record txn =>
    unfold recordNewTxn
    dsimp only
    split
    · exact hcov
    · refine hcov.mono (fun hx => ?_) (hrefl _) rfl
      rcases List.mem_append.mp hx with hx | hx
      · exact List.mem_append_left _ hx
      · exact List.mem_append_right _ (List.mem_append_left _ hx)
  | prepare h =>
    refine prepareNewBlock_invariant (fun s => Covered cfg.ids s (cfg.ids.txnId t)) ?_ ?_ h hcov
    · intro a b hb hcov
      obtain ⟨hpools, -, htail, hperm⟩ := build_perm hb
      refine hcov.mono (fun hx => hperm.mem_iff.mpr hx) ?_ htail
      rw [hpools]
      exact hrefl _
    · intro a hcov
      exact hcov
  | @mine _ block h =>
    obtain ⟨chainLength, root, -, htxns, hhdr, rfl⟩ := getNewBlock_cases h
    obtain ⟨hnone, -⟩ := hfresh rfl _ (List.mem_singleton.mpr rfl)
    have hext : Extends s.blockPool (mined cfg.ids s block chainLength).blockPool :=
      extends_insert hnone
    have hprev := prev_of_newHeader hhdr
    obtain ⟨p, hp⟩ := hchain.tail
    have hnew : PathTo (mined cfg.ids s block chainLength).blockPool
        (cfg.ids.blkId block.header) (p ++ [block]) :=
      .snoc (Function.update_self ..) (hprev ▸ hp.mono hext)
    have hids := (txnIds_of_mapM hinv.stored htxns).1
    rcases hcov with hx | hx | ⟨q, hq, hx⟩
    · exact Or.inl hx
    · refine Or.inr (Or.inr ⟨_, hnew, ?_⟩)
      rw [chainTxns_append, chainTxns_singleton, txnIds_append, hids]
      exact List.mem_append_right _ hx
    · refine Or.inr (Or.inr ⟨_, hnew, ?_⟩)
      obtain rfl := hq.unique hchain.pools.keyed hp
      rw [chainTxns_append, txnIds_append]
      exact List.mem_append_left _ hx
  | @validate ord fuel block v h =>
    cases (validateBlock_spec ord hchain block).1 _ _ h with
    | ignored => exact hcov
    | rejected => exact hcov.mono (fun hx => hx) (hrefl _) rfl
    | parked hnone => exact hcov.mono (fun hx => hx) (extends_insert hnone) rfl
    | shorter hc => exact hcov.mono (fun hx => hx) hc.extends rfl
    | invalid hc => exact hcov.mono (fun hx => hx) hc.extends rfl
    | @adopted txnPool r anc new old rd hc hbr hrd =>
      refine covered_moveOver ord (s := { s with txnPool := txnPool, toPools := r.1 })
        hbr.newPath hrd hplain ?_
      rcases hcov with hx | hx | ⟨q, hq, hx⟩
      · exact Or.inl hx
      · exact Or.inr (Or.inl hx)
      · rw [(hq.mono hc.extends).unique (hc.pools hchain).keyed hbr.oldPath] at hx
        exact Or.inr (Or.inr hx)

/-! ## Runs -/

/-- What a run has to meet. -/
structure Unhidden (cfg : Config) (s : BlockManagement) (l : Label) : Prop where
  fresh : FreshId cfg s l
  plain : PlainRecord l
  unfiltered : Unfiltered cfg s l

/-- **No recorded transaction is lost**, in every state of a run in which
nothing recorded is in `txn_pool` alone. -/
theorem recorded_txns_kept (cfg : Config) {tr : List Label} {s : BlockManagement}
    (h : (stage cfg).Run (Unhidden cfg) tr s) {t : BitcoinTxn}
    (ht : ∃ l ∈ tr, l.1 = .recordNewTxn t) :
    cfg.ids.txnId t ∈ s.pendingTxns ∨ cfg.ids.txnId t ∈ s.blockUnderConstruction ∨
      ∃ p, PathTo s.blockPool s.chainTail p ∧ ∃ b ∈ p, t ∈ b.txns := by
  have hinv := h.invariant_trace (fun tr s => ChainInv cfg.ids s ∧ QueueInv cfg.ids s ∧
      ∀ t, (∃ l ∈ tr, l.1 = .recordNewTxn t) →
        t.isIncentive = false ∧ Covered cfg.ids s (cfg.ids.txnId t))
    ⟨chainInv_new, queueInv_new, fun t ht => absurd ht (by simp)⟩ ?_
  · rcases (hinv.2.2 t ht).2 with hx | hx | ⟨p, hp, hx⟩
    · exact Or.inl hx
    · exact Or.inr (Or.inl hx)
    · exact Or.inr (Or.inr ⟨p, hp, List.mem_flatMap.mp (mem_txnIds.mp hx)⟩)
  · intro tr s l s' hs hg hstep
    obtain ⟨hchain, hqueue, hall⟩ := hs
    refine ⟨chainInv_step hchain hg.fresh hstep, queueInv_step hchain hqueue hg.plain hstep,
      fun t ht => ?_⟩
    obtain ⟨l', hl', hcall⟩ := ht
    rcases List.mem_append.mp hl' with hl' | hl'
    · obtain ⟨hplain, hcov⟩ := hall t ⟨l', hl', hcall⟩
      exact ⟨hplain, covered_step hchain hqueue hg.fresh hstep hplain hcov⟩
    · rw [List.mem_singleton.mp hl'] at hcall
      refine ⟨hg.plain t hcall, ?_⟩
      -- the call that records it
      by_cases hknown : (s.txnPool (cfg.ids.txnId t)).isSome
      · exact covered_step hchain hqueue hg.fresh hstep (hg.plain t hcall)
          (hg.unfiltered t hcall hknown)
      · cases hstep with
        | record txn =>
          have he : txn = t := by simpa using hcall
          subst he
          unfold recordNewTxn
          dsimp only
          rw [if_neg hknown]
          exact Or.inl (List.mem_append_right _ (List.mem_singleton.mpr rfl))
        | _ => exact absurd hcall (by simp)

/-- A recorded grant leaves the queue when a peer block brings it. -/
theorem recorded_txns_kept_demo :
    ∃ s, (stage demo).Run (Unhidden demo) [(.recordNewTxn demoGrant, []),
        (.validateBlock (demoBlock [demoGrant]), [demoBlock [demoGrant]])] s ∧
      s.pendingTxns = [] ∧
      (demo.ids.txnId demoGrant ∈ s.pendingTxns ∨
        demo.ids.txnId demoGrant ∈ s.blockUnderConstruction ∨
        ∃ p, PathTo s.blockPool s.chainTail p ∧ ∃ b ∈ p, demoGrant ∈ b.txns) := by
  have hcheck : returns (validateBlock demo.ids .sorted 5
      (recordNewTxn demo.ids .new demoGrant).1 (demoBlock [demoGrant])) (fun v =>
        v.newTail = [demoBlock [demoGrant]] && v.state.pendingTxns = []) = true := by
    decide +kernel
  obtain ⟨v, hv, hcheck⟩ := returns_iff.mp hcheck
  rw [Bool.and_eq_true, decide_eq_true_eq, decide_eq_true_eq] at hcheck
  obtain ⟨htail, hnil⟩ := hcheck
  have hrecord : Unhidden demo .new (.recordNewTxn demoGrant, []) := by
    refine ⟨fun h => absurd h (by simp), fun t ht => ?_, fun t _ hknown => ?_⟩
    · have ht : demoGrant = t := by simpa using ht
      rw [← ht]
      rfl
    · exact absurd hknown (by simp [BlockManagement.new])
  have hvalidate : Unhidden demo (recordNewTxn demo.ids .new demoGrant).1
      (.validateBlock (demoBlock [demoGrant]), [demoBlock [demoGrant]]) :=
    ⟨fun h => absurd h (by simp), fun t ht => absurd ht (by simp),
      fun t ht => absurd ht (by simp)⟩
  have hstep : Step demo (recordNewTxn demo.ids .new demoGrant).1
      (.validateBlock (demoBlock [demoGrant]), [demoBlock [demoGrant]]) v.state :=
    step_of_validate demo hv htail
  have hrun : (stage demo).Run (Unhidden demo) [(.recordNewTxn demoGrant, []),
      (.validateBlock (demoBlock [demoGrant]), [demoBlock [demoGrant]])] v.state :=
    .snoc (.snoc .nil hrecord (Step.record _ _)) hvalidate hstep
  exact ⟨v.state, hrun, hnil, recorded_txns_kept demo hrun ⟨_, List.mem_cons_self .., rfl⟩⟩

/-- A block whose parent has not been seen. -/
def demoOrphan : Block where
  header := { proposer := 1, prevHash := 5, merkleRoot := 8, nonce := 1 }
  txns := [demoGrant]

/-- The orphan brings the grant before the client does: the grant is in
`txn_pool` and nowhere else. -/
theorem recorded_txn_lost :
    ∃ s, (stage demo).Run (fun s l => FreshId demo s l ∧ PlainRecord l)
        [(.validateBlock demoOrphan, []), (.recordNewTxn demoGrant, [])] s ∧
      demo.ids.txnId demoGrant ∉ s.pendingTxns ∧
      demo.ids.txnId demoGrant ∉ s.blockUnderConstruction ∧
      ∀ p, PathTo s.blockPool s.chainTail p → ∀ b ∈ p, demoGrant ∉ b.txns := by
  have hcheck : returns (validateBlock demo.ids .sorted 5 .new demoOrphan) (fun v =>
      v.newTail = [] &&
      (recordNewTxn demo.ids v.state demoGrant).1.pendingTxns = [] &&
      (recordNewTxn demo.ids v.state demoGrant).1.blockUnderConstruction = [] &&
      (recordNewTxn demo.ids v.state demoGrant).1.chainTail = 0) = true := by
    decide +kernel
  obtain ⟨v, hv, hcheck⟩ := returns_iff.mp hcheck
  simp only [Bool.and_eq_true, decide_eq_true_eq] at hcheck
  obtain ⟨⟨⟨hnil, hpending⟩, hbuild⟩, htail⟩ := hcheck
  have hstep : Step demo .new (.validateBlock demoOrphan, []) v.state :=
    step_of_validate demo hv hnil
  have hrun : (stage demo).Run (fun s l => FreshId demo s l ∧ PlainRecord l)
      [(.validateBlock demoOrphan, []), (.recordNewTxn demoGrant, [])]
      (recordNewTxn demo.ids v.state demoGrant).1 := by
    refine .snoc (.snoc .nil ⟨fun h => absurd h (by simp), fun t ht => absurd ht (by simp)⟩ hstep)
      ⟨fun h => absurd h (by simp), fun t ht => ?_⟩ (Step.record _ _)
    have ht : demoGrant = t := by simpa using ht
    rw [← ht]
    rfl
  refine ⟨_, hrun, by rw [hpending]; simp, by rw [hbuild]; simp, ?_⟩
  intro p hp b hb
  rw [htail] at hp
  rw [hp.unique (chainInv_run (fun _ _ hg => hg.1) hrun).pools.keyed .genesis] at hb
  exact absurd hb (by simp)

end Copycat.Bitcoin
