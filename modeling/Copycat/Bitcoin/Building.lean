import Copycat.Bitcoin.Outcomes
import Copycat.Bitcoin.Runs

/-!
# What block building and mining can do

The loop of `prepare_new_block` does one of two things to the state per
iteration: it includes the transaction at the front of the queue, or it sends
it to the back. `BuildStep` says so once, and `prepareNewBlock_invariant` is
the rule through which every fact about a prepared block goes. `getNewBlock_cases`
is the same for mining, which is a single assignment.

`ChainInv` is then an invariant of every call (`chainInv_step`), and
`bookkeeping_exact` reads off what it means for heights, orphans and the tail.
-/

namespace Copycat.Bitcoin

open Copycat.Lib

/-- One iteration of the loop of `prepare_new_block`. -/
inductive BuildStep (enumSize : Nat) : BlockManagement → BlockManagement → Prop
  | take {s : BlockManagement} {txnHash : Hash} {rest : List Hash} {txn : BitcoinTxn} :
      s.pendingTxns = txnHash :: rest → s.txnPool txnHash = some txn →
      txn.isIncentive = false → s.includable txn →
      BuildStep enumSize s (includeTxn enumSize { s with pendingTxns := rest } txnHash txn)
  | rotate {s : BlockManagement} {txnHash : Hash} {rest : List Hash} {txn : BitcoinTxn} :
      s.pendingTxns = txnHash :: rest → s.txnPool txnHash = some txn →
      txn.isIncentive = false → ¬ s.includable txn →
      BuildStep enumSize s { s with pendingTxns := rest ++ [txnHash] }

/-- The loop on a non-empty queue and a block that is not full. -/
theorem prepareLoop_step {enumSize fuel : Nat} {s : BlockManagement} {m : Bool} {txnHash : Hash}
    {rest : List Hash} {txn : BitcoinTxn} (hsize : ¬ s.blockSize > 0x100000)
    (hq : s.pendingTxns = txnHash :: rest) (htxn : s.txnPool txnHash = some txn)
    (hinc : txn.isIncentive = false) :
    prepareLoop enumSize (fuel + 1) s m =
      if s.includable txn then
        prepareLoop enumSize fuel
          (includeTxn enumSize { s with pendingTxns := rest } txnHash txn) true
      else prepareLoop enumSize fuel { s with pendingTxns := rest ++ [txnHash] } m := by
  rw [prepareLoop, if_neg hsize, hq]
  dsimp only
  rw [htxn]
  cases txn with
  | incentive o r => exact absurd hinc (by simp [BitcoinTxn.isIncentive])
  | send t => rfl
  | grant o r => rfl

/-- What every iteration preserves, the loop preserves. -/
theorem prepareLoop_invariant {enumSize : Nat} (Inv : BlockManagement → Prop)
    (hstep : ∀ s s', BuildStep enumSize s s' → Inv s → Inv s') :
    ∀ {fuel : Nat} {s s' : BlockManagement} {m m' : Bool} {c : CurBlockState},
      prepareLoop enumSize fuel s m = .ok (s', c, m') → Inv s → Inv s' := by
  intro fuel
  induction fuel with
  | zero => intro s s' m m' c h; exact absurd h (by simp [prepareLoop])
  | succ fuel ih =>
    intro s s' m m' c h hs
    by_cases hsize : s.blockSize > 0x100000
    · rw [prepareLoop, if_pos hsize] at h
      simp only [Except.ok.injEq, Prod.mk.injEq] at h
      exact h.1 ▸ hs
    cases hq : s.pendingTxns with
    | nil =>
      rw [prepareLoop, if_neg hsize, hq] at h
      simp only [Except.ok.injEq, Prod.mk.injEq] at h
      exact h.1 ▸ hs
    | cons txnHash rest =>
      cases htxn : s.txnPool txnHash with
      | none =>
        rw [prepareLoop, if_neg hsize, hq] at h
        simp only [htxn] at h
        exact absurd h (by simp)
      | some txn =>
        cases hinc : txn.isIncentive with
        | true =>
          rw [prepareLoop, if_neg hsize, hq] at h
          cases txn with
          | incentive o r => simp only [htxn] at h; exact absurd h (by simp)
          | send t => exact absurd hinc (by simp [BitcoinTxn.isIncentive])
          | grant o r => exact absurd hinc (by simp [BitcoinTxn.isIncentive])
        | false =>
          rw [prepareLoop_step hsize hq htxn hinc] at h
          split at h
          · exact ih h (hstep _ _ (.take hq htxn hinc ‹_›) hs)
          · exact ih h (hstep _ _ (.rotate hq htxn hinc ‹_›) hs)

/-- What every iteration and the setting of the timer preserve,
`prepare_new_block` preserves. -/
theorem prepareNewBlock_invariant {enumSize fuel : Nat} {root : Hash}
    (Inv : BlockManagement → Prop)
    (hstep : ∀ s s', BuildStep enumSize s s' → Inv s → Inv s')
    (htimer : ∀ s : BlockManagement, Inv s →
      Inv { s with merkleRoot := some root, powTime := true })
    {s s' : BlockManagement} {c : CurBlockState}
    (h : prepareNewBlock enumSize fuel root s = .ok (s', c)) (hs : Inv s) : Inv s' := by
  unfold prepareNewBlock at h
  rw [bind_eq_ok] at h
  obtain ⟨⟨s₁, c₁, m₁⟩, hloop, h⟩ := h
  have h₁ := prepareLoop_invariant Inv hstep hloop hs
  dsimp only at h
  split at h
  · simp only [Except.ok.injEq, Prod.mk.injEq] at h
    rw [← h.1]
    exact htimer s₁ h₁
  · simp only [Except.ok.injEq, Prod.mk.injEq] at h
    rw [← h.1]
    exact h₁

/-- Building a block touches neither the chain nor the stored transactions. -/
theorem prepareNewBlock_frame {enumSize fuel : Nat} {root : Hash} {s s' : BlockManagement}
    {c : CurBlockState} (h : prepareNewBlock enumSize fuel root s = .ok (s', c)) :
    s'.toPools = s.toPools ∧ s'.txnPool = s.txnPool ∧ s'.utxo = s.utxo ∧
      s'.chainTail = s.chainTail := by
  refine prepareNewBlock_invariant
    (fun x => x.toPools = s.toPools ∧ x.txnPool = s.txnPool ∧ x.utxo = s.utxo ∧
      x.chainTail = s.chainTail) ?_ (fun x hx => hx) h ⟨rfl, rfl, rfl, rfl⟩
  intro x x' hstep hx
  cases hstep with
  | take => exact hx
  | rotate => exact hx

/-- The state mining leaves behind. -/
def mined (ids : IdScheme) (s : BlockManagement) (block : Block) (chainLength : Nat) :
    BlockManagement :=
  { s with
    blockPool :=
      Function.update s.blockPool (ids.blkId block.header) (some (block, chainLength + 1))
    chainTail := ids.blkId block.header
    utxo := (s.utxo ∪ s.newUtxo) \ s.utxoSpent
    newUtxo := ∅
    utxoSpent := ∅
    blockUnderConstruction := []
    merkleRoot := none
    powTime := false
    blockSize := 0 }

theorem prev_of_newHeader {self : NodeId} {s : BlockManagement} {root : Hash} {block : Block}
    (h : block.header = newHeader self s root) : block.prev = s.chainTail := by
  rw [Block.prev, h]
  rfl

/-- Mining puts the block under construction on top of the tail. -/
theorem getNewBlock_cases {ids : IdScheme} {self : NodeId} {s s' : BlockManagement}
    {block : Block} (h : getNewBlock ids self s = .ok (s', block)) :
    ∃ chainLength root, getChainLength s = .ok chainLength ∧
      s.blockUnderConstruction.mapM s.txnPool = some block.txns ∧
      block.header = newHeader self s root ∧ s' = mined ids s block chainLength := by
  unfold getNewBlock at h
  rw [bind_eq_ok] at h
  obtain ⟨txns, htxns, h⟩ := h
  rw [bind_eq_ok] at h
  obtain ⟨root, hroot, h⟩ := h
  rw [bind_eq_ok] at h
  obtain ⟨chainLength, hlen, h⟩ := h
  dsimp only at h
  split at h
  · simp only [Except.ok.injEq, Prod.mk.injEq] at h
    obtain ⟨rfl, rfl⟩ := h
    exact ⟨chainLength, root, hlen, unwrap_eq_ok.mp htxns, rfl, rfl⟩
  · exact absurd h (by simp)

/-! ## The law of the chain over every call -/

variable {cfg : Config}

/-- A mined block has a known height and nothing waits for it. -/
theorem ChainInv.mined {s : BlockManagement} (hinv : ChainInv cfg.ids s) {block : Block}
    {chainLength : Nat} (hlen : getChainLength s = .ok chainLength)
    (hprev : block.prev = s.chainTail)
    (hfresh : s.blockPool (cfg.ids.blkId block.header) = none)
    (hchild : ∀ h b n, s.blockPool h = some (b, n) → b.prev ≠ cfg.ids.blkId block.header) :
    ChainInv cfg.ids (mined cfg.ids s block chainLength) := by
  obtain ⟨p, hp⟩ := hinv.tail
  rw [getChainLength_eq hinv.pools hp, Except.ok.injEq] at hlen
  subst hlen
  set h := cfg.ids.blkId block.header with hh
  have hself : block.prev ≠ h := by
    intro he
    have := cfg.ids.rank_prev block.header
    rw [← hh, ← he] at this
    exact absurd this (Nat.lt_irrefl _)
  have hext : Extends s.blockPool (Function.update s.blockPool h (some (block, p.length + 1))) :=
    extends_insert hfresh
  -- the height of the tail is the length of its path, so the child is one higher
  have hht : blkHeight s.blockPool block.prev = p.length + 1 := by
    rw [hprev]
    rcases hp.end_cases with ⟨h0, rfl⟩ | ⟨b, n, q, -, hb, -⟩
    · rw [blkHeight, if_pos h0]
      rfl
    · obtain ⟨hn, hpos⟩ := hp.height hinv.pools.keyed hinv.pools.heights hb
      rw [blkHeight, if_neg (hinv.pools.keyed.ne_zero hb), hb]
      dsimp only
      rw [if_pos hpos, hn]
  refine ⟨⟨keyed_insert hinv.pools.keyed, ?_, ?_, bounded_insert hinv.pools.bounded⟩,
    p ++ [block], ?_⟩
  · intro h' b' n' hb'
    show n' = blkHeight (Function.update s.blockPool h (some (block, p.length + 1))) b'.prev
    by_cases he : h' = h
    · have hb'' : block = b' ∧ p.length + 1 = n' := by
        simpa [Bitcoin.mined, ← hh, he] using hb'
      obtain ⟨rfl, rfl⟩ := hb''
      rw [blkHeight_insert hself, hht]
    · have hb'' : s.blockPool h' = some (b', n') := by
        simpa [Bitcoin.mined, ← hh, he] using hb'
      rw [blkHeight_insert (hchild h' b' n' hb'')]
      exact hinv.pools.heights h' b' n' hb''
  · intro q c
    show Listed s.orphanBlocks q c ↔
      ∃ b, Function.update s.blockPool h (some (block, p.length + 1)) c = some (b, 0) ∧ b.prev = q
    rw [hinv.pools.orphans]
    by_cases hc : c = h
    · subst hc
      simp [hfresh]
    · simp [hc]
  · refine .snoc (h := h) (n := p.length + 1) ?_ ?_
    · simp [Bitcoin.mined, ← hh]
    · rw [hprev]
      exact hp.mono hext

/-- Every way `validate_block` can end keeps the law. -/
theorem ChainInv.outcome {ids : IdScheme} {ord : HashOrder} {s : BlockManagement} {block : Block}
    {v : Validated} (hinv : ChainInv ids s) (h : Outcome ids ord s block v) :
    ChainInv ids v.state := by
  cases h with
  | ignored => exact hinv
  | rejected => exact ⟨hinv.pools, hinv.tail⟩
  | parked hfresh _ h0 =>
    obtain ⟨p, hp⟩ := hinv.tail
    exact ⟨hinv.pools.park hfresh h0, p, hp.mono (extends_insert hfresh)⟩
  | shorter hc hQ _ => exact ⟨hc.pools hinv, _, hQ⟩
  | invalid hc hbr _ => exact ⟨hc.pools hinv, _, hbr.oldPath⟩
  | adopted hc hbr _ => exact ⟨hc.pools hinv, _, hbr.newPath⟩

/-- Every call keeps the law of the chain. -/
theorem chainInv_step {s s' : BlockManagement} {l : Label} (hinv : ChainInv cfg.ids s)
    (hfresh : FreshId cfg s l) (h : Step cfg s l s') : ChainInv cfg.ids s' := by
  cases h with
  | record txn =>
    unfold recordNewTxn
    dsimp only
    split
    · exact hinv
    · exact ⟨hinv.pools, hinv.tail⟩
  | prepare h =>
    obtain ⟨hpools, -, -, htail⟩ := prepareNewBlock_frame h
    refine ⟨hpools ▸ hinv.pools, ?_⟩
    rw [hpools, htail]
    exact hinv.tail
  | mine h =>
    obtain ⟨chainLength, root, hlen, -, hhdr, rfl⟩ := getNewBlock_cases h
    obtain ⟨hnone, hchild⟩ := hfresh rfl _ (List.mem_singleton.mpr rfl)
    exact hinv.mined hlen (prev_of_newHeader hhdr) hnone hchild
  | @validate ord fuel block v h =>
    exact hinv.outcome ((validateBlock_spec ord hinv block).1 _ _ h)

/-- The law of the chain in every reachable state. -/
theorem chainInv_run {G : BlockManagement → Label → Prop} (hG : ∀ s l, G s l → FreshId cfg s l)
    {tr : List Label} {s : BlockManagement} (h : (stage cfg).Run G tr s) : ChainInv cfg.ids s :=
  h.invariant (ChainInv cfg.ids) chainInv_new fun _ _ _ hinv hg hstep =>
    chainInv_step hinv (hG _ _ hg) hstep

/-- **Height and orphan bookkeeping is exact.** In every reachable state a
pooled block has a positive height iff its whole path to the zero hash is
pooled, and its height is the length of that path; `orphan_blocks[p]` is the
set of pooled height-zero children of `p`; the tail is the zero hash or a
pooled block of known height. Hence `get_chain_length` returns, and so does
`validate_block` on every block, however the orphan sets are iterated. -/
theorem bookkeeping_exact (cfg : Config) {tr : List Label} {s : BlockManagement}
    (h : (stage cfg).Run (FreshId cfg) tr s) :
    (∀ hash b n, s.blockPool hash = some (b, n) →
      (0 < n ↔ ∃ p, PathTo s.blockPool hash p) ∧
      ∀ p, PathTo s.blockPool hash p → n = p.length) ∧
    (∀ p c, Listed s.orphanBlocks p c ↔ ∃ b, s.blockPool c = some (b, 0) ∧ b.prev = p) ∧
    (s.chainTail = 0 ∨ ∃ b n, s.blockPool s.chainTail = some (b, n) ∧ 0 < n) ∧
    (∃ n, getChainLength s = .ok n) ∧
    ∀ (ord : HashOrder) (block : Block), (∀ t ∈ block.txns, t.isIncentive = false) →
      ∃ N, ∀ fuel, N < fuel → ∃ v, validateBlock cfg.ids ord fuel s block = .ok v := by
  have hinv : ChainInv cfg.ids s := chainInv_run (fun _ _ hg => hg) h
  obtain ⟨q, hq⟩ := hinv.tail
  refine ⟨fun hash b n hb => ⟨height_pos_iff hinv.pools.keyed hinv.pools.heights hb,
      fun p hp => (hp.height hinv.pools.keyed hinv.pools.heights hb).1⟩,
    hinv.pools.orphans, ?_, ⟨_, getChainLength_eq hinv.pools hq⟩,
    fun ord block => (validateBlock_spec ord hinv block).2⟩
  rcases hq.end_cases with ⟨h0, -⟩ | ⟨b, n, p, -, hb, -⟩
  · exact Or.inl h0
  · exact Or.inr ⟨b, n, hb, (hq.height hinv.pools.keyed hinv.pools.heights hb).2⟩

/-- Two transactions recorded, a block prepared and mined: the run exists for
every guard that lets these calls through. -/
theorem demo_run {G : BlockManagement → Label → Prop} {t : BitcoinTxn}
    (ht : t = demoPay ∨ t = demoTwice)
    (hrec : ∀ s, G s (.recordNewTxn demoGrant, []) ∧ G s (.recordNewTxn t, []))
    (hprep : ∀ s, s.pendingTxns = [1, demo.ids.txnId t] → s.txnPool 1 = some demoGrant →
      s.txnPool (demo.ids.txnId t) = some t → G s (.prepareNewBlock 7, []))
    (hmine : ∀ s, (∀ h, s.blockPool h = none) → G s (.getNewBlock, [demoBlock [demoGrant, t]])) :
    ∃ s, (stage demo).Run G
      [(.recordNewTxn demoGrant, []), (.recordNewTxn t, []), (.prepareNewBlock 7, []),
        (.getNewBlock, [demoBlock [demoGrant, t]])] s ∧
      s.blockPool s.chainTail = some (demoBlock [demoGrant, t], 1) := by
  set s₂ := (recordNewTxn demo.ids (recordNewTxn demo.ids BlockManagement.new demoGrant).1 t).1
  have hcheck : returns (prepareNewBlock demo.enumSize 5 7 s₂) (fun r =>
      returns (getNewBlock demo.ids demo.self r.1) (fun q =>
        q.2 = demoBlock [demoGrant, t] &&
        q.1.blockPool q.1.chainTail = some (demoBlock [demoGrant, t], 1))) = true ∧
      s₂.pendingTxns = [1, demo.ids.txnId t] ∧ s₂.txnPool 1 = some demoGrant ∧
      s₂.txnPool (demo.ids.txnId t) = some t := by
    rcases ht with rfl | rfl
    · decide +kernel
    · decide +kernel
  obtain ⟨hcheck, hq, h1, h2⟩ := hcheck
  obtain ⟨⟨s₃, c⟩, hs₃, hcheck⟩ := returns_iff.mp hcheck
  obtain ⟨⟨s₄, b⟩, hs₄, hcheck⟩ := returns_iff.mp hcheck
  simp only [Bool.and_eq_true, decide_eq_true_eq] at hcheck
  obtain ⟨rfl, htail⟩ := hcheck
  have hpool : ∀ h, s₃.blockPool h = none := by
    intro h
    rw [(prepareNewBlock_frame hs₃).1]
    rcases ht with rfl | rfl <;> rfl
  refine ⟨s₄, ?_, htail⟩
  have hrun₂ : (stage demo).Run G [(.recordNewTxn demoGrant, []), (.recordNewTxn t, [])] s₂ :=
    .snoc (.snoc .nil (hrec _).1 (Step.record _ demoGrant)) (hrec _).2 (Step.record _ t)
  exact .snoc (.snoc hrun₂ (hprep _ hq h1 h2) (Step.prepare hs₃)) (hmine _ hpool) (Step.mine hs₄)

/-- The mined block of that run has height one, and its path is pooled. -/
theorem bookkeeping_exact_demo :
    ∃ s, (stage demo).Run (FreshId demo)
      [(.recordNewTxn demoGrant, []), (.recordNewTxn demoPay, []), (.prepareNewBlock 7, []),
        (.getNewBlock, [demoBlock [demoGrant, demoPay]])] s ∧
      s.blockPool s.chainTail = some (demoBlock [demoGrant, demoPay], 1) ∧
      ∃ p, PathTo s.blockPool s.chainTail p ∧ 1 = p.length := by
  obtain ⟨s, hrun, htail⟩ := demo_run (G := FreshId demo) (Or.inl rfl)
    (fun s => ⟨fun h => absurd h (by simp), fun h => absurd h (by simp)⟩)
    (fun s _ _ _ h => absurd h (by simp))
    (fun s hs _ b _ => ⟨hs _, fun h b n hb => absurd ((hs h).symm.trans hb) (by simp)⟩)
  obtain ⟨hpos, hlen⟩ := (bookkeeping_exact demo hrun).1 _ _ _ htail
  obtain ⟨p, hp⟩ := hpos.mp (by decide)
  exact ⟨s, hrun, htail, p, hp, hlen p hp⟩

end Copycat.Bitcoin
