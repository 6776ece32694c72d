import Copycat.Bitcoin.Outputs

/-!
# The longest valid chain

When a block connects a tree of waiting blocks, `validate_block` tries one
deepest block of that tree and returns as soon as the redo loop fails on its
branch. `Longest` is what one would like the tail to be: no pooled block with
a valid path is higher. It is kept by every call that meets `DeepestValid`:
if the tree that the peer block connects has a valid block above the current
chain, then the deepest blocks of that tree are valid.

`longest_valid_chain` is the result over runs. Without the condition it fails,
and `valid_block_left_behind` is the run: an invalid child that arrives before
its valid parent keeps the parent off the chain.
-/

namespace Copycat.Bitcoin

open Copycat.Lib

variable {ids : IdScheme} {cfg : Config}

/-- The path can be replayed from nothing, and all scripts succeed. -/
def ValidPath (ids : IdScheme) (p : List Block) : Prop :=
  (∃ S, replay ids ∅ (chainTxns p) = some S) ∧ ∀ t ∈ chainTxns p, t.scriptOk

/-- `c` is a deepest block of the tree that waits for `h`. -/
def Deepest (s : BlockManagement) (h c : Hash) : Prop :=
  ∃ d, Desc (Listed s.orphanBlocks) h d c ∧ ∀ e z, Desc (Listed s.orphanBlocks) h e z → e ≤ d

/-- If the peer block connects a block with a valid path that is longer than
the chain, the deepest blocks it connects have valid paths. -/
def DeepestValid (cfg : Config) (s : BlockManagement) (l : Label) : Prop :=
  ∀ block, l.1 = .validateBlock block → Connectable cfg.ids s block →
    ∀ p, PathTo s.blockPool s.chainTail p →
    ∀ d c q, Desc (Listed s.orphanBlocks) (cfg.ids.blkId block.header) d c →
      PathTo (withBlock cfg.ids s.blockPool block) c q → ValidPath cfg.ids q →
      p.length < q.length →
    ∀ c' q', Deepest s (cfg.ids.blkId block.header) c' →
      PathTo (withBlock cfg.ids s.blockPool block) c' q' → ValidPath cfg.ids q'

/-- No valid path is longer than the chain `p`. -/
def Longest (ids : IdScheme) (s : BlockManagement) (p : List Block) : Prop :=
  ∀ h q, PathTo s.blockPool h q → ValidPath ids q → q.length ≤ p.length

/-! ## Old and new paths -/

/-- A path to an entry that a call has left alone was there before. -/
theorem path_of_kept {s s' : Pools} (hinv : PoolInv ids s) (hinv' : PoolInv ids s')
    (hext : Extends s.blockPool s'.blockPool) {h : Hash}
    (hkeep : s'.blockPool h = s.blockPool h) {q : List Block} (hq : PathTo s'.blockPool h q) :
    PathTo s.blockPool h q := by
  rcases hq.end_cases with ⟨rfl, rfl⟩ | ⟨b, n, q', -, hb, -⟩
  · exact .genesis
  · have hpos := (hq.height hinv'.keyed hinv'.heights hb).2
    rw [hkeep] at hb
    obtain ⟨p, hp⟩ := (height_pos_iff hinv.keyed hinv.heights hb).mp hpos
    rwa [(hp.mono hext).unique hinv'.keyed hq] at hp

/-- A path of the connected pool is an old one, or leads to a block of the
connected tree. -/
theorem Connects.path_cases {s : BlockManagement} {block : Block}
    {txnPool : Hash → Option BitcoinTxn} {r : Pools × Hash × Nat} (hinv : ChainInv ids s)
    (hc : Connects ids s block txnPool r) {h : Hash} {q : List Block}
    (hq : PathTo r.1.blockPool h q) :
    PathTo s.blockPool h q ∨
      ∃ d, Desc (Listed s.orphanBlocks) (ids.blkId block.header) d h ∧
        q.length = blkHeight s.blockPool block.prev + d := by
  have hpools := hc.pools hinv
  rcases hq.end_cases with ⟨rfl, rfl⟩ | ⟨b, n, q', -, hb, -⟩
  · exact Or.inl .genesis
  · have hlen := (hq.height hpools.keyed hpools.heights hb).1
    rcases hc.updated.block_cases hinv.pools hb with
      ⟨rfl, -, rfl⟩ | ⟨-, d, hd, -, rfl⟩ | ⟨-, -, hb'⟩
    · exact Or.inr ⟨0, .refl _, by omega⟩
    · exact Or.inr ⟨d + 1, hd, by omega⟩
    · exact Or.inl (path_of_kept hinv.pools hpools hc.extends (hb.trans hb'.symm) hq)

/-! ## The calls -/

/-- Mining makes one path, and it is the chain. -/
theorem Longest.mined {s : BlockManagement} {p : List Block} (hinv : ChainInv ids s)
    (hp : PathTo s.blockPool s.chainTail p) (hlong : Longest ids s p) {block : Block} {n : Nat}
    (hinv' : ChainInv ids (mined ids s block n)) (hprev : block.prev = s.chainTail)
    (hfresh : s.blockPool (ids.blkId block.header) = none) :
    Longest ids (mined ids s block n) (p ++ [block]) := by
  intro h q hq hvalid
  have hext : Extends s.blockPool (Bitcoin.mined ids s block n).blockPool := extends_insert hfresh
  rw [List.length_append, List.length_singleton]
  by_cases hh : h = ids.blkId block.header
  · have hpool : (Bitcoin.mined ids s block n).blockPool h = some (block, n + 1) := by
      rw [hh]
      exact Function.update_self ..
    have hnew := PathTo.snoc hpool (hprev ▸ hp.mono hext)
    rw [hq.unique hinv'.pools.keyed hnew, List.length_append, List.length_singleton]
  · have hkeep : (Bitcoin.mined ids s block n).blockPool h = s.blockPool h :=
      Function.update_of_ne hh ..
    have := hlong h q (path_of_kept hinv.pools hinv'.pools hext hkeep hq) hvalid
    omega

/-- Parking a block makes no path. -/
theorem Longest.parked {s : BlockManagement} {p : List Block} (hchain : ChainInv ids s)
    (hlong : Longest ids s p) {block : Block}
    (hfresh : s.blockPool (ids.blkId block.header) = none)
    (h0 : blkHeight s.blockPool block.prev = 0) {h : Hash} {q : List Block}
    (hq : PathTo (Function.update s.blockPool (ids.blkId block.header) (some (block, 0))) h q)
    (hvalid : ValidPath ids q) : q.length ≤ p.length := by
  have hext : Extends s.blockPool
      (Function.update s.blockPool (ids.blkId block.header) (some (block, 0))) :=
    extends_insert hfresh
  have hpark := hchain.pools.park hfresh h0
  by_cases hh : h = ids.blkId block.header
  · -- the parked block has no path yet
    have hb : Function.update s.blockPool (ids.blkId block.header) (some (block, 0)) h
        = some (block, 0) := by
      rw [hh]
      exact Function.update_self ..
    exact absurd (hq.height hpark.keyed hpark.heights hb).2 (by omega)
  · refine hlong h q (path_of_kept hchain.pools hpark hext ?_ hq) hvalid
    exact Function.update_of_ne hh ..

/-- Connecting a block makes paths up to the deepest block it connects. -/
theorem Longest.connected {s : BlockManagement} {p P : List Block} (hchain : ChainInv ids s)
    (hlong : Longest ids s p) {block : Block} {txnPool : Hash → Option BitcoinTxn}
    {r : Pools × Hash × Nat} (hc : Connects ids s block txnPool r) (hle : p.length ≤ P.length)
    (hdeep : r.2.2 ≤ P.length) {h : Hash} {q : List Block} (hq : PathTo r.1.blockPool h q)
    (hvalid : ValidPath ids q) : q.length ≤ P.length := by
  rcases hc.path_cases hchain hq with hq | ⟨d, hd, hlen⟩
  · exact (hlong h q hq hvalid).trans hle
  · have := hc.updated.deepest d h hd
    omega

/-- Every way `validate_block` can end, where the deepest blocks are valid. -/
theorem Longest.outcome {ord : HashOrder} {s : BlockManagement} {block : Block} {v : Validated}
    {p : List Block} (hchain : ChainInv cfg.ids s) (hinv : OutputsInv cfg.ids s p)
    (hlong : Longest cfg.ids s p) (hrepeat : NoRepeat cfg s (.validateBlock block, v.newTail))
    (hdeep : DeepestValid cfg s (.validateBlock block, v.newTail))
    (h : Outcome cfg.ids ord s block v) :
    ∃ q, PathTo v.state.blockPool v.state.chainTail q ∧ Longest cfg.ids v.state q := by
  cases h with
  | ignored => exact ⟨p, hinv.path, hlong⟩
  | rejected _ htx => exact ⟨p, hinv.path, hlong⟩
  | parked hfresh _ h0 =>
    exact ⟨p, hinv.path.mono (extends_insert hfresh),
      fun h q hq hvalid => hlong.parked hchain hfresh h0 hq hvalid⟩
  | @shorter txnPool r Q hc hQ hle =>
    rw [hQ.unique (hc.pools hchain).keyed (hinv.path.mono hc.extends)] at hle
    exact ⟨p, hinv.path.mono hc.extends,
      fun h q hq hvalid => hlong.connected hchain hc (Nat.le_refl _) hle hq hvalid⟩
  | @invalid txnPool r anc new old hc hbr hrd =>
    refine ⟨p, hinv.path.mono hc.extends, fun h q hq hvalid => ?_⟩
    rcases hc.path_cases hchain hq with hq | ⟨d, hd, hlen⟩
    · exact hlong h q hq hvalid
    · by_contra hlt
      have hext := hc.extends_withBlock hchain
      obtain ⟨e, he, hheight⟩ := hc.updated.tail
      have hdeepest : Deepest s (cfg.ids.blkId block.header) r.2.1 := by
        refine ⟨e, he, fun e' z hz => ?_⟩
        have := hc.updated.deepest e' z hz
        omega
      -- the branch that was refused can be replayed
      obtain ⟨⟨S, hS⟩, hok⟩ := hdeep block rfl hc.connectable p hinv.path d h q hd
        (hq.mono hext) hvalid (by omega) r.2.1 (anc ++ new) hdeepest (hbr.newPath.mono hext)
      obtain rfl := (hinv.path.mono hc.extends).unique (hc.pools hchain).keyed hbr.oldPath
      obtain ⟨rd, hrd'⟩ := (redoBranch_tracked anc new old hinv.utxo
        (List.nodup_append.mp hinv.nodup).1
        (hrepeat block rfl hc.connectable _ _ (hbr.newPath.mono hext))).2 S hS (by
          intro t ht
          refine hok t ?_
          rw [chainTxns_append]
          exact List.mem_append_right _ ht)
      rw [hrd] at hrd'
      exact absurd hrd' (by simp)
  | @adopted txnPool r anc new old rd hc hbr hrd =>
    obtain ⟨P, x, hP, hlenP, -⟩ := hc.tail_path hchain
    have hpath := (hinv.path.mono hc.extends).unique (hc.pools hchain).keyed hbr.oldPath
    have htail := hbr.newPath.unique (hc.pools hchain).keyed hP
    have hlonger := hbr.longer
    refine ⟨anc ++ new, hbr.newPath, fun h q hq hvalid =>
      hlong.connected hchain hc ?_ (by rw [htail, hlenP]) hq hvalid⟩
    rw [hpath, List.length_append, List.length_append]
    omega

/-- Every call that meets the condition keeps the tail the longest valid
one. -/
theorem longest_step {s s' : BlockManagement} {l : Label} {p : List Block}
    (hchain : ChainInv cfg.ids s) (hinv : OutputsInv cfg.ids s p) (hlong : Longest cfg.ids s p)
    (hfresh : FreshId cfg s l) (hrepeat : NoRepeat cfg s l) (hdeep : DeepestValid cfg s l)
    (h : Step cfg s l s') :
    ∃ q, PathTo s'.blockPool s'.chainTail q ∧ Longest cfg.ids s' q := by
  have hchain' := chainInv_step hchain hfresh h
  cases h with
  | record txn =>
    unfold recordNewTxn
    dsimp only
    split
    · exact ⟨p, hinv.path, hlong⟩
    · exact ⟨p, hinv.path, hlong⟩
  | prepare h =>
    obtain ⟨hpool, -, -, htail⟩ := prepareNewBlock_frame h
    refine ⟨p, ?_, fun h q hq => ?_⟩
    · rw [hpool, htail]
      exact hinv.path
    · rw [hpool] at hq
      exact hlong h q hq
  | @mine _ block h =>
    obtain ⟨chainLength, root, -, -, hhdr, rfl⟩ := getNewBlock_cases h
    obtain ⟨hnone, -⟩ := hfresh rfl _ (List.mem_singleton.mpr rfl)
    have hprev := prev_of_newHeader hhdr
    refine ⟨_, ?_, hlong.mined hchain hinv.path hchain' hprev hnone⟩
    exact .snoc (Function.update_self ..) (hprev ▸ hinv.path.mono (extends_insert hnone))
  | @validate ord fuel block v h =>
    exact hlong.outcome hchain hinv hrepeat hdeep ((validateBlock_spec ord hchain block).1 _ _ h)

/-! ## Runs -/

/-- What a run has to meet: fresh ids for mined blocks, no `Incentive`, no
transaction twice on a path, and valid deepest blocks. -/
structure Meets (cfg : Config) (s : BlockManagement) (l : Label) : Prop where
  fresh : FreshId cfg s l
  plain : PlainRecord l
  noRepeat : NoRepeat cfg s l
  deepest : DeepestValid cfg s l

theorem longest_run {G : BlockManagement → Label → Prop} (hG : ∀ s l, G s l → Meets cfg s l)
    {tr : List Label} {s : BlockManagement} (h : (stage cfg).Run G tr s) :
    ChainInv cfg.ids s ∧ ∃ p, OutputsInv cfg.ids s p ∧ Longest cfg.ids s p := by
  refine h.invariant (fun s => ChainInv cfg.ids s ∧ ∃ p, OutputsInv cfg.ids s p ∧
    Longest cfg.ids s p) ⟨chainInv_new, [], outputsInv_new, ?_⟩ ?_
  · intro h q hq _
    rcases hq.end_cases with ⟨-, rfl⟩ | ⟨b, n, q', -, hb, -⟩
    · exact Nat.le_refl _
    · exact absurd hb (by simp [stage, BlockManagement.new])
  · intro s l s' hs hg hstep
    obtain ⟨hchain, p, hinv, hlong⟩ := hs
    have hm := hG s l hg
    have hchain' := chainInv_step hchain hm.fresh hstep
    obtain ⟨q, hq⟩ := outputsInv_step hchain hinv hm.fresh hm.plain hm.noRepeat hstep
    obtain ⟨q', hq', hlong'⟩ :=
      longest_step hchain hinv hlong hm.fresh hm.noRepeat hm.deepest hstep
    obtain rfl := hq.path.unique hchain'.pools.keyed hq'
    exact ⟨hchain', q, hq, hlong'⟩

/-- **The chain is a longest valid one.** In every state of a run whose calls
meet the condition, the chain length is at least the height of every pooled
block whose path from genesis is valid. -/
theorem longest_valid_chain (cfg : Config) {tr : List Label} {s : BlockManagement}
    (h : (stage cfg).Run (Meets cfg) tr s) :
    ∃ n, getChainLength s = .ok n ∧
      ∀ hash b m p, s.blockPool hash = some (b, m) → 0 < m → PathTo s.blockPool hash p →
        ValidPath cfg.ids p → m ≤ n := by
  obtain ⟨hchain, p, hinv, hlong⟩ := longest_run (fun _ _ hg => hg) h
  refine ⟨p.length, getChainLength_eq hchain.pools hinv.path, ?_⟩
  intro hash b m q hb _ hq hvalid
  rw [(hq.height hchain.pools.keyed hchain.pools.heights hb).1]
  exact hlong hash q hq hvalid

/-- A block for which nothing waits meets the condition. -/
theorem deepestValid_of_leaf {s : BlockManagement} {block : Block} {tail : List Block}
    (hchain : ChainInv cfg.ids s)
    (hleaf : ∀ c, ¬ Listed s.orphanBlocks (cfg.ids.blkId block.header) c) :
    DeepestValid cfg s (.validateBlock block, tail) := by
  intro block' hblock hfresh p _ d c q hd hq hvalid _ c' q' hdeep hq'
  have hblock : block = block' := by simpa using hblock
  subst hblock
  have honly : ∀ {e z}, Desc (Listed s.orphanBlocks) (cfg.ids.blkId block.header) e z →
      z = cfg.ids.blkId block.header := by
    intro e z hz
    cases hz with
    | refl => rfl
    | step hl _ => exact absurd hl (hleaf _)
  obtain ⟨e, he, -⟩ := hdeep
  rw [honly hd] at hq
  rw [honly he] at hq'
  rw [hq'.unique (keyed_insert hchain.pools.keyed) hq]
  exact hvalid

/-- A child of the empty first block, with a payment whose script fails. -/
def demoChild : Block where
  header := { proposer := 1, prevHash := 3250, merkleRoot := 8, nonce := 1 }
  txns := [demoGrant, demoFail]

/-- The ids the examples give to the two blocks. -/
theorem demo_blkId : demo.ids.blkId (demoBlock []).header = 3250 ∧
    demo.ids.blkId demoChild.header ≠ 3250 ∧ demo.ids.blkId demoChild.header ≠ 0 := by
  decide +kernel

/-- The paths of a pool that has a block, a child of it, and nothing else. -/
theorem two_block_paths (ids : IdScheme) {pool : Hash → Option (Block × Nat)}
    {a b : Block} (ha : a.prev = 0)
    (hb : b.prev = ids.blkId a.header) (hab : ids.blkId b.header ≠ ids.blkId a.header)
    (hpool : ∀ h x n, pool h = some (x, n) →
      (h = ids.blkId a.header ∧ x = a) ∨ (h = ids.blkId b.header ∧ x = b))
    {h : Hash} {p : List Block} (hp : PathTo pool h p) : p = [] ∨ p = [a] ∨ p = [a, b] := by
  have hzero : ∀ {p}, PathTo pool 0 p → p = [] := by
    intro p hp
    rcases hp.end_cases with ⟨-, rfl⟩ | ⟨x, n, q, -, hx, -⟩
    · rfl
    · rcases hpool 0 x n hx with ⟨h0, -⟩ | ⟨h0, -⟩
      · exact absurd h0.symm (ids.blkId_ne_zero _)
      · exact absurd h0.symm (ids.blkId_ne_zero _)
  have hfirst : ∀ {p}, PathTo pool (ids.blkId a.header) p → p = [a] := by
    intro p hp
    rcases hp.end_cases with ⟨h0, -⟩ | ⟨x, n, q, rfl, hx, hq⟩
    · exact absurd h0 (ids.blkId_ne_zero _)
    · rcases hpool _ x n hx with ⟨-, rfl⟩ | ⟨h0, -⟩
      · rw [ha] at hq
        rw [hzero hq]
        rfl
      · exact absurd h0.symm hab
  rcases hp.end_cases with ⟨-, rfl⟩ | ⟨x, n, q, rfl, hx, hq⟩
  · exact Or.inl rfl
  · rcases hpool _ x n hx with ⟨-, rfl⟩ | ⟨-, rfl⟩
    · rw [ha] at hq
      exact Or.inr (Or.inl (by rw [hzero hq]; rfl))
    · rw [hb] at hq
      exact Or.inr (Or.inr (by rw [hfirst hq]; rfl))

/-- The promise about repeated transactions, for the two blocks. -/
theorem demo_noRepeat {s : BlockManagement} {block : Block} {tail : List Block}
    (hblock : block = demoBlock [] ∨ block = demoChild)
    (hpool : ∀ h b n, s.blockPool h = some (b, n) → (h = 3250 ∧ b = demoBlock []) ∨
      (h = demo.ids.blkId demoChild.header ∧ b = demoChild)) :
    NoRepeat demo s (.validateBlock block, tail) := by
  intro block' hb _ h p hp
  have hb : block = block' := by simpa using hb
  subst hb
  have hpool' : ∀ h b n, withBlock demo.ids s.blockPool block h = some (b, n) →
      (h = demo.ids.blkId (demoBlock []).header ∧ b = demoBlock []) ∨
      (h = demo.ids.blkId demoChild.header ∧ b = demoChild) := by
    intro h b n hn
    unfold withBlock at hn
    by_cases hh : h = demo.ids.blkId block.header
    · rw [hh, Function.update_self, Option.some.injEq, Prod.mk.injEq] at hn
      rw [hh, ← hn.1]
      rcases hblock with rfl | rfl
      · exact Or.inl ⟨rfl, rfl⟩
      · exact Or.inr ⟨rfl, rfl⟩
    · rw [Function.update_of_ne hh] at hn
      rw [demo_blkId.1]
      exact hpool h b n hn
  rcases two_block_paths demo.ids rfl demo_blkId.1.symm
      (demo_blkId.1 ▸ demo_blkId.2.1) hpool' hp with
    rfl | rfl | rfl
  · decide +kernel
  · decide +kernel
  · decide +kernel

/-- What a fresh node has pooled after one of the two blocks. -/
theorem demo_pooled {ord : HashOrder} {fuel : Nat} {block : Block} {v : Validated}
    (h : validateBlock demo.ids ord fuel .new block = .ok v) :
    ∀ hash b n, v.state.blockPool hash = some (b, n) →
      hash = demo.ids.blkId block.header ∧ b = block := by
  intro hash b n hb
  have hout := (validateBlock_spec ord chainInv_new block).1 _ _ h
  rcases hout.pooled_cases chainInv_new hash b n hb with ⟨n', hn'⟩ | h
  · exact absurd hn' (by simp [BlockManagement.new])
  · exact h

/-- The empty block and then its invalid child: the child is refused, and the
chain has the empty block. -/
theorem longest_valid_chain_demo :
    ∃ s, (stage demo).Run (Meets demo) [(.validateBlock (demoBlock []), [demoBlock []]),
        (.validateBlock demoChild, [])] s ∧
      ∃ n, getChainLength s = .ok n ∧
        ∀ hash b m p, s.blockPool hash = some (b, m) → 0 < m → PathTo s.blockPool hash p →
          ValidPath demo.ids p → m ≤ n := by
  have hcheck : returns (validateBlock demo.ids .sorted 5 .new (demoBlock [])) (fun v =>
      v.newTail = [demoBlock []] &&
      returns (validateBlock demo.ids .sorted 5 v.state demoChild) (fun v' =>
        v'.newTail = [])) = true := by
    decide +kernel
  obtain ⟨v, hv, hcheck⟩ := returns_iff.mp hcheck
  rw [Bool.and_eq_true] at hcheck
  obtain ⟨htail, hcheck⟩ := hcheck
  obtain ⟨v', hv', hnil⟩ := returns_iff.mp hcheck
  have hpool := demo_pooled hv
  have hstep₁ : Step demo .new (.validateBlock (demoBlock []), [demoBlock []]) v.state :=
    step_of_validate demo hv (by simpa using htail)
  have hstep₂ : Step demo v.state (.validateBlock demoChild, []) v'.state :=
    step_of_validate demo hv' (by simpa using hnil)
  have hchain₁ : ChainInv demo.ids v.state :=
    chainInv_step chainInv_new (fun h => absurd h (by simp)) hstep₁
  have hmeets₁ : Meets demo .new (.validateBlock (demoBlock []), [demoBlock []]) :=
    ⟨fun h => absurd h (by simp), fun t h => absurd h (by simp),
      demo_noRepeat (Or.inl rfl) fun h b n hb => absurd hb (by simp [BlockManagement.new]),
      deepestValid_of_leaf chainInv_new fun c hc => by
        obtain ⟨S, hS, -⟩ := hc
        exact absurd hS (by simp [BlockManagement.new])⟩
  have hmeets₂ : Meets demo v.state (.validateBlock demoChild, []) := by
    refine ⟨fun h => absurd h (by simp), fun t h => absurd h (by simp),
      demo_noRepeat (Or.inr rfl) fun h b n hb => ?_, deepestValid_of_leaf hchain₁ fun c hc => ?_⟩
    · obtain ⟨hh, rfl⟩ := hpool h b n hb
      exact Or.inl ⟨hh.trans demo_blkId.1, rfl⟩
    · -- the empty block does not wait for the child
      obtain ⟨b, hb, hprev⟩ := (hchain₁.pools.orphans _ c).mp hc
      obtain ⟨-, rfl⟩ := hpool c b 0 hb
      exact demo_blkId.2.2 hprev.symm
  have hrun : (stage demo).Run (Meets demo) [(.validateBlock (demoBlock []), [demoBlock []]),
      (.validateBlock demoChild, [])] v'.state :=
    .snoc (.snoc .nil hmeets₁ hstep₁) hmeets₂ hstep₂
  exact ⟨v'.state, hrun, longest_valid_chain demo hrun⟩

/-- The invalid child before the empty block: the redo loop fails on the
child, and the node stays at genesis although the empty block is pooled at
height one with a valid path. -/
theorem valid_block_left_behind :
    ∃ s, (stage demo).Run (fun s l => FreshId demo s l ∧ PlainRecord l ∧ NoRepeat demo s l)
        [(.validateBlock demoChild, []), (.validateBlock (demoBlock []), [])] s ∧
      getChainLength s = .ok 0 ∧
      ∃ hash b p, s.blockPool hash = some (b, 1) ∧ PathTo s.blockPool hash p ∧
        ValidPath demo.ids p := by
  have hcheck : returns (validateBlock demo.ids .sorted 5 .new demoChild) (fun v =>
      v.newTail = [] &&
      returns (validateBlock demo.ids .sorted 5 v.state (demoBlock [])) (fun v' =>
        v'.newTail = [] && v'.state.chainTail = 0 &&
        v'.state.blockPool 3250 = some (demoBlock [], 1))) = true := by
    decide +kernel
  obtain ⟨v, hv, hcheck⟩ := returns_iff.mp hcheck
  rw [Bool.and_eq_true] at hcheck
  obtain ⟨htail, hcheck⟩ := hcheck
  obtain ⟨v', hv', hcheck⟩ := returns_iff.mp hcheck
  simp only [Bool.and_eq_true, decide_eq_true_eq] at hcheck
  obtain ⟨⟨hnil, hzero⟩, hfirst⟩ := hcheck
  have hstep₁ : Step demo .new (.validateBlock demoChild, []) v.state :=
    step_of_validate demo hv (by simpa using htail)
  have hstep₂ : Step demo v.state (.validateBlock (demoBlock []), []) v'.state :=
    step_of_validate demo hv' hnil
  refine ⟨v'.state, .snoc (.snoc .nil ?_ hstep₁) ?_ hstep₂, ?_, 3250, demoBlock [], [demoBlock []],
    hfirst, .snoc hfirst .genesis, ⟨∅, rfl⟩, ?_⟩
  · exact ⟨fun h => absurd h (by simp), fun t h => absurd h (by simp),
      demo_noRepeat (Or.inr rfl) fun h b n hb => absurd hb (by simp [stage, BlockManagement.new])⟩
  · refine ⟨fun h => absurd h (by simp), fun t h => absurd h (by simp),
      demo_noRepeat (Or.inl rfl) fun h b n hb => Or.inr (demo_pooled hv h b n hb)⟩
  · unfold getChainLength
    rw [if_pos hzero]
  · simp [chainTxns, demoBlock]

-- The other promise cannot be left out either: after a grant has been undone
-- above itself, the output of its first copy is gone, and a branch that spends
-- it is refused. The four blocks are valid and the last has height three.
example :
    let header (root prevHash : Hash) : BlockHeader := ⟨1, prevHash, root, 1⟩
    let first := demoBlock [demoGrant]
    let again : Block := ⟨header 8 3250, [demoGrant]⟩
    let spend : Block := ⟨header 9 3250, [demoPay]⟩
    let last : Block := ⟨header 8 (demo.ids.blkId spend.header), []⟩
    returns ([first, again, spend, last].foldlM (fun s block =>
      (validateBlock demo.ids .sorted 5 s block).map (·.state)) .new)
      (fun s => getChainLength s = .ok 2) = true := by
  decide +kernel

end Copycat.Bitcoin
