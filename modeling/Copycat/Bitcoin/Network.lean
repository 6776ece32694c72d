import Copycat.Bitcoin.Longest

/-!
# A network of honest nodes

Any number of nodes that all run `BitcoinBlockManagement`. What they have in
common is the set of blocks ever mined: a peer block is one of these, and it
may be delivered to any node, at any time, any number of times or never.

The promise `NoRepeat` that a single node asks of its peers is proved here
about the network. A miner puts on its chain only ids that are neither on it
nor stored elsewhere in its queue (`MempoolInv`), so the one path a mined block
adds has no id twice, and every path any node ever sees is a path of mined
blocks. `no_txn_proposed_twice` is the result.
-/

namespace Copycat.Bitcoin

open Copycat.Lib

variable {ids : IdScheme} {enumSize : Nat}

/-- The nodes, and every block ever mined, newest first. -/
structure Network where
  nodes : NodeId → BlockManagement
  sent : List Block

def Network.new : Network where
  nodes := fun _ => .new
  sent := []

/-- The constants of node `n`. -/
def nodeConfig (ids : IdScheme) (enumSize : Nat) (n : NodeId) : Config where
  ids := ids
  self := n
  enumSize := enumSize

/-- One call at one node. -/
inductive NetStep (ids : IdScheme) (enumSize : Nat) :
    Network → NodeId × Label → Network → Prop
  | act {net : Network} {n : NodeId} {l : Label} {s : BlockManagement} :
      (∀ block, l.1 ≠ .validateBlock block) →
      Step (nodeConfig ids enumSize n) (net.nodes n) l s →
      NetStep ids enumSize net (n, l) ⟨Function.update net.nodes n s, l.2 ++ net.sent⟩
  | deliver {net : Network} {n : NodeId} {block : Block} {tail : List Block}
      {s : BlockManagement} :
      block ∈ net.sent →
      Step (nodeConfig ids enumSize n) (net.nodes n) (.validateBlock block, tail) s →
      NetStep ids enumSize net (n, .validateBlock block, tail)
        ⟨Function.update net.nodes n s, net.sent⟩

def network (ids : IdScheme) (enumSize : Nat) : Machine Network (NodeId × Label) where
  start := .new
  step := NetStep ids enumSize

/-- Clients send no `Incentive`, and no two mined blocks have the same id. -/
structure Honest (ids : IdScheme) (net : Network) (l : NodeId × Label) : Prop where
  plain : PlainRecord l.2
  distinct : l.2.1 = .getNewBlock → ∀ block ∈ l.2.2, ∀ b ∈ net.sent,
    ids.blkId b.header ≠ ids.blkId block.header

/-! ## The invariant -/

/-- Every node is lawful and has only mined blocks; every mined block has its
whole path mined; and no such path has a transaction twice. -/
structure NetInv (ids : IdScheme) (net : Network) : Prop where
  chain : ∀ n, ChainInv ids (net.nodes n)
  mempool : ∀ n, ∃ p, OutputsInv ids (net.nodes n) p
  pooled : ∀ n, Extends (net.nodes n).blockPool (netPool ids net.sent)
  sent : ∀ b ∈ net.sent, netPool ids net.sent (ids.blkId b.header) = some (b, 0)
  complete : ∀ h b n, netPool ids net.sent h = some (b, n) →
    ∃ p, PathTo (netPool ids net.sent) h p
  nodup : ∀ h p, PathTo (netPool ids net.sent) h p → (txnIds ids (chainTxns p)).Nodup

theorem netInv_new : NetInv ids Network.new where
  chain _ := chainInv_new
  mempool _ := ⟨[], outputsInv_new⟩
  pooled n h b m hb := absurd hb (by simp [Network.new, BlockManagement.new])
  sent b hb := absurd hb (by simp [Network.new])
  complete h b n hb := absurd hb (by simp [Network.new, netPool])
  nodup h p hp := by
    rcases hp.end_cases with ⟨-, rfl⟩ | ⟨b, n, q, -, hb, -⟩
    · simp [txnIds]
    · exact absurd hb (by simp [Network.new, netPool])

/-- The chain of a miner, with the block it was building. -/
theorem MempoolInv.mined_nodup {s : BlockManagement} {p : List Block} (hinv : MempoolInv ids s p)
    {block : Block} (htxns : s.blockUnderConstruction.mapM s.txnPool = some block.txns) :
    (txnIds ids (chainTxns (p ++ [block]))).Nodup := by
  have hnd := hinv.nodup
  rw [← List.append_assoc] at hnd
  rw [chainTxns_append, chainTxns_singleton, txnIds_append, (txnIds_of_mapM hinv.stored htxns).1]
  exact (List.nodup_append.mp hnd).1

section Steps

variable {net : Network} {n : NodeId} {s : BlockManagement}

/-- A call that mines nothing. -/
theorem NetInv.keeps (hinv : NetInv ids net) (hchain : ChainInv ids s)
    (hmem : ∃ p, OutputsInv ids s p) (hpool : Extends s.blockPool (netPool ids net.sent)) :
    NetInv ids ⟨Function.update net.nodes n s, net.sent⟩ := by
  have hcases : ∀ (P : BlockManagement → Prop), P s → (∀ m, P (net.nodes m)) →
      ∀ m, P (Function.update net.nodes n s m) := by
    intro P hs hold m
    by_cases hm : m = n
    · rw [hm, Function.update_self]
      exact hs
    · rw [Function.update_of_ne hm]
      exact hold m
  exact ⟨hcases (ChainInv ids) hchain hinv.chain,
    hcases (fun s => ∃ p, OutputsInv ids s p) hmem hinv.mempool,
    hcases (fun s => Extends s.blockPool (netPool ids net.sent)) hpool hinv.pooled,
    hinv.sent, hinv.complete, hinv.nodup⟩

/-- Where the id is new, the pool of all mined blocks grows. -/
theorem netPool_grows {sent : List Block} {block : Block}
    (hdistinct : ∀ b ∈ sent, ids.blkId b.header ≠ ids.blkId block.header) :
    netPool ids sent (ids.blkId block.header) = none ∧
      Extends (netPool ids sent) (netPool ids (block :: sent)) := by
  have hnone : netPool ids sent (ids.blkId block.header) = none := by
    cases hb : netPool ids sent (ids.blkId block.header) with
    | none => rfl
    | some x =>
      obtain ⟨b, m⟩ := x
      exact absurd (netPool_keyed sent _ b m hb) (hdistinct b (netPool_mem hb))
  exact ⟨hnone, extends_insert hnone⟩

/-- A path of the grown pool is an old one, or the path to the new block. -/
theorem NetInv.path_cases (hinv : NetInv ids net) {block : Block} {p : List Block}
    (hdistinct : ∀ b ∈ net.sent, ids.blkId b.header ≠ ids.blkId block.header)
    (hp : PathTo (netPool ids net.sent) block.prev p) {h : Hash} {q : List Block}
    (hq : PathTo (netPool ids (block :: net.sent)) h q) :
    PathTo (netPool ids net.sent) h q ∨ q = p ++ [block] := by
  obtain ⟨hnone, hext⟩ := netPool_grows hdistinct
  have hkeyed : Keyed ids (netPool ids (block :: net.sent)) := netPool_keyed _
  rcases hq.end_cases with ⟨rfl, rfl⟩ | ⟨b, m, q', rfl, hb, hq'⟩
  · exact Or.inl .genesis
  · by_cases hh : h = ids.blkId block.header
    · have : block = b ∧ 0 = m := by simpa [netPool, withBlock, hh] using hb
      obtain ⟨rfl, -⟩ := this
      exact Or.inr (by rw [hq'.unique hkeyed (hp.mono hext)])
    · have hb' : netPool ids net.sent h = some (b, m) := by
        simpa [netPool, withBlock, hh] using hb
      obtain ⟨q₀, hq₀⟩ := hinv.complete h b m hb'
      rw [hq.unique hkeyed (hq₀.mono hext)]
      exact Or.inl hq₀

/-- Mining. -/
theorem NetInv.mines (hinv : NetInv ids net) {block : Block}
    (hdistinct : ∀ b ∈ net.sent, ids.blkId b.header ≠ ids.blkId block.header)
    {p : List Block} (hp : PathTo (netPool ids net.sent) block.prev p)
    (hnd : (txnIds ids (chainTxns (p ++ [block]))).Nodup) :
    NetInv ids ⟨net.nodes, block :: net.sent⟩ := by
  obtain ⟨hnone, hext⟩ := netPool_grows hdistinct
  have hself : netPool ids (block :: net.sent) (ids.blkId block.header) = some (block, 0) :=
    Function.update_self ..
  refine ⟨hinv.chain, hinv.mempool, ?_, ?_, ?_, ?_⟩
  · intro m h b k hb
    obtain ⟨k', hk'⟩ := hinv.pooled m h b k hb
    exact hext h b k' hk'
  · intro b hb
    rcases List.mem_cons.mp hb with rfl | hb
    · exact hself
    · show Function.update (netPool ids net.sent) _ _ _ = _
      rw [Function.update_of_ne (hdistinct b hb)]
      exact hinv.sent b hb
  · intro h b m hb
    by_cases hh : h = ids.blkId block.header
    · rw [hh]
      exact ⟨_, .snoc hself (hp.mono hext)⟩
    · have hb' : netPool ids net.sent h = some (b, m) := by
        simpa [netPool, withBlock, hh] using hb
      obtain ⟨q, hq⟩ := hinv.complete h b m hb'
      exact ⟨q, hq.mono hext⟩
  · intro h q hq
    rcases hinv.path_cases hdistinct hp hq with hq | rfl
    · exact hinv.nodup h q hq
    · exact hnd

/-- A new id is neither a pooled block at any node nor the parent of one, for
that would be genesis or a mined block. -/
theorem NetInv.unseen (hinv : NetInv ids net) (n : NodeId) {block : Block}
    (hdistinct : ∀ b ∈ net.sent, ids.blkId b.header ≠ ids.blkId block.header) :
    (net.nodes n).blockPool (ids.blkId block.header) = none ∧
      ∀ h b m, (net.nodes n).blockPool h = some (b, m) → b.prev ≠ ids.blkId block.header := by
  obtain ⟨hnone, -⟩ := netPool_grows hdistinct
  constructor
  · cases hx : (net.nodes n).blockPool (ids.blkId block.header) with
    | none => rfl
    | some x =>
      obtain ⟨m, hm⟩ := hinv.pooled n _ x.1 x.2 hx
      rw [hnone] at hm
      exact absurd hm (by simp)
  · intro h x m hx hxprev
    obtain ⟨m', hm'⟩ := hinv.pooled n h x m hx
    obtain ⟨q, hq⟩ := hinv.complete h x m' hm'
    rcases hq.end_cases with ⟨h0, -⟩ | ⟨x', k, q', -, hx', hq'⟩
    · exact (netPool_keyed net.sent).ne_zero hm' h0
    · rw [hm', Option.some.injEq, Prod.mk.injEq] at hx'
      rw [← hx'.1, hxprev] at hq'
      rcases hq'.end_cases with ⟨h0, -⟩ | ⟨y, k', -, -, hy, -⟩
      · exact ids.blkId_ne_zero _ h0
      · exact absurd (hnone.symm.trans hy) (by simp)

/-- With a mined block in it, the pool of a node is still one of mined
blocks. -/
theorem NetInv.withBlock (hinv : NetInv ids net) {block : Block} (hb : block ∈ net.sent) :
    Extends (Bitcoin.withBlock ids (net.nodes n).blockPool block) (netPool ids net.sent) := by
  intro h b m hm
  unfold Bitcoin.withBlock at hm
  by_cases hh : h = ids.blkId block.header
  · rw [hh, Function.update_self, Option.some.injEq, Prod.mk.injEq] at hm
    rw [hh, ← hm.1]
    exact ⟨0, hinv.sent block hb⟩
  · rw [Function.update_of_ne hh] at hm
    exact hinv.pooled n h b m hm

end Steps

/-- Every call at any node keeps the invariant. -/
theorem netInv_step {net net' : Network} {l : NodeId × Label} (hinv : NetInv ids net)
    (hhonest : Honest ids net l) (h : NetStep ids enumSize net l net') : NetInv ids net' := by
  cases h with
  | @act n l s hcall hstep =>
    have hchain : ChainInv (nodeConfig ids enumSize n).ids (net.nodes n) := hinv.chain n
    obtain ⟨p, hmem⟩ := hinv.mempool n
    have hrepeat : NoRepeat (nodeConfig ids enumSize n) (net.nodes n) l :=
      fun block hb => absurd hb (hcall block)
    have hmined : l.1 ≠ .getNewBlock → FreshId (nodeConfig ids enumSize n) (net.nodes n) l :=
      fun hne he => absurd he hne
    by_cases hmine : l.1 = .getNewBlock
    · cases hstep with
      | @mine _ block hnew =>
        obtain ⟨chainLength, root, -, htxns, hhdr, rfl⟩ := getNewBlock_cases hnew
        have hdistinct := hhonest.distinct rfl block (List.mem_singleton.mpr rfl)
        have hprev := prev_of_newHeader hhdr
        have hpath : PathTo (netPool ids net.sent) block.prev p :=
          hprev ▸ hmem.path.mono (hinv.pooled n)
        have hnd := hmem.toMempoolInv.mined_nodup htxns
        have hfresh : FreshId (nodeConfig ids enumSize n) (net.nodes n)
            (.getNewBlock, [block]) := by
          intro _ b hb
          rw [List.mem_singleton.mp hb]
          exact hinv.unseen n hdistinct
        have hstep' : Step (nodeConfig ids enumSize n) (net.nodes n) (.getNewBlock, [block]) _ :=
          Step.mine hnew
        have hnet := hinv.mines hdistinct hpath hnd
        refine hnet.keeps (chainInv_step hchain hfresh hstep')
          (outputsInv_step hchain hmem hfresh hhonest.plain hrepeat hstep') ?_
        intro h b m hb
        rcases step_pooled hchain hstep' h b m hb with ⟨m', hm'⟩ | ⟨hh, ⟨-, hl⟩ | hl⟩
        · exact hnet.pooled n h b m' hm'
        · rw [List.cons.injEq] at hl
          rw [hh, ← hl.1]
          exact ⟨0, Function.update_self ..⟩
        · exact absurd hl (by simp)
      | _ => exact absurd hmine (by simp)
    · have hnil : l.2 = [] := by
        cases hstep with
        | mine h => exact absurd rfl hmine
        | validate h => exact absurd rfl (hcall _)
        | _ => rfl
      rw [hnil, List.nil_append]
      refine hinv.keeps (chainInv_step hchain (hmined hmine) hstep)
        (outputsInv_step hchain hmem (hmined hmine) hhonest.plain hrepeat hstep) ?_
      intro h b m hb
      rcases step_pooled hchain hstep h b m hb with ⟨m', hm'⟩ | ⟨-, ⟨hl, -⟩ | hl⟩
      · exact hinv.pooled n h b m' hm'
      · exact absurd hl hmine
      · exact absurd hl (hcall b)
  | @deliver n block tail s hsent hstep =>
    have hchain : ChainInv (nodeConfig ids enumSize n).ids (net.nodes n) := hinv.chain n
    obtain ⟨p, hmem⟩ := hinv.mempool n
    have hfresh : FreshId (nodeConfig ids enumSize n) (net.nodes n) (.validateBlock block, tail) :=
      fun he => absurd he (by simp)
    have hrepeat : NoRepeat (nodeConfig ids enumSize n) (net.nodes n)
        (.validateBlock block, tail) := by
      intro b hb _ h q hq
      have hb : block = b := by simpa using hb
      subst hb
      exact hinv.nodup h q (hq.mono (hinv.withBlock hsent))
    refine hinv.keeps (chainInv_step hchain hfresh hstep)
      (outputsInv_step hchain hmem hfresh hhonest.plain hrepeat hstep) ?_
    intro h b m hb
    rcases step_pooled hchain hstep h b m hb with ⟨m', hm'⟩ | ⟨hh, ⟨hl, -⟩ | hl⟩
    · exact hinv.pooled n h b m' hm'
    · exact absurd hl (by simp)
    · have hl : block = b := by simpa using hl
      subst hl
      exact ⟨0, hh ▸ hinv.sent block hsent⟩

/-- **No transaction is proposed twice.** In every state of an honest network,
at every node: `pending_txns` has no repeated id; the ids in `pending_txns`, in
the block under construction and on the main chain are pairwise disjoint; and
no path from genesis in the node's pool has an id twice. -/
theorem no_txn_proposed_twice (ids : IdScheme) (enumSize : Nat) {tr : List (NodeId × Label)}
    {net : Network} (h : (network ids enumSize).Run (Honest ids) tr net) (n : NodeId) :
    (net.nodes n).pendingTxns.Nodup ∧
    (∃ p, PathTo (net.nodes n).blockPool (net.nodes n).chainTail p ∧
      (net.nodes n).pendingTxns.Disjoint (net.nodes n).blockUnderConstruction ∧
      (net.nodes n).pendingTxns.Disjoint (txnIds ids (chainTxns p)) ∧
      (net.nodes n).blockUnderConstruction.Disjoint (txnIds ids (chainTxns p))) ∧
    ∀ hash q, PathTo (net.nodes n).blockPool hash q → (txnIds ids (chainTxns q)).Nodup := by
  have hinv : NetInv ids net :=
    h.invariant (NetInv ids) netInv_new fun _ _ _ hinv hg hstep => netInv_step hinv hg hstep
  obtain ⟨p, hmem⟩ := hinv.mempool n
  obtain ⟨-, hqueue, hmain⟩ := List.nodup_append.mp hmem.nodup
  obtain ⟨-, hpending, hdisj⟩ := List.nodup_append.mp hqueue
  refine ⟨hpending, ⟨p, hmem.path, ?_, ?_, ?_⟩,
    fun hash q hq => hinv.nodup hash q (hq.mono (hinv.pooled n))⟩
  · intro x hp hb
    exact hdisj x hb x hp rfl
  · intro x hp hc
    exact hmain x hc x (List.mem_append_right _ hp) rfl
  · intro x hb hc
    exact hmain x hc x (List.mem_append_left _ hb) rfl

/-- Node `0` mines the grant and node `1` adopts the block. -/
theorem no_txn_proposed_twice_demo :
    ∃ net, (network demo.ids 144).Run (Honest demo.ids)
        [(0, .recordNewTxn demoGrant, []), (0, .prepareNewBlock 7, []),
          (0, .getNewBlock, [demoBlock [demoGrant]]),
          (1, .validateBlock (demoBlock [demoGrant]), [demoBlock [demoGrant]])] net ∧
      (net.nodes 1).chainTail = (net.nodes 0).chainTail ∧
      (net.nodes 1).pendingTxns.Nodup ∧
      (∃ p, PathTo (net.nodes 1).blockPool (net.nodes 1).chainTail p ∧
        (net.nodes 1).pendingTxns.Disjoint (net.nodes 1).blockUnderConstruction ∧
        (net.nodes 1).pendingTxns.Disjoint (txnIds demo.ids (chainTxns p)) ∧
        (net.nodes 1).blockUnderConstruction.Disjoint (txnIds demo.ids (chainTxns p))) ∧
      ∀ hash q, PathTo (net.nodes 1).blockPool hash q →
        (txnIds demo.ids (chainTxns q)).Nodup := by
  set s₁ := (recordNewTxn demo.ids .new demoGrant).1
  have hcheck : returns (prepareNewBlock 144 5 7 s₁) (fun r =>
      returns (getNewBlock demo.ids 0 r.1) (fun q =>
        q.2 = demoBlock [demoGrant] && q.1.chainTail = 3250 &&
        returns (validateBlock demo.ids .sorted 5 .new (demoBlock [demoGrant])) (fun v =>
          v.newTail = [demoBlock [demoGrant]] && v.state.chainTail = 3250))) = true := by
    decide +kernel
  obtain ⟨⟨s₂, c⟩, hs₂, hcheck⟩ := returns_iff.mp hcheck
  obtain ⟨⟨s₃, b⟩, hs₃, hcheck⟩ := returns_iff.mp hcheck
  rw [Bool.and_eq_true, Bool.and_eq_true] at hcheck
  obtain ⟨⟨hb, htail⟩, hcheck⟩ := hcheck
  obtain rfl : b = demoBlock [demoGrant] := by simpa using hb
  have htail : s₃.chainTail = 3250 := by simpa using htail
  obtain ⟨v, hv, hcheck⟩ := returns_iff.mp hcheck
  rw [Bool.and_eq_true, decide_eq_true_eq, decide_eq_true_eq] at hcheck
  obtain ⟨hnew, htail'⟩ := hcheck
  have hvalidate : Step (nodeConfig demo.ids 144 1) .new
      (.validateBlock (demoBlock [demoGrant]), [demoBlock [demoGrant]]) v.state :=
    step_of_validate _ hv hnew
  let net₁ : Network := ⟨Function.update (fun _ => .new) 0 s₁, []⟩
  let net₂ : Network := ⟨Function.update net₁.nodes 0 s₂, []⟩
  let net₃ : Network := ⟨Function.update net₂.nodes 0 s₃, [demoBlock [demoGrant]]⟩
  let net₄ : Network := ⟨Function.update net₃.nodes 1 v.state, [demoBlock [demoGrant]]⟩
  have hrun₁ : (network demo.ids 144).Run (Honest demo.ids)
      [(0, .recordNewTxn demoGrant, [])] net₁ := by
    refine .snoc .nil ⟨fun t ht => ?_, fun h => absurd h (by simp)⟩
      (.act (fun b h => absurd h (by simp)) (Step.record _ _))
    have ht : demoGrant = t := by simpa using ht
    rw [← ht]
    rfl
  have hrun₂ : (network demo.ids 144).Run (Honest demo.ids)
      [(0, .recordNewTxn demoGrant, []), (0, .prepareNewBlock 7, [])] net₂ :=
    .snoc hrun₁ ⟨fun t ht => absurd ht (by simp), fun h => absurd h (by simp)⟩
      (.act (fun b h => absurd h (by simp)) (Step.prepare hs₂))
  have hrun₃ : (network demo.ids 144).Run (Honest demo.ids)
      [(0, .recordNewTxn demoGrant, []), (0, .prepareNewBlock 7, []),
        (0, .getNewBlock, [demoBlock [demoGrant]])] net₃ :=
    .snoc hrun₂ ⟨fun t ht => absurd ht (by simp), fun _ b _ b' hb' => absurd hb' (by simp [net₂])⟩
      (.act (fun b h => absurd h (by simp)) (Step.mine hs₃))
  have hrun₄ : (network demo.ids 144).Run (Honest demo.ids)
      [(0, .recordNewTxn demoGrant, []), (0, .prepareNewBlock 7, []),
        (0, .getNewBlock, [demoBlock [demoGrant]]),
        (1, .validateBlock (demoBlock [demoGrant]), [demoBlock [demoGrant]])] net₄ :=
    .snoc hrun₃ ⟨fun t ht => absurd ht (by simp), fun h => absurd h (by simp)⟩
      (.deliver (List.mem_singleton.mpr rfl) hvalidate)
  refine ⟨net₄, hrun₄, ?_, no_txn_proposed_twice demo.ids 144 hrun₄ 1⟩
  show v.state.chainTail = s₃.chainTail
  rw [htail, htail']

end Copycat.Bitcoin
