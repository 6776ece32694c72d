import Copycat.Bitcoin.Ledger

/-!
# What a node mines, its peers accept

Two nodes on one tail, one of which builds and mines a block the other then
validates. The builder looks at `utxo`, `new_utxo` and `utxo_spent`, the
verifier at the two sets of the redo loop and, for transactions it has not
seen, at the value check. Both are compared with `replay`: what the builder
made replays on its UTXO set (`LedgerInv`), the verifier has the same UTXO set
because it has the same chain, and it accepts what replays.

`mined_block_accepted` needs both histories to be careful. Without that the
two disagree: `mined_block_refused` is the `Send` with a repeated input again,
mined by one node and refused by the other.
-/

namespace Copycat.Bitcoin

open Copycat.Lib

variable {ids : IdScheme}

/-- Pools that agree on the blocks they both have agree on paths. -/
theorem PathTo.eq_of_agree {pool pool' : Hash → Option (Block × Nat)} (hk : Keyed ids pool)
    (hk' : Keyed ids pool')
    (hagree : ∀ h x n y m, pool h = some (x, n) → pool' h = some (y, m) → x = y) {h : Hash}
    {p q : List Block} (hp : PathTo pool h p) (hq : PathTo pool' h q) : p = q := by
  induction hp generalizing q with
  | genesis =>
    cases hq with
    | genesis => rfl
    | snoc hb _ => exact absurd rfl (hk'.ne_zero hb)
  | snoc hb _ ih =>
    cases hq with
    | genesis => exact absurd rfl (hk.ne_zero hb)
    | snoc hb' hq' =>
      obtain rfl := hagree _ _ _ _ _ hb hb'
      rw [ih hq']

/-- The value check lets through every balanced list of transactions that
replays on outputs whose makers are stored. -/
theorem validateTxns_of_replay {txns : List BitcoinTxn} (hbal : ∀ t ∈ txns, Balanced ids t) :
    ∀ {pool : Hash → Option BitcoinTxn} {S S' : Finset Utxo},
      Stored ids (fun t => t.isIncentive = false) pool → (∀ k ∈ S, (pool k.1).isSome) →
      replay ids S txns = some S' → ∃ pool', validateTxns ids pool txns = .ok (pool', true) := by
  induction txns with
  | nil => intro pool S S' _ _ _; exact ⟨pool, rfl⟩
  | cons t txns ih =>
    intro pool S S' hs hmade hrep
    have ih' := @ih fun t' ht' => hbal t' (List.mem_cons_of_mem _ ht')
    obtain ⟨T, hT, hrest⟩ := replay_cons_eq_some.mp hrep
    obtain ⟨-, hmem, rfl⟩ := replayTxn_eq_some.mp hT
    have hb := hbal t (List.mem_cons_self ..)
    -- any pool that has `t` and what `pool` has can go on
    have hnext : ∀ pool' : Hash → Option BitcoinTxn, (∀ h, (pool h).isSome → (pool' h).isSome) →
        (pool' (ids.txnId t)).isSome →
        ∀ k ∈ S \ t.inputs.toFinset ∪ (t.outputs (ids.txnId t)).toFinset, (pool' k.1).isSome := by
      intro pool' hsub ht k hk
      rcases Finset.mem_union.mp hk with h1 | h1
      · exact hsub _ (hmade k (Finset.mem_sdiff.mp h1).1)
      · rw [BitcoinTxn.outputs_fst (List.mem_toFinset.mp h1)]
        exact ht
    rw [validateTxns]
    by_cases hknown : (pool (ids.txnId t)).isSome
    · rw [if_pos hknown]
      exact ih' hs (hnext pool (fun _ h => h) hknown) hrest
    · rw [if_neg hknown, validateTxn_of_balanced hs hb fun k hk => hmade k (hmem k hk)]
      refine ih' (stored_insert hs hb.plain) (hnext _ ?_ (by simp)) hrest
      intro h hh
      have hne : h ≠ ids.txnId t := fun e => hknown (e ▸ hh)
      simpa [hne] using hh

/-- A block on top of the tail that nothing waits for has itself as its only
descendant. -/
theorem Connects.tail_eq {s : BlockManagement} (hinv : ChainInv ids s) {block : Block}
    {txnPool : Hash → Option BitcoinTxn} {r : Pools × Hash × Nat}
    (hc : Connects ids s block txnPool r)
    (hchild : ∀ h x n, s.blockPool h = some (x, n) → x.prev ≠ ids.blkId block.header) :
    r.2.1 = ids.blkId block.header := by
  obtain ⟨d, hd, -⟩ := hc.updated.tail
  cases d with
  | zero => exact (Desc.zero_iff.mp hd).symm
  | succ d =>
    obtain ⟨y, hy, -⟩ := Desc.succ_iff.mp hd
    obtain ⟨x, hx, hprev⟩ := (hinv.pools.orphans _ y).mp hy
    exact absurd hprev (hchild y x 0 hx)

/-- A block on top of the tail whose transactions pass the value check and
replay with succeeding scripts is adopted, alone. -/
theorem Outcome.adopts {ord : HashOrder} {s : BlockManagement} {block : Block} {v : Validated}
    {p : List Block} {S : Finset Utxo} {txnPool : Hash → Option BitcoinTxn}
    (hchain : ChainInv ids s) (hinv : LedgerInv ids s p) (hprev : block.prev = s.chainTail)
    (hnonce : block.header.nonce = 1) (hfresh : s.blockPool (ids.blkId block.header) = none)
    (hchild : ∀ h x n, s.blockPool h = some (x, n) → x.prev ≠ ids.blkId block.header)
    (htx : validateTxns ids s.txnPool block.txns = .ok (txnPool, true))
    (hnd : (txnIds ids (chainTxns (p ++ [block]))).Nodup)
    (hrep : replay ids ∅ (chainTxns (p ++ [block])) = some S)
    (hscr : ∀ t ∈ block.txns, t.scriptOk) (h : Outcome ids ord s block v) :
    v.newTail = [block] ∧ v.state.chainTail = ids.blkId block.header ∧ v.state.utxo = S := by
  have hpos : 0 < blkHeight s.blockPool block.prev := by
    rw [hprev, blkHeight]
    rcases hinv.path.end_cases with ⟨h0, -⟩ | ⟨b, n, q, -, hb, -⟩
    · rw [if_pos h0]
      exact Nat.one_pos
    · obtain ⟨-, hn⟩ := hinv.path.height hchain.pools.keyed hchain.pools.heights hb
      rw [if_neg (hchain.pools.keyed.ne_zero hb), hb]
      dsimp only
      rw [if_pos hn]
      exact Nat.succ_pos n
  -- the path to the deepest descendant is the main chain and the block
  have hpath : ∀ {txnPool : Hash → Option BitcoinTxn} {r : Pools × Hash × Nat},
      Connects ids s block txnPool r → PathTo r.1.blockPool r.2.1 (p ++ [block]) := by
    intro txnPool r hc
    obtain ⟨P, x, hP, -, hx⟩ := hc.tail_path hchain
    have hmem := hc.block_mem hchain hP
    rw [hc.tail_eq hchain hchild] at hP hx ⊢
    have hroot : r.1.blockPool (ids.blkId block.header) =
        some (block, blkHeight s.blockPool block.prev) := by
      rw [hc.updated.pool_frame _ hchain.pools.not_below_self]
      exact Function.update_self ..
    refine .snoc hroot ?_
    rw [hprev]
    exact hinv.path.mono hc.extends
  have hbranch : ∀ {txnPool : Hash → Option BitcoinTxn} {r : Pools × Hash × Nat}
      {anc new old : List Block}, Connects ids s block txnPool r →
      Branch r.1.blockPool s.chainTail r.2.1 anc new old → anc = p ∧ new = [block] ∧ old = [] := by
    intro txnPool r anc new old hc hbr
    have hk := (hc.pools hchain).keyed
    have hnew := (hpath hc).unique hk hbr.newPath
    have hold := (hinv.path.mono hc.extends).unique hk hbr.oldPath
    rw [hold, List.append_assoc] at hnew
    have hnew := (List.append_cancel_left hnew).symm
    cases old with
    | nil =>
      refine ⟨?_, by simpa using hnew, rfl⟩
      rw [hold, List.append_nil]
    | cons y old => exact absurd rfl (hbr.apart y (old ++ [block]) old (by simpa using hnew))
  have hnone : ¬ Repays ids s.utxo (chainTxns []) (chainTxns [block]) := by
    intro hrepays
    obtain ⟨t, ht, -⟩ := hrepays
    exact absurd ht (by simp)
  have hspec := redoBranch_spec p [block] []
    (by rw [List.append_nil]; exact hinv.utxo)
    (by rw [List.append_nil]; exact (List.nodup_append.mp hinv.nodup).1) hnd hnone
  obtain ⟨rd, hrd⟩ := hspec.2 S hrep (by rw [chainTxns_singleton]; exact hscr)
  cases h with
  | ignored hig =>
    rcases hig with h1 | h1
    · rw [hfresh] at h1
      exact absurd h1 (by simp)
    · exact absurd hnonce h1
  | rejected _ htx' =>
    rw [htx, Except.ok.injEq, Prod.mk.injEq] at htx'
    exact absurd htx'.2 (by simp)
  | parked _ _ h0 => omega
  | @shorter _ r Q hc hQ hle =>
    have hk := (hc.pools hchain).keyed
    obtain rfl := hQ.unique hk (hinv.path.mono hc.extends)
    obtain ⟨P, x, hP, hlen, -⟩ := hc.tail_path hchain
    rw [hP.unique hk (hpath hc), List.length_append, List.length_singleton] at hlen
    omega
  | invalid hc hbr hnone =>
    obtain ⟨-, rfl, rfl⟩ := hbranch hc hbr
    rw [hrd] at hnone
    exact absurd hnone (by simp)
  | @adopted _ r anc new old rd' hc hbr hrd' =>
    obtain ⟨-, rfl, rfl⟩ := hbranch hc hbr
    rw [hrd, Option.some.injEq] at hrd'
    subst hrd'
    refine ⟨rfl, hc.tail_eq hchain hchild, ?_⟩
    have := hspec.1 rd hrd
    rw [hrep, Option.some.injEq] at this
    exact this.symm

/-- What a run stores is balanced if what it records is. -/
theorem balanced_run {cfg : Config} {G : BlockManagement → Label → Prop}
    (hG : ∀ s l, G s l → FreshId cfg s l ∧ AcceptedRecord cfg.ids l) {tr : List Label}
    {s : BlockManagement} (h : (stage cfg).Run G tr s) :
    Stored cfg.ids (Balanced cfg.ids) s.txnPool := by
  refine (h.invariant (fun s => ChainInv cfg.ids s ∧ Stored cfg.ids (Balanced cfg.ids) s.txnPool)
    ⟨chainInv_new, fun h t ht => absurd ht (by simp [stage, BlockManagement.new])⟩ ?_).2
  intro s l s' hinv hg hstep
  obtain ⟨hchain, hs⟩ := hinv
  obtain ⟨hfresh, hacc⟩ := hG s l hg
  exact ⟨chainInv_step hchain hfresh hstep,
    (stored_step hchain hs (fun t ht => balanced_of_accepted (hacc t ht))
      (fun _ _ _ _ _ hs' hv => balanced_of_validateTxn hs' hv) hstep).1⟩

/-- **What a careful node mines, its careful peers accept.** `a` and `b` are
reachable and on one tail, no id names two blocks, and the id of the mined
block is new to both. -/
theorem mined_block_accepted (ids : IdScheme) (enumSize : Nat) (selfA selfB : NodeId)
    {trA trB : List Label} {a a₁ a₂ b : BlockManagement} {root : Hash} {blk : Block}
    (hA : (stage ⟨ids, selfA, enumSize⟩).Run (fun s l => FreshId ⟨ids, selfA, enumSize⟩ s l ∧
      AcceptedRecord ids l ∧ NoRepeat ⟨ids, selfA, enumSize⟩ s l ∧
      Careful ⟨ids, selfA, enumSize⟩ s l) trA a)
    (hB : (stage ⟨ids, selfB, enumSize⟩).Run (fun s l => FreshId ⟨ids, selfB, enumSize⟩ s l ∧
      PlainRecord l ∧ NoRepeat ⟨ids, selfB, enumSize⟩ s l ∧
      Careful ⟨ids, selfB, enumSize⟩ s l) trB b)
    (htail : a.chainTail = b.chainTail)
    (hagree : ∀ h x n y m, a.blockPool h = some (x, n) → b.blockPool h = some (y, m) → x = y)
    (hprep : Step ⟨ids, selfA, enumSize⟩ a (.prepareNewBlock root, []) a₁)
    (hcare : Careful ⟨ids, selfA, enumSize⟩ a (.prepareNewBlock root, []))
    (hmine : Step ⟨ids, selfA, enumSize⟩ a₁ (.getNewBlock, [blk]) a₂)
    (hnewA : FreshId ⟨ids, selfA, enumSize⟩ a₁ (.getNewBlock, [blk]))
    (hnewB : b.blockPool (ids.blkId blk.header) = none)
    (hchildB : ∀ h x n, b.blockPool h = some (x, n) → x.prev ≠ ids.blkId blk.header)
    (ord : HashOrder) :
    ∃ N, ∀ fuel, N < fuel → ∃ v, validateBlock ids ord fuel b blk = .ok v ∧
      v.newTail = [blk] ∧ v.state.chainTail = ids.blkId blk.header ∧ v.state.utxo = a₂.utxo := by
  have hchainA : ChainInv ids a := chainInv_run (fun _ _ hg => hg.1) hA
  have hchainB : ChainInv ids b := chainInv_run (fun _ _ hg => hg.1) hB
  obtain ⟨p, hinvA⟩ := ledgerInv_run
    (fun s l hg => ⟨hg.1, hg.2.1.plain, hg.2.2.1, hg.2.2.2⟩) hA
  obtain ⟨q, hinvB⟩ := ledgerInv_run (fun s l hg => hg) hB
  have hbalA : Stored ids (Balanced ids) a.txnPool :=
    balanced_run (fun s l hg => ⟨hg.1, hg.2.1⟩) hA
  -- one chain, so one UTXO set
  have hpq : p = q := PathTo.eq_of_agree hchainA.pools.keyed hchainB.pools.keyed hagree
    hinvA.path (htail ▸ hinvB.path)
  subst hpq
  have hutxo : b.utxo = a.utxo := Option.some.inj (hinvB.utxo.symm.trans hinvA.utxo)
  -- what `a` builds and mines
  cases hprep with
  | prepare hprep =>
  cases hmine with
  | mine hmine =>
  obtain ⟨-, hpool₁, hutxo₁, htail₁⟩ := prepareNewBlock_frame hprep
  have hinv₁ := hinvA.prepare (hcare.distinct root rfl) hprep
  obtain ⟨n, root', -, htxns, hhdr, rfl⟩ := getNewBlock_cases hmine
  obtain ⟨hnone, -⟩ := hnewA rfl _ (List.mem_singleton.mpr rfl)
  have hprev := prev_of_newHeader hhdr
  have hinv₂ := hinv₁.mined (n := n) hprev hnone htxns
  obtain ⟨txns, htxns', hrep₁, hscr⟩ := hinv₁.build
  rw [htxns, Option.some.injEq] at htxns'
  subst htxns'
  have hbal : ∀ t ∈ blk.txns, Balanced ids t := by
    intro t ht
    have := (txnIds_of_mapM hinv₁.stored htxns).2 t ht
    rw [hpool₁] at this
    exact (hbalA _ _ this).2
  -- what `b` makes of it
  have hstoredB : ∀ k ∈ b.utxo, (b.txnPool k.1).isSome := fun k hk =>
    hinvB.id_stored hinvB.path ((made_of_replay hinvB.utxo k hk).resolve_left (by simp))
  have hrepB : replay ids b.utxo blk.txns = some ((a₁.utxo ∪ a₁.newUtxo) \ a₁.utxoSpent) := by
    rw [hutxo, ← hutxo₁]
    exact hrep₁
  obtain ⟨txnPool, htx⟩ := validateTxns_of_replay hbal hinvB.stored hstoredB hrepB
  have hspec := validateBlock_spec ord hchainB blk
  obtain ⟨N, hN⟩ := hspec.2 fun t ht => (hbal t ht).plain
  refine ⟨N, fun fuel hf => ?_⟩
  obtain ⟨v, hv⟩ := hN fuel hf
  refine ⟨v, hv, ?_⟩
  refine Outcome.adopts hchainB hinvB (by rw [hprev, htail₁, htail]) ?_ hnewB hchildB htx
    (List.nodup_append.mp hinv₂.nodup).1 hinv₂.utxo hscr (hspec.1 fuel v hv)
  rw [hhdr]
  rfl

/-- Recording alone leaves the tail where it is. -/
theorem demo_recorded {G : BlockManagement → Label → Prop} {t t' : BitcoinTxn}
    {a : BlockManagement}
    (h : (stage demo).Run G [(.recordNewTxn t, []), (.recordNewTxn t', [])] a) :
    a.chainTail = 0 := by
  have hrec : ∀ s t, (recordNewTxn demo.ids s t).1.chainTail = s.chainTail := by
    intro s t
    unfold recordNewTxn
    dsimp only
    split
    · rfl
    · rfl
  obtain ⟨a₁, hrun₁, -, hstep₁⟩ := Machine.Run.snoc_inv [_] h
  obtain ⟨a₀, hrun₀, -, hstep₀⟩ := Machine.Run.snoc_inv [] hrun₁
  obtain rfl := hrun₀.nil_inv
  cases hstep₀
  cases hstep₁
  rw [hrec, hrec]
  rfl

/-- A fresh peer accepts the block with the payment. -/
theorem mined_block_accepted_demo :
    ∃ (a₂ : BlockManagement) (N : Nat),
        a₂.chainTail = demo.ids.blkId (demoBlock [demoGrant, demoPay]).header ∧
      ∀ fuel, N < fuel → ∃ v,
        validateBlock demo.ids .sorted fuel .new (demoBlock [demoGrant, demoPay]) = .ok v ∧
        v.newTail = [demoBlock [demoGrant, demoPay]] ∧
        v.state.chainTail = demo.ids.blkId (demoBlock [demoGrant, demoPay]).header ∧
        v.state.utxo = a₂.utxo := by
  obtain ⟨a₂, hrun, htail⟩ := demo_careful_run
  obtain ⟨a₁, hrun, hg₁, hmine⟩ := Machine.Run.snoc_inv [_, _, _] hrun
  obtain ⟨a, hrun, hg, hprep⟩ := Machine.Run.snoc_inv [_, _] hrun
  have hnone : ∀ h, (BlockManagement.new).blockPool h = none := fun _ => rfl
  obtain ⟨N, hN⟩ := mined_block_accepted demo.ids 144 0 1 hrun (b := .new) .nil
    (demo_recorded hrun)
    (fun h x n y m _ hy => absurd hy (by simp [hnone])) hprep hg.2.2.2 hmine hg₁.1 (hnone _)
    (fun h x n hx => absurd hx (by simp [hnone])) .sorted
  refine ⟨a₂, N, ?_, hN⟩
  cases hmine with
  | mine hmine =>
    obtain ⟨n, root, -, -, -, rfl⟩ := getNewBlock_cases hmine
    rfl

/-- A fresh peer, on the same tail, refuses the block with the repeated
input. -/
theorem mined_block_refused :
    ∃ a a₁ a₂ v, (stage demo).Run (fun s l => FreshId demo s l ∧ AcceptedRecord demo.ids l ∧
        NoRepeat demo s l) [(.recordNewTxn demoGrant, []), (.recordNewTxn demoTwice, [])] a ∧
      a.chainTail = BlockManagement.new.chainTail ∧
      Step demo a (.prepareNewBlock 7, []) a₁ ∧
      Step demo a₁ (.getNewBlock, [demoBlock [demoGrant, demoTwice]]) a₂ ∧
      validateBlock demo.ids .sorted 5 .new (demoBlock [demoGrant, demoTwice]) = .ok v ∧
      v.newTail = [] := by
  obtain ⟨a₂, hrun, htail⟩ := demo_twice_run
  obtain ⟨a₁, hrun, -, hmine⟩ := Machine.Run.snoc_inv [_, _, _] hrun
  obtain ⟨a, hrun, -, hprep⟩ := Machine.Run.snoc_inv [_, _] hrun
  have hcheck : returns
      (validateBlock demo.ids .sorted 5 .new (demoBlock [demoGrant, demoTwice]))
      (fun v => v.newTail = []) = true := by
    decide +kernel
  obtain ⟨v, hv, hnil⟩ := returns_iff.mp hcheck
  exact ⟨a, a₁, a₂, v, hrun, demo_recorded hrun, hprep, hmine, hv, by simpa using hnil⟩

end Copycat.Bitcoin
