import Copycat.Bitcoin.Pooled

/-!
# The UTXO set and the main chain

`LedgerInv` adds the UTXO set to the law of the mempool: `utxo` is the replay
of the main chain, and the block under construction replays on top of it to
what mining will make of `new_utxo` and `utxo_spent`. `ledgerInv_step` carries
it over every call under the promise `Careful`, which excludes two things the
code does not look for:

* `prepare_new_block` looks at all inputs of a `Send` before it marks any, so
  a `Send` that lists an input twice is put in a block;
* the redo loop creates the key of a self-payment twice (`Repays`).

`utxo_eq_replay` is the case where every `Send` is regular and nothing has to
be promised about single calls. `no_double_spend_of_careful` is what remains
for arbitrary transactions, and `double_spend_mined` the run in which the
first of the two happens.
-/

namespace Copycat.Bitcoin

open Copycat.Lib

variable {ids : IdScheme} {cfg : Config}

/-- The law of the UTXO set, over the main chain `p`. -/
structure LedgerInv (ids : IdScheme) (s : BlockManagement) (p : List Block) : Prop
    extends MempoolInv ids s p where
  utxo : replay ids ∅ (chainTxns p) = some s.utxo
  build : ∃ txns, s.blockUnderConstruction.mapM s.txnPool = some txns ∧
    replay ids s.utxo txns = some ((s.utxo ∪ s.newUtxo) \ s.utxoSpent) ∧
    ∀ t ∈ txns, t.scriptOk
  spent : ∀ k ∈ s.utxoSpent, k.1 ∈ txnIds ids (chainTxns p) ++ s.blockUnderConstruction

/-- What the caller must see to where the code does not: no pending `Send`
with a succeeding script lists an input twice when a block is prepared, and no
peer block that connects makes the node undo and redo an unspent self-payment. -/
structure Careful (cfg : Config) (s : BlockManagement) (l : Label) : Prop where
  distinct : ∀ root, l.1 = .prepareNewBlock root → ∀ h ∈ s.pendingTxns, ∀ t,
    s.txnPool h = some t → t.scriptOk → t.inputs.Nodup
  noRepay : ∀ block, l.1 = .validateBlock block → Connectable cfg.ids s block →
    ∀ newTail anc new old,
    Branch (withBlock cfg.ids s.blockPool block) s.chainTail newTail anc new old → block ∈ new →
    ¬ Repays cfg.ids s.utxo (chainTxns old) (chainTxns new)

theorem ledgerInv_new : LedgerInv ids BlockManagement.new [] where
  toQueueInv := queueInv_new
  path := .genesis
  nodup := by simp [BlockManagement.new, txnIds]
  utxo := rfl
  build := ⟨[], rfl, rfl, by simp⟩
  spent := by simp [BlockManagement.new]

theorem mapM_mono {pool pool' : Hash → Option BitcoinTxn}
    (hmono : ∀ h t, pool h = some t → pool' h = some t) :
    ∀ {hs : List Hash} {txns : List BitcoinTxn}, hs.mapM pool = some txns →
      hs.mapM pool' = some txns := by
  intro hs
  induction hs with
  | nil => intro txns h; exact h
  | cons x hs ih =>
    intro txns h
    rw [List.mapM_cons] at h ⊢
    obtain ⟨t, ht, h⟩ := Option.bind_eq_some_iff.mp h
    obtain ⟨ts, hts, h⟩ := Option.bind_eq_some_iff.mp h
    rw [hmono x t ht, ih hts]
    exact h

/-- A call that only adds transactions and blocks keeps the law. -/
theorem LedgerInv.grow {s s' : BlockManagement} {p : List Block} (hinv : LedgerInv ids s p)
    (hmem : MempoolInv ids s' p) (hsteady : Steady s s') : LedgerInv ids s' p := by
  obtain ⟨hmono, hu, hn, hs, hb⟩ := hsteady
  refine ⟨hmem, hu ▸ hinv.utxo, ?_, ?_⟩
  · obtain ⟨txns, htxns, hrep, hscr⟩ := hinv.build
    refine ⟨txns, ?_, ?_, hscr⟩
    · rw [hb]
      exact mapM_mono hmono htxns
    · rw [hu, hn, hs]
      exact hrep
  · rw [hs, hb]
    exact hinv.spent

/-! ## Building and mining -/

/-- Putting a transaction with distinct inputs in the block. -/
theorem LedgerInv.take {enumSize : Nat} {s : BlockManagement} {p : List Block}
    (hinv : LedgerInv ids s p) {txnHash : Hash} {rest : List Hash} {txn : BitcoinTxn}
    (hq : s.pendingTxns = txnHash :: rest) (htxn : s.txnPool txnHash = some txn)
    (hinc : txn.isIncentive = false) (hok : s.includable txn) (hnd : txn.inputs.Nodup) :
    LedgerInv ids (includeTxn enumSize { s with pendingTxns := rest } txnHash txn) p := by
  obtain ⟨txns, htxns, hrep, hscr⟩ := hinv.build
  have hid : ids.txnId txn = txnHash := (hinv.stored txnHash txn htxn).1
  obtain ⟨hids, -⟩ := txnIds_of_mapM hinv.stored htxns
  -- every output there is was made on the main chain or in this block
  have hmade : ∀ k ∈ (s.utxo ∪ s.newUtxo) \ s.utxoSpent,
      k.1 ∈ txnIds ids (chainTxns p) ++ s.blockUnderConstruction := by
    intro k hk
    have hboth : replay ids ∅ (chainTxns p ++ txns) = some ((s.utxo ∪ s.newUtxo) \ s.utxoSpent) :=
      replay_append_eq_some.mpr ⟨_, hinv.utxo, hrep⟩
    have := (made_of_replay hboth k hk).resolve_left (by simp)
    rwa [txnIds_append, hids] at this
  obtain ⟨hspend, hset, hspent⟩ := hinv.toMempoolInv.take_outputs hq hok hmade hinv.spent
  refine ⟨hinv.toMempoolInv.build (.take hq htxn hinc hok), hinv.utxo, ?_, hspent⟩
  refine ⟨txns ++ [txn], ?_, ?_, ?_⟩
  · show (s.blockUnderConstruction ++ [txnHash]).mapM s.txnPool = _
    rw [List.mapM_append, htxns]
    simp [htxn]
  · refine replay_append_eq_some.mpr ⟨_, hrep, ?_⟩
    rw [replay_singleton]
    refine replayTxn_eq_some.mpr ⟨hnd, hspend, ?_⟩
    rw [hid]
    exact hset
  · have hscript : txn.scriptOk := by
      simp only [BlockManagement.includable, Bool.and_eq_true] at hok
      exact hok.2
    intro t ht
    rcases List.mem_append.mp ht with h1 | h1
    · exact hscr t h1
    · rw [List.mem_singleton.mp h1]
      exact hscript

/-- The law and the promise about the queue, together, over the loop of
`prepare_new_block`. -/
theorem LedgerInv.prepare {enumSize fuel : Nat} {root : Hash} {s s' : BlockManagement}
    {c : CurBlockState} {p : List Block} (hinv : LedgerInv ids s p)
    (hdis : ∀ h ∈ s.pendingTxns, ∀ t, s.txnPool h = some t → t.scriptOk → t.inputs.Nodup)
    (h : prepareNewBlock enumSize fuel root s = .ok (s', c)) : LedgerInv ids s' p := by
  refine (prepareNewBlock_invariant
    (fun s => LedgerInv ids s p ∧
      ∀ h ∈ s.pendingTxns, ∀ t, s.txnPool h = some t → t.scriptOk → t.inputs.Nodup)
    ?_ ?_ h ⟨hinv, hdis⟩).1
  · intro s s' hstep h
    obtain ⟨hinv, hdis⟩ := h
    have hmem := hinv.toMempoolInv.build hstep
    cases hstep with
    | @take txnHash rest txn hq htxn hinc hok =>
      have hscript : txn.scriptOk := by
        simp only [BlockManagement.includable, Bool.and_eq_true] at hok
        exact hok.2
      refine ⟨hinv.take hq htxn hinc hok
        (hdis txnHash (hq ▸ List.mem_cons_self ..) txn htxn hscript), ?_⟩
      intro h hh
      exact hdis h (hq ▸ List.mem_cons_of_mem _ hh)
    | @rotate txnHash rest txn hq htxn hinc hok =>
      refine ⟨hinv.grow hmem ⟨fun _ _ ht => ht, rfl, rfl, rfl, rfl⟩, ?_⟩
      intro h hh
      refine hdis h ?_
      rw [hq]
      exact (List.perm_append_singleton txnHash rest).mem_iff.mp hh
  · intro s h
    obtain ⟨hinv, hdis⟩ := h
    have hmem : MempoolInv ids { s with merkleRoot := some root, powTime := true } p :=
      hinv.toMempoolInv.keep ⟨hinv.stored, hinv.blocks, hinv.queued⟩ hinv.path rfl rfl
    exact ⟨hinv.grow hmem ⟨fun _ _ ht => ht, rfl, rfl, rfl, rfl⟩, hdis⟩

/-- The state right after a tail has been set: nothing is under construction. -/
theorem ledgerInv_of_empty {s : BlockManagement} {p : List Block} (hmem : MempoolInv ids s p)
    (hu : replay ids ∅ (chainTxns p) = some s.utxo) (hb : s.blockUnderConstruction = [])
    (hn : s.newUtxo = ∅) (hs : s.utxoSpent = ∅) : LedgerInv ids s p := by
  refine ⟨hmem, hu, ⟨[], by rw [hb]; rfl, ?_, by simp⟩, by rw [hs]; simp⟩
  rw [hn, hs]
  simp [replay]

/-- Mining applies the block under construction. -/
theorem LedgerInv.mined {s : BlockManagement} {p : List Block} (hinv : LedgerInv ids s p)
    {block : Block} {n : Nat} (hprev : block.prev = s.chainTail)
    (hfresh : s.blockPool (ids.blkId block.header) = none)
    (htxns : s.blockUnderConstruction.mapM s.txnPool = some block.txns) :
    LedgerInv ids (mined ids s block n) (p ++ [block]) := by
  refine ledgerInv_of_empty (hinv.toMempoolInv.mined hprev hfresh htxns) ?_ rfl rfl rfl
  obtain ⟨txns, htxns', hrep, -⟩ := hinv.build
  rw [htxns, Option.some.injEq] at htxns'
  subst htxns'
  rw [chainTxns_append, chainTxns_singleton]
  exact replay_append_eq_some.mpr ⟨_, hinv.utxo, hrep⟩

/-! ## Peer blocks -/

/-- Every way `validate_block` can end keeps the law. -/
theorem LedgerInv.outcome {ord : HashOrder} {s : BlockManagement} {block : Block} {v : Validated}
    {p : List Block} (hchain : ChainInv ids s) (hinv : LedgerInv ids s p)
    (hrepeat : Connectable ids s block →
      ∀ h q, PathTo (withBlock ids s.blockPool block) h q → (txnIds ids (chainTxns q)).Nodup)
    (hcare : Connectable ids s block → ∀ newTail anc new old,
      Branch (withBlock ids s.blockPool block) s.chainTail newTail anc new old → block ∈ new →
      ¬ Repays ids s.utxo (chainTxns old) (chainTxns new))
    (h : Outcome ids ord s block v) : ∃ q, LedgerInv ids v.state q := by
  rcases hinv.toMempoolInv.outcome hchain h with ⟨hmem, hsteady⟩ |
    ⟨txnPool, r, anc, new, old, rd, hc, hbr, hrd, hmem, hstate⟩
  · exact ⟨p, hinv.grow hmem hsteady⟩
  · have hp := hinv.path.mono hc.extends
    obtain rfl := hp.unique (hc.pools hchain).keyed hbr.oldPath
    have hext := hc.extends_withBlock hchain
    have hnew := hrepeat hc.connectable _ _ (hbr.newPath.mono hext)
    -- the new block is not on the common part, which was pooled before
    have hblock : block ∈ new := by
      rcases List.mem_append.mp (hc.block_mem hchain hbr.newPath) with h1 | h1
      · obtain ⟨hash, n, hpool⟩ := hinv.path.mem_pooled block (List.mem_append_left _ h1)
        have := hchain.pools.keyed hash block n hpool
        rw [← this, hc.fresh] at hpool
        exact absurd hpool (by simp)
      · exact h1
    have hnorep := hcare hc.connectable _ _ _ _
      ⟨hbr.newPath.mono hext, hbr.oldPath.mono hext, hbr.apart, hbr.longer⟩ hblock
    rw [hstate]
    have hmem := hmem.moveOver ord hbr.newPath hnew hrd
    refine ⟨anc ++ new, ledgerInv_of_empty hmem ?_ rfl rfl rfl⟩
    exact (redoBranch_spec anc new old hinv.utxo (List.nodup_append.mp hinv.nodup).1 hnew
      hnorep).1 rd hrd

/-- Every careful call keeps the law of the ledger. -/
theorem ledgerInv_step {s s' : BlockManagement} {l : Label} {p : List Block}
    (hchain : ChainInv cfg.ids s) (hinv : LedgerInv cfg.ids s p) (hfresh : FreshId cfg s l)
    (hplain : PlainRecord l) (hrepeat : NoRepeat cfg s l) (hcare : Careful cfg s l)
    (h : Step cfg s l s') : ∃ q, LedgerInv cfg.ids s' q := by
  cases h with
  | record txn =>
    refine ⟨p, hinv.grow (hinv.toMempoolInv.record (hplain txn rfl)) (steady_record ?_)⟩
    exact (stored_step hchain hinv.stored hplain (fun _ hx => absurd hx (by simp))
      (.record s txn)).2
  | @prepare _ fuel root c h =>
    exact ⟨p, hinv.prepare (hcare.distinct root rfl) h⟩
  | mine h =>
    obtain ⟨chainLength, root, -, htxns, hhdr, rfl⟩ := getNewBlock_cases h
    obtain ⟨hnone, -⟩ := hfresh rfl _ (List.mem_singleton.mpr rfl)
    exact ⟨_, hinv.mined (prev_of_newHeader hhdr) hnone htxns⟩
  | @validate ord fuel block v h =>
    exact hinv.outcome hchain (hrepeat block rfl) (hcare.noRepay block rfl)
      ((validateBlock_spec ord hchain block).1 _ _ h)

/-- The law of the ledger in every state a careful run reaches. -/
theorem ledgerInv_run {G : BlockManagement → Label → Prop}
    (hG : ∀ s l, G s l → FreshId cfg s l ∧ PlainRecord l ∧ NoRepeat cfg s l ∧ Careful cfg s l)
    {tr : List Label} {s : BlockManagement} (h : (stage cfg).Run G tr s) :
    ∃ p, LedgerInv cfg.ids s p := by
  refine (h.invariant (fun s => ChainInv cfg.ids s ∧ ∃ p, LedgerInv cfg.ids s p)
    ⟨chainInv_new, [], ledgerInv_new⟩ ?_).2
  intro s l s' h hg hstep
  obtain ⟨hchain, p, hinv⟩ := h
  obtain ⟨hfresh, hplain, hrepeat, hcare⟩ := hG s l hg
  exact ⟨chainInv_step hchain hfresh hstep,
    ledgerInv_step hchain hinv hfresh hplain hrepeat hcare hstep⟩

/-! ## Regular transactions -/

/-- A transaction as the flow generators make it. -/
def Regular : BitcoinTxn → Prop
  | .send t => t.sender ≠ t.receiver ∧ t.inUtxo.Nodup
  | .grant .. => True
  | .incentive .. => False

theorem Regular.plain {t : BitcoinTxn} (h : Regular t) : t.isIncentive = false := by
  cases t with
  | incentive o r => exact absurd h (by simp [Regular])
  | send t => rfl
  | grant o r => rfl

theorem Regular.inputs_nodup {t : BitcoinTxn} (h : Regular t) : t.inputs.Nodup := by
  cases t with
  | incentive o r => exact List.nodup_nil
  | grant o r => exact List.nodup_nil
  | send t =>
    refine h.2.map fun x y hxy => ?_
    simpa using hxy

theorem Regular.not_repeats {t : BitcoinTxn} (h : Regular t) : ¬ RepeatsOutput ids t := by
  unfold RepeatsOutput
  push Not
  cases t with
  | incentive o r => simp [BitcoinTxn.outputs]
  | grant o r => simp [BitcoinTxn.outputs]
  | send t =>
    have hne : t.receiver ≠ t.sender := fun e => h.1 e.symm
    simp only [BitcoinTxn.outputs]
    split <;> split <;> simp [hne]

/-- Where all stored transactions are regular, every call is careful. -/
theorem careful_of_regular {s : BlockManagement} {l : Label} {p : List Block}
    (hchain : ChainInv cfg.ids s) (hinv : LedgerInv cfg.ids s p)
    (hreg : Stored cfg.ids Regular s.txnPool) : Careful cfg s l := by
  refine ⟨fun root _ h _ t ht _ => ((hreg h t ht).2).inputs_nodup, ?_⟩
  intro block _ hconn newTail anc new old hbr _ hrepays
  obtain ⟨t, ht, -, hrep, -⟩ := hrepays
  -- the old side is the main chain, whose transactions are stored
  have hp : PathTo (withBlock cfg.ids s.blockPool block) s.chainTail p :=
    hinv.path.mono (extends_insert hconn.fresh)
  have hk : Keyed cfg.ids (withBlock cfg.ids s.blockPool block) := keyed_insert hchain.pools.keyed
  obtain rfl := hp.unique hk hbr.oldPath
  have hmem : t ∈ chainTxns (anc ++ old) := by
    rw [chainTxns_append]
    exact List.mem_append_right _ ht
  exact ((hreg _ _ (hinv.chain_stored hinv.path hmem)).2).not_repeats hrep

/-- **The UTXO set is the replay of the main chain**, in every state reached
with regular transactions and no repeated id on a path; and in that replay
every consumed output is there. -/
theorem utxo_eq_replay (cfg : Config) {tr : List Label} {s : BlockManagement}
    (h : (stage cfg).Run (fun s l => FreshId cfg s l ∧ (∀ t ∈ l.1.txns, Regular t) ∧
      NoRepeat cfg s l) tr s) :
    ∃ p, PathTo s.blockPool s.chainTail p ∧ replay cfg.ids ∅ (chainTxns p) = some s.utxo := by
  have hinv := h.invariant (fun s => ChainInv cfg.ids s ∧ Stored cfg.ids Regular s.txnPool ∧
      ∃ p, LedgerInv cfg.ids s p)
    ⟨chainInv_new, fun h t ht => absurd ht (by simp [stage, BlockManagement.new]),
      [], ledgerInv_new⟩ ?_
  · obtain ⟨-, -, p, hp⟩ := hinv
    exact ⟨p, hp.path, hp.utxo⟩
  · intro s l s' h hg hstep
    obtain ⟨hchain, hreg, p, hinv⟩ := h
    obtain ⟨hfresh, htxns, hrepeat⟩ := hg
    have hrec : ∀ t, l.1 = .recordNewTxn t → Regular t := fun t ht =>
      htxns t (by rw [ht]; exact List.mem_singleton.mpr rfl)
    have hval : ∀ block, l.1 = .validateBlock block → ∀ t ∈ block.txns, Regular t :=
      fun block hb t ht => htxns t (by rw [hb]; exact ht)
    exact ⟨chainInv_step hchain hfresh hstep,
      (stored_step hchain hreg hrec (fun block hb t ht _ _ _ => hval block hb t ht) hstep).1,
      ledgerInv_step hchain hinv hfresh (fun t ht => (hrec t ht).plain) hrepeat
        (careful_of_regular hchain hinv hreg) hstep⟩

/-- The node mines the grant and the payment that spends it in one block. Then a peer
sends its own two blocks with them, the second one first, and the node moves to
these. -/
theorem utxo_eq_replay_demo :
    ∃ tr : List Label, ∃ s : BlockManagement,
      tr.flatMap Label.mined = [demoBlock [demoGrant, demoPay]] ∧
      s.blockPool s.chainTail = some (demoPeer 8650 [demoPay], 2) ∧
      ∃ p, PathTo s.blockPool s.chainTail p ∧
        replay demo.ids ∅ (chainTxns p) = some s.utxo := by
  let blocks := [demoBlock [demoGrant, demoPay], demoPeer 0 [demoGrant], demoPeer 8650 [demoPay]]
  let paths := [[demoBlock [demoGrant, demoPay]], [demoPeer 0 [demoGrant]],
    [demoPeer 0 [demoGrant], demoPeer 8650 [demoPay]]]
  obtain ⟨tr, s, hrun, hq⟩ := evalCalls_run demo 5
    [.recordNewTxn demoGrant, .recordNewTxn demoPay, .prepareNewBlock 7, .getNewBlock,
      .validateBlock (demoPeer 8650 [demoPay]), .validateBlock (demoPeer 0 [demoGrant])]
    (fun r => r.1.flatMap Label.mined = [demoBlock [demoGrant, demoPay]] ∧
      r.2.blockPool r.2.chainTail = some (demoPeer 8650 [demoPay], 2) ∧
      (∀ b ∈ r.1.flatMap Label.blocks, b ∈ blocks) ∧
      ∀ l ∈ r.1, ∀ t ∈ l.1.txns, t ∈ [demoGrant, demoPay])
    (by decide +kernel)
  obtain ⟨hmined, htail, hblocks, htxns⟩ := of_decide_eq_true hq
  have hreg : ∀ t ∈ [demoGrant, demoPay], Regular t := by
    simp [Regular, demoGrant, demoPay]
  have hpaths : ∀ b ∈ blocks, ∃ p ∈ paths,
      PathTo (netPool demo.ids blocks) (demo.ids.blkId b.header) p := by
    have hwalk : ∀ b ∈ blocks, ∃ p ∈ paths,
        walk (netPool demo.ids blocks) 2 (demo.ids.blkId b.header) = some p := by
      decide +kernel
    exact fun b hb => (hwalk b hb).imp fun p hp => ⟨hp.1, pathTo_of_walk hp.2⟩
  have hrun' := noRepeat_run hrun (fun _ _ h => h) (by decide +kernel) hblocks
    hpaths (by decide +kernel)
  refine ⟨tr, s, hmined, htail, utxo_eq_replay demo (hrun'.mono fun s l hl hg => ?_)⟩
  exact ⟨hg.1, fun t ht => hreg t (htxns l hl t ht), hg.2⟩

/-! ## Arbitrary transactions -/

/-- Every recorded transaction came through the validation stage. -/
def AcceptedRecord (ids : IdScheme) (l : Label) : Prop :=
  ∀ t, l.1 = .recordNewTxn t → Accepted ids t

theorem AcceptedRecord.plain {l : Label} (h : AcceptedRecord ids l) : PlainRecord l :=
  fun t ht => (balanced_of_accepted (h t ht)).plain

/-- **No double spend on the main chain, where every call is careful.** -/
theorem no_double_spend_of_careful (cfg : Config) {tr : List Label} {s : BlockManagement}
    (h : (stage cfg).Run (fun s l => FreshId cfg s l ∧ AcceptedRecord cfg.ids l ∧
      NoRepeat cfg s l ∧ Careful cfg s l) tr s)
    {p : List Block} (hp : PathTo s.blockPool s.chainTail p) :
    (consumed (chainTxns p)).Nodup := by
  have hchain : ChainInv cfg.ids s := chainInv_run (fun _ _ hg => hg.1) h
  obtain ⟨q, hinv⟩ := ledgerInv_run
    (fun s l hg => ⟨hg.1, hg.2.1.plain, hg.2.2.1, hg.2.2.2⟩) h
  obtain rfl := hp.unique hchain.pools.keyed hinv.path
  exact consumed_nodup_of_replay (List.nodup_append.mp hinv.nodup).1 hinv.utxo

/-- What one batch brings through the validation stage is accepted. -/
theorem accepted_of_batch {ids : IdScheme} {txns : List BitcoinTxn}
    (hcheck : returns (TxnValidation.validate ids (.inserted _) (txns.length + 1) .new
      (txns.map fun t => (0, t))) (fun r => r.2 = txns.map fun t => (0, t)) = true)
    {t : BitcoinTxn} (ht : t ∈ txns) : Accepted ids t := by
  obtain ⟨⟨s, out⟩, hs, hout⟩ := returns_iff.mp hcheck
  obtain rfl : out = txns.map fun t => (0, t) := of_decide_eq_true hout
  refine ⟨[(_, _)], s, .snoc .nil trivial ⟨_, _, hs⟩, _, List.mem_singleton.mpr rfl, 0, ?_⟩
  exact List.mem_map_of_mem ht

/-- The transactions of the examples go through the validation stage. -/
theorem accepted_demo {t : BitcoinTxn} (ht : t ∈ [demoGrant, demoPay, demoTwice, demoFail]) :
    Accepted demo.ids t :=
  accepted_of_batch (by decide +kernel) ht

/-- Mining the payment is a careful run. -/
theorem demo_careful_run :
    ∃ s, (stage demo).Run (fun s l => FreshId demo s l ∧ AcceptedRecord demo.ids l ∧
        NoRepeat demo s l ∧ Careful demo s l)
      [(.recordNewTxn demoGrant, []), (.recordNewTxn demoPay, []), (.prepareNewBlock 7, []),
        (.getNewBlock, [demoBlock [demoGrant, demoPay]])] s ∧
      s.blockPool s.chainTail = some (demoBlock [demoGrant, demoPay], 1) := by
  refine demo_run (Or.inl rfl) (fun s => ⟨?_, ?_⟩) (fun s hq h1 h2 => ?_) (fun s hs => ?_)
  · refine ⟨fun h => absurd h (by simp), fun t ht => ?_, fun b h => absurd h (by simp),
      fun r h => absurd h (by simp), fun b h => absurd h (by simp)⟩
    exact accepted_demo (by simp [show t = demoGrant by simpa using ht.symm])
  · refine ⟨fun h => absurd h (by simp), fun t ht => ?_, fun b h => absurd h (by simp),
      fun r h => absurd h (by simp), fun b h => absurd h (by simp)⟩
    exact accepted_demo (by simp [show t = demoPay by simpa using ht.symm])
  · refine ⟨fun h => absurd h (by simp), fun t ht => absurd ht (by simp),
      fun b h => absurd h (by simp), fun r _ h hh t ht _ => ?_, fun b h => absurd h (by simp)⟩
    rw [hq] at hh
    rcases List.mem_cons.mp hh with rfl | hh
    · rw [h1, Option.some.injEq] at ht
      rw [← ht]
      decide
    · rw [List.mem_singleton.mp hh, h2, Option.some.injEq] at ht
      rw [← ht]
      decide
  · exact ⟨fun _ b _ => ⟨hs _, fun h b n hb => absurd ((hs h).symm.trans hb) (by simp)⟩,
      fun t ht => absurd ht (by simp), fun b h => absurd h (by simp),
      fun r h => absurd h (by simp), fun b h => absurd h (by simp)⟩

/-- Mining the `Send` with a repeated input is a run, though not a careful
one. -/
theorem demo_twice_run :
    ∃ s, (stage demo).Run (fun s l => FreshId demo s l ∧ AcceptedRecord demo.ids l ∧
        NoRepeat demo s l)
      [(.recordNewTxn demoGrant, []), (.recordNewTxn demoTwice, []), (.prepareNewBlock 7, []),
        (.getNewBlock, [demoBlock [demoGrant, demoTwice]])] s ∧
      s.blockPool s.chainTail = some (demoBlock [demoGrant, demoTwice], 1) := by
  refine demo_run (Or.inr rfl) (fun s => ⟨?_, ?_⟩) (fun s _ _ _ => ?_) (fun s hs => ?_)
  · refine ⟨fun h => absurd h (by simp), fun t ht => ?_, fun b h => absurd h (by simp)⟩
    exact accepted_demo (by simp [show t = demoGrant by simpa using ht.symm])
  · refine ⟨fun h => absurd h (by simp), fun t ht => ?_, fun b h => absurd h (by simp)⟩
    exact accepted_demo (by simp [show t = demoTwice by simpa using ht.symm])
  · exact ⟨fun h => absurd h (by simp), fun t ht => absurd ht (by simp),
      fun b h => absurd h (by simp)⟩
  · exact ⟨fun _ b _ => ⟨hs _, fun h b n hb => absurd ((hs h).symm.trans hb) (by simp)⟩,
      fun t ht => absurd ht (by simp), fun b h => absurd h (by simp)⟩

theorem no_double_spend_of_careful_demo :
    ∃ s : BlockManagement, s.blockPool s.chainTail = some (demoBlock [demoGrant, demoPay], 1) ∧
      ∀ p, PathTo s.blockPool s.chainTail p → (consumed (chainTxns p)).Nodup := by
  obtain ⟨s, hrun, htail⟩ := demo_careful_run
  exact ⟨s, htail, fun p hp => no_double_spend_of_careful demo hrun hp⟩

/-- A `Send` accepted by the validation stage that lists its input twice is
mined, and its block consumes the output twice. -/
theorem double_spend_mined :
    ∃ s p, (stage demo).Run (fun s l => FreshId demo s l ∧ AcceptedRecord demo.ids l ∧
        NoRepeat demo s l)
      [(.recordNewTxn demoGrant, []), (.recordNewTxn demoTwice, []), (.prepareNewBlock 7, []),
        (.getNewBlock, [demoBlock [demoGrant, demoTwice]])] s ∧
      PathTo s.blockPool s.chainTail p ∧ ¬ (consumed (chainTxns p)).Nodup := by
  obtain ⟨s, hrun, htail⟩ := demo_twice_run
  refine ⟨s, _, hrun, .snoc htail .genesis, ?_⟩
  decide

end Copycat.Bitcoin
