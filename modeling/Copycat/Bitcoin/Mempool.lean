import Copycat.Bitcoin.Building
import Copycat.Bitcoin.Reorg
import Copycat.Bitcoin.TxnValidation

/-!
# The mempool

Two laws of the transactions a node holds, over every call. `Stored` is about
`txn_pool` alone: every transaction is stored under its id and has whatever
property the environment promises of what it hands over or the value check
gives. `MempoolInv` says where an id can be: on the main chain, in the block
under construction or in `pending_txns`, in at most one of the three and there
once. The last part is what a reorganisation has to work for, since it moves
ids between all three places (`undo_txns`, `txns_applied`).

`NoRepeat` is the promise about peers that goes with it: no path a peer block
completes has a transaction twice. That the node's own blocks keep it is
proved here, not assumed.
-/

namespace Copycat.Bitcoin

open Copycat.Lib

variable {ids : IdScheme} {cfg : Config}

/-! ## The stored transactions -/

/-- The transaction loop of `validate_block` forgets nothing. -/
theorem validateTxns_grows {txns : List BitcoinTxn} :
    ∀ {pool pool' : Hash → Option BitcoinTxn} {valid : Bool},
      validateTxns ids pool txns = .ok (pool', valid) →
      ∀ h t, pool h = some t → pool' h = some t := by
  induction txns with
  | nil =>
    intro pool pool' valid h
    simp only [validateTxns, Except.ok.injEq, Prod.mk.injEq] at h
    obtain ⟨rfl, -⟩ := h
    exact fun _ _ ht => ht
  | cons t txns ih =>
    intro pool pool' valid h
    rw [validateTxns] at h
    by_cases hknown : (pool (ids.txnId t)).isSome
    · rw [if_pos hknown] at h
      exact ih h
    · rw [if_neg hknown, bind_eq_ok] at h
      obtain ⟨valid₁, -, h⟩ := h
      cases valid₁ with
      | false =>
        simp only [Bool.false_eq_true, if_false, Except.ok.injEq, Prod.mk.injEq] at h
        obtain ⟨rfl, -⟩ := h
        exact fun _ _ ht => ht
      | true =>
        rw [if_pos rfl] at h
        refine fun h₀ t₀ ht₀ => ih h h₀ t₀ ?_
        have hne : h₀ ≠ ids.txnId t := fun e => by
          rw [← e, ht₀] at hknown
          exact hknown rfl
        rw [Function.update_of_ne hne]
        exact ht₀

/-- What the transaction loop of `validate_block` does to the pool: everything new
went through `validate_txn`, and if all went through then all are stored. -/
theorem validateTxns_spec {Q : BitcoinTxn → Prop} {txns : List BitcoinTxn}
    (hQ : ∀ t ∈ txns, ∀ pool, Stored ids Q pool → validateTxn pool t = .ok true → Q t) :
    ∀ {pool pool' : Hash → Option BitcoinTxn} {valid : Bool}, Stored ids Q pool →
      validateTxns ids pool txns = .ok (pool', valid) →
      Stored ids Q pool' ∧ (∀ h t, pool h = some t → pool' h = some t) ∧
        (valid → ∀ t ∈ txns, pool' (ids.txnId t) = some t) := by
  induction txns with
  | nil =>
    intro pool pool' valid hs h
    refine ⟨?_, validateTxns_grows h, fun _ t ht => absurd ht List.not_mem_nil⟩
    simp only [validateTxns, Except.ok.injEq, Prod.mk.injEq] at h
    obtain ⟨rfl, -⟩ := h
    exact hs
  | cons t txns ih =>
    intro pool pool' valid hs h
    have hgrows := validateTxns_grows h
    have hQ' : ∀ t' ∈ txns, ∀ pool, Stored ids Q pool → validateTxn pool t' = .ok true → Q t' :=
      fun t' ht' => hQ t' (List.mem_cons_of_mem _ ht')
    rw [validateTxns] at h
    by_cases hknown : (pool (ids.txnId t)).isSome
    · rw [if_pos hknown] at h
      obtain ⟨hs', -, hall⟩ := ih hQ' hs h
      refine ⟨hs', hgrows, fun hv t' ht' => ?_⟩
      rcases List.mem_cons.mp ht' with rfl | ht'
      · obtain ⟨t₀, ht₀⟩ := Option.isSome_iff_exists.mp hknown
        have he : t₀ = t' := ids.txnId_inj (hs _ _ ht₀).1
        exact hgrows _ _ (he ▸ ht₀)
      · exact hall hv t' ht'
    · rw [if_neg hknown, bind_eq_ok] at h
      obtain ⟨valid₁, hvalid, h⟩ := h
      cases valid₁ with
      | false =>
        simp only [Bool.false_eq_true, if_false, Except.ok.injEq, Prod.mk.injEq] at h
        obtain ⟨rfl, rfl⟩ := h
        exact ⟨hs, hgrows, by simp⟩
      | true =>
        rw [if_pos rfl] at h
        have ht := hQ t (List.mem_cons_self ..) pool hs hvalid
        obtain ⟨hs', hmono, hall⟩ := ih hQ' (stored_insert hs ht) h
        refine ⟨hs', hgrows, fun hv t' ht' => ?_⟩
        rcases List.mem_cons.mp ht' with rfl | ht'
        · exact hmono _ _ (by simp)
        · exact hall hv t' ht'

/-- Whatever `validate_block` does, the transactions it leaves are those its
transaction loop leaves. -/
theorem Outcome.txnPool_cases {ord : HashOrder} {s : BlockManagement} {block : Block}
    {v : Validated} (h : Outcome ids ord s block v) :
    v.state.txnPool = s.txnPool ∨
      ∃ valid, validateTxns ids s.txnPool block.txns = .ok (v.state.txnPool, valid) := by
  cases h with
  | ignored => exact Or.inl rfl
  | rejected _ htx => exact Or.inr ⟨_, htx⟩
  | parked _ htx _ => exact Or.inr ⟨_, htx⟩
  | shorter hc _ _ => exact Or.inr ⟨_, hc.txns⟩
  | invalid hc _ _ => exact Or.inr ⟨_, hc.txns⟩
  | adopted hc _ _ => exact Or.inr ⟨_, hc.txns⟩

/-- Every call keeps the stored transactions good and forgets none. -/
theorem stored_step {Q : BitcoinTxn → Prop} {s s' : BlockManagement} {l : Label}
    (hchain : ChainInv cfg.ids s) (hs : Stored cfg.ids Q s.txnPool)
    (hrec : ∀ t, l.1 = .recordNewTxn t → Q t)
    (hval : ∀ block, l.1 = .validateBlock block → ∀ t ∈ block.txns, ∀ pool,
      Stored cfg.ids Q pool → validateTxn pool t = .ok true → Q t)
    (h : Step cfg s l s') :
    Stored cfg.ids Q s'.txnPool ∧ ∀ h t, s.txnPool h = some t → s'.txnPool h = some t := by
  cases h with
  | record txn =>
    unfold recordNewTxn
    dsimp only
    split
    · exact ⟨hs, fun _ _ ht => ht⟩
    · refine ⟨stored_insert hs (hrec txn rfl), fun h t ht => ?_⟩
      rename_i hnew
      have hne : h ≠ cfg.ids.txnId txn := fun e => by
        rw [← e, ht] at hnew
        exact hnew rfl
      simpa [hne] using ht
  | prepare h =>
    obtain ⟨-, htxn, -, -⟩ := prepareNewBlock_frame h
    rw [htxn]
    exact ⟨hs, fun _ _ ht => ht⟩
  | mine h =>
    obtain ⟨chainLength, root, -, -, -, rfl⟩ := getNewBlock_cases h
    exact ⟨hs, fun _ _ ht => ht⟩
  | @validate ord fuel block v h =>
    have hout := (validateBlock_spec ord hchain block).1 _ _ h
    rcases hout.txnPool_cases with he | ⟨valid, htx⟩
    · rw [he]
      exact ⟨hs, fun _ _ ht => ht⟩
    · obtain ⟨hs', hmono, -⟩ := validateTxns_spec (hval block rfl) hs htx
      exact ⟨hs', hmono⟩

/-- The value check turns away an `Incentive` by not returning. -/
theorem plain_of_validateTxn {pool : Hash → Option BitcoinTxn} {t : BitcoinTxn}
    (h : validateTxn pool t = .ok true) : t.isIncentive = false := by
  cases t with
  | incentive o r => exact absurd h (by simp [validateTxn])
  | send t => rfl
  | grant o r => rfl

/-! ## `undo_txns` and `txns_applied` -/

theorem undoTxns_eq {txns : List BitcoinTxn} (hplain : ∀ t ∈ txns, t.isIncentive = false) :
    ∀ u : Undo, (txns.foldl (undoTxn ids) u).undoTxns =
      u.undoTxns ∪ (txnIds ids txns).toFinset := by
  induction txns with
  | nil =>
    intro u
    show u.undoTxns = u.undoTxns ∪ (txnIds ids []).toFinset
    simp [txnIds]
  | cons t txns ih =>
    intro u
    rw [List.foldl_cons, ih (fun t' ht' => hplain t' (List.mem_cons_of_mem _ ht'))]
    ext h
    simp [undoTxn, hplain t (List.mem_cons_self ..), txnIds]

/-- The redo loop takes what it applies out of `undo_txns`, and lists what was
not in there. -/
theorem redoTxns_eq {U : Finset Utxo} {txns : List BitcoinTxn}
    (hplain : ∀ t ∈ txns, t.isIncentive = false) :
    ∀ {r r' : Redo}, (txnIds ids txns).Nodup → txns.foldlM (redoTxn ids U) r = some r' →
      r'.undoTxns = r.undoTxns \ (txnIds ids txns).toFinset ∧
      r'.txnsApplied = r.txnsApplied ∪ ((txnIds ids txns).toFinset \ r.undoTxns) := by
  induction txns with
  | nil =>
    intro r r' _ h
    have : r = r' := Option.some.inj h
    subst this
    simp [txnIds]
  | cons t txns ih =>
    intro r r' hnd h
    rw [List.foldlM_cons] at h
    obtain ⟨r₁, hr₁, h⟩ := Option.bind_eq_some_iff.mp h
    have ht := hplain t (List.mem_cons_self ..)
    have hnd' : ids.txnId t ∉ txnIds ids txns ∧ (txnIds ids txns).Nodup :=
      List.nodup_cons.mp hnd
    obtain ⟨hu, ha⟩ := ih (fun t' ht' => hplain t' (List.mem_cons_of_mem _ ht')) hnd'.2 h
    obtain ⟨d, -, hr₁⟩ := Option.bind_eq_some_iff.mp hr₁
    split at hr₁
    · have hr₁ := Option.some.inj hr₁
      rw [hu, ha, ← hr₁]
      simp only [ht, Bool.false_eq_true, if_false, Bool.false_or, decide_eq_true_eq]
      have hcons : (txnIds ids (t :: txns)).toFinset =
          insert (ids.txnId t) (txnIds ids txns).toFinset := by
        simp [txnIds]
      have hnot : ids.txnId t ∉ (txnIds ids txns).toFinset := by
        simpa using hnd'.1
      rw [hcons]
      constructor
      · ext x
        simp only [Finset.mem_sdiff, Finset.mem_erase, Finset.mem_insert]
        tauto
      · by_cases hmem : ids.txnId t ∈ r.undoTxns
        · rw [if_pos hmem]
          ext x
          by_cases hx : x = ids.txnId t
          · subst hx
            simp [hmem, hnd'.1]
          · simp [hx]
        · rw [if_neg hmem]
          ext x
          by_cases hx : x = ids.txnId t
          · subst hx
            simp [hmem]
          · simp [hx]
    · exact absurd hr₁ (by simp)

/-! ## Where an id can be -/

/-- Everything a block or a queue names is stored. -/
structure QueueInv (ids : IdScheme) (s : BlockManagement) : Prop where
  stored : Stored ids (fun t => t.isIncentive = false) s.txnPool
  blocks : ∀ h b n, s.blockPool h = some (b, n) → ∀ t ∈ b.txns, s.txnPool (ids.txnId t) = some t
  queued : ∀ h ∈ s.blockUnderConstruction ++ s.pendingTxns, (s.txnPool h).isSome

/-- The law of the mempool, over the main chain `p`. -/
structure MempoolInv (ids : IdScheme) (s : BlockManagement) (p : List Block) : Prop
    extends QueueInv ids s where
  path : PathTo s.blockPool s.chainTail p
  nodup : (txnIds ids (chainTxns p) ++ (s.blockUnderConstruction ++ s.pendingTxns)).Nodup

/-- A recorded transaction is not an `Incentive`. -/
def PlainRecord (l : Label) : Prop :=
  ∀ t, l.1 = .recordNewTxn t → t.isIncentive = false

/-- The pool with `block` in it. -/
def withBlock (ids : IdScheme) (pool : Hash → Option (Block × Nat)) (block : Block) :
    Hash → Option (Block × Nat) :=
  Function.update pool (ids.blkId block.header) (some (block, 0))

/-- With a peer block that connects, no path from genesis has a transaction
twice. -/
def NoRepeat (cfg : Config) (s : BlockManagement) (l : Label) : Prop :=
  ∀ block, l.1 = .validateBlock block → Connectable cfg.ids s block →
    ∀ h p, PathTo (withBlock cfg.ids s.blockPool block) h p →
      (txnIds cfg.ids (chainTxns p)).Nodup

theorem queueInv_new : QueueInv ids BlockManagement.new where
  stored := fun h t ht => absurd ht (by simp [BlockManagement.new])
  blocks := fun h b n hb => absurd hb (by simp [BlockManagement.new])
  queued := by simp [BlockManagement.new]

/-- Connecting a block adds that block and no other. -/
theorem Connects.extends_withBlock {s : BlockManagement} (hinv : ChainInv ids s) {block : Block}
    {txnPool : Hash → Option BitcoinTxn} {r : Pools × Hash × Nat}
    (hc : Connects ids s block txnPool r) :
    Extends r.1.blockPool (withBlock ids s.blockPool block) := by
  intro h b n hb
  unfold withBlock
  rcases hc.updated.block_cases hinv.pools hb with
    ⟨rfl, rfl, -⟩ | ⟨hne, d, -, hb', -⟩ | ⟨hne, -, hb'⟩
  · exact ⟨0, by simp⟩
  · exact ⟨0, by simpa [hne] using hb'⟩
  · exact ⟨n, by simpa [hne] using hb'⟩

/-- The transactions of the block under construction, read from the pool. -/
theorem txnIds_of_mapM {Q : BitcoinTxn → Prop} {pool : Hash → Option BitcoinTxn}
    (hs : Stored ids Q pool) :
    ∀ {hs : List Hash} {txns : List BitcoinTxn}, hs.mapM pool = some txns →
      txnIds ids txns = hs ∧ ∀ t ∈ txns, pool (ids.txnId t) = some t := by
  intro hs
  induction hs with
  | nil =>
    intro txns h
    have : txns = [] := by simpa using h.symm
    subst this
    exact ⟨rfl, by simp⟩
  | cons x hs ih =>
    intro txns h
    rw [List.mapM_cons] at h
    obtain ⟨t, ht, h⟩ := Option.bind_eq_some_iff.mp h
    obtain ⟨ts, hts, h⟩ := Option.bind_eq_some_iff.mp h
    have : t :: ts = txns := Option.some.inj h
    subst this
    obtain ⟨hids, hall⟩ := ih hts
    have hx : ids.txnId t = x := (‹Stored ids Q pool› x t ht).1
    refine ⟨?_, ?_⟩
    · show ids.txnId t :: txnIds ids ts = x :: hs
      rw [hx, hids]
    · intro t' ht'
      rcases List.mem_cons.mp ht' with rfl | ht'
      · rw [hx]
        exact ht
      · exact hall t' ht'

section Queue

variable {s : BlockManagement} {p : List Block}

/-- The transactions of a path are stored. -/
theorem QueueInv.chain_stored (h : QueueInv ids s) {tail : Hash}
    (hp : PathTo s.blockPool tail p) {t : BitcoinTxn} (ht : t ∈ chainTxns p) :
    s.txnPool (ids.txnId t) = some t := by
  obtain ⟨b, hb, ht⟩ := List.mem_flatMap.mp ht
  obtain ⟨hash, n, hpool⟩ := hp.mem_pooled b hb
  exact h.blocks hash b n hpool t ht

theorem QueueInv.id_stored (h : QueueInv ids s) {tail : Hash}
    (hp : PathTo s.blockPool tail p) {x : Hash} (hx : x ∈ txnIds ids (chainTxns p)) :
    (s.txnPool x).isSome := by
  obtain ⟨t, ht, rfl⟩ := List.mem_map.mp hx
  rw [h.chain_stored hp ht]
  rfl

/-- More transactions, and blocks whose transactions are among them. -/
theorem QueueInv.grow {s' : BlockManagement} (hinv : QueueInv ids s)
    (hs : Stored ids (fun t => t.isIncentive = false) s'.txnPool)
    (hmono : ∀ h t, s.txnPool h = some t → s'.txnPool h = some t)
    (hblocks : ∀ h b n, s'.blockPool h = some (b, n) →
      (∃ m, s.blockPool h = some (b, m)) ∨ ∀ t ∈ b.txns, s'.txnPool (ids.txnId t) = some t)
    (hqueue : ∀ h ∈ s'.blockUnderConstruction ++ s'.pendingTxns,
      h ∈ s.blockUnderConstruction ++ s.pendingTxns ∨ (s'.txnPool h).isSome) :
    QueueInv ids s' := by
  refine ⟨hs, fun h b n hb t ht => ?_, fun h hh => ?_⟩
  · rcases hblocks h b n hb with ⟨m, hm⟩ | hall
    · exact hmono _ _ (hinv.blocks h b m hm t ht)
    · exact hall t ht
  · rcases hqueue h hh with h1 | h1
    · obtain ⟨t, ht⟩ := Option.isSome_iff_exists.mp (hinv.queued h h1)
      exact Option.isSome_iff_exists.mpr ⟨t, hmono h t ht⟩
    · exact h1

/-- Only the order of the queue and the place of its front change while a
block is built. -/
theorem build_perm {enumSize : Nat} {s' : BlockManagement} (h : BuildStep enumSize s s') :
    s'.toPools = s.toPools ∧ s'.txnPool = s.txnPool ∧ s'.chainTail = s.chainTail ∧
      (s'.blockUnderConstruction ++ s'.pendingTxns).Perm
        (s.blockUnderConstruction ++ s.pendingTxns) := by
  cases h with
  | @take txnHash rest txn hq _ _ _ =>
    refine ⟨rfl, rfl, rfl, ?_⟩
    show (s.blockUnderConstruction ++ [txnHash] ++ rest).Perm _
    rw [hq, List.append_assoc]
    exact List.Perm.refl _
  | @rotate txnHash rest txn hq _ _ _ =>
    refine ⟨rfl, rfl, rfl, ?_⟩
    show (s.blockUnderConstruction ++ (rest ++ [txnHash])).Perm _
    rw [hq]
    exact (List.perm_append_singleton txnHash rest).append_left _

theorem QueueInv.build {enumSize : Nat} {s' : BlockManagement} (hinv : QueueInv ids s)
    (h : BuildStep enumSize s s') : QueueInv ids s' := by
  obtain ⟨hpools, htxn, -, hperm⟩ := build_perm h
  refine ⟨htxn ▸ hinv.stored, ?_, fun x hx => ?_⟩
  · rw [hpools, htxn]
    exact hinv.blocks
  · rw [htxn]
    exact hinv.queued x (hperm.mem_iff.mp hx)

theorem MempoolInv.build {enumSize : Nat} {s' : BlockManagement} (hinv : MempoolInv ids s p)
    (h : BuildStep enumSize s s') : MempoolInv ids s' p := by
  obtain ⟨hpools, -, htail, hperm⟩ := build_perm h
  refine ⟨hinv.toQueueInv.build h, ?_, ((hperm.append_left _).nodup_iff).mpr hinv.nodup⟩
  rw [hpools, htail]
  exact hinv.path

/-- A mined block takes the ids under construction to the main chain. -/
theorem QueueInv.mined (hinv : QueueInv ids s) {block : Block} {n : Nat}
    (htxns : s.blockUnderConstruction.mapM s.txnPool = some block.txns) :
    QueueInv ids (mined ids s block n) := by
  refine hinv.grow hinv.stored (fun _ _ ht => ht) (fun h b m hb => ?_) (fun h hh => ?_)
  · by_cases he : h = ids.blkId block.header
    · have hbm : block = b ∧ n + 1 = m := by simpa [Bitcoin.mined, he] using hb
      right
      rw [← hbm.1]
      exact (txnIds_of_mapM hinv.stored htxns).2
    · exact Or.inl ⟨m, by simpa [Bitcoin.mined, he] using hb⟩
  · exact Or.inl (List.mem_append_right _ (by simpa [Bitcoin.mined] using hh))

theorem MempoolInv.mined (hinv : MempoolInv ids s p) {block : Block} {n : Nat}
    (hprev : block.prev = s.chainTail)
    (hfresh : s.blockPool (ids.blkId block.header) = none)
    (htxns : s.blockUnderConstruction.mapM s.txnPool = some block.txns) :
    MempoolInv ids (mined ids s block n) (p ++ [block]) := by
  have hext : Extends s.blockPool (Bitcoin.mined ids s block n).blockPool := extends_insert hfresh
  refine ⟨hinv.toQueueInv.mined htxns, .snoc (n := n + 1) (b := block) ?_ ?_, ?_⟩
  · simp [Bitcoin.mined]
  · rw [hprev]
    exact hinv.path.mono hext
  · show (txnIds ids (chainTxns (p ++ [block])) ++ ([] ++ s.pendingTxns)).Nodup
    rw [chainTxns_append, chainTxns_singleton, txnIds_append,
      (txnIds_of_mapM hinv.stored htxns).1, List.nil_append, List.append_assoc]
    exact hinv.nodup

/-- A newly recorded id goes to the back of the queue. -/
theorem QueueInv.record (hinv : QueueInv ids s) {t : BitcoinTxn} (ht : t.isIncentive = false) :
    QueueInv ids (recordNewTxn ids s t).1 := by
  unfold recordNewTxn
  dsimp only
  split
  · exact hinv
  · rename_i hnew
    refine hinv.grow (stored_insert hinv.stored ht) (fun h t' ht' => ?_)
      (fun h b n hb => Or.inl ⟨n, hb⟩) (fun h hh => ?_)
    · have hne : h ≠ ids.txnId t := fun e => hnew (by rw [← e, ht']; rfl)
      simpa [hne] using ht'
    · by_cases he : h = ids.txnId t
      · exact Or.inr (by simp [he])
      · left
        rcases List.mem_append.mp hh with h1 | h1
        · exact List.mem_append_left _ h1
        · rcases List.mem_append.mp h1 with h2 | h2
          · exact List.mem_append_right _ h2
          · exact absurd (List.mem_singleton.mp h2) he

theorem MempoolInv.record (hinv : MempoolInv ids s p) {t : BitcoinTxn}
    (ht : t.isIncentive = false) : MempoolInv ids (recordNewTxn ids s t).1 p := by
  refine ⟨hinv.toQueueInv.record ht, ?_, ?_⟩
  · unfold recordNewTxn
    dsimp only
    split
    · exact hinv.path
    · exact hinv.path
  · unfold recordNewTxn
    dsimp only
    split
    · exact hinv.nodup
    · rename_i hnew
      show (_ ++ (s.blockUnderConstruction ++ (s.pendingTxns ++ [ids.txnId t]))).Nodup
      rw [← List.append_assoc, ← List.append_assoc]
      refine List.nodup_append.mpr ⟨?_, by simp, fun x hx y hy he => ?_⟩
      · rw [List.append_assoc]
        exact hinv.nodup
      · -- everything in the three places is stored, the new id is not
        rw [List.mem_singleton.mp hy] at he
        subst he
        rw [List.append_assoc] at hx
        rcases List.mem_append.mp hx with h1 | h1
        · exact hnew (hinv.id_stored hinv.path h1)
        · exact hnew (hinv.queued _ h1)

/-- A peer block that is turned away may leave transactions behind. -/
theorem QueueInv.rejected (hinv : QueueInv ids s) {txns : List BitcoinTxn}
    {txnPool : Hash → Option BitcoinTxn} {valid : Bool}
    (htx : validateTxns ids s.txnPool txns = .ok (txnPool, valid)) :
    QueueInv ids { s with txnPool := txnPool } := by
  obtain ⟨hs', hmono, -⟩ := validateTxns_spec
    (fun t _ pool _ hv => plain_of_validateTxn hv) hinv.stored htx
  exact hinv.grow hs' hmono (fun h b n hb => Or.inl ⟨n, hb⟩) (fun h hh => Or.inl hh)

/-- A parked block brings its transactions along. -/
theorem QueueInv.parked (hinv : QueueInv ids s) {block : Block}
    {txnPool : Hash → Option BitcoinTxn} {orphanBlocks : Hash → Option (Finset Hash)}
    (htx : validateTxns ids s.txnPool block.txns = .ok (txnPool, true)) :
    QueueInv ids
      { s with
        txnPool := txnPool
        blockPool := Function.update s.blockPool (ids.blkId block.header) (some (block, 0))
        orphanBlocks := orphanBlocks } := by
  obtain ⟨hs', hmono, hall⟩ := validateTxns_spec
    (fun t _ pool _ hv => plain_of_validateTxn hv) hinv.stored htx
  refine hinv.grow hs' hmono (fun h b n hb => ?_) (fun h hh => Or.inl hh)
  by_cases he : h = ids.blkId block.header
  · have hbm : block = b ∧ 0 = n := by simpa [he] using hb
    exact Or.inr (hbm.1 ▸ hall rfl)
  · exact Or.inl ⟨n, by simpa [he] using hb⟩

/-- So does a connected one. -/
theorem QueueInv.connects (hinv : QueueInv ids s) (hchain : ChainInv ids s) {block : Block}
    {txnPool : Hash → Option BitcoinTxn} {r : Pools × Hash × Nat}
    (hc : Connects ids s block txnPool r) :
    QueueInv ids { s with txnPool := txnPool, toPools := r.1 } := by
  obtain ⟨hs', hmono, hall⟩ := validateTxns_spec
    (fun t _ pool _ hv => plain_of_validateTxn hv) hinv.stored hc.txns
  refine hinv.grow hs' hmono (fun h b n hb => ?_) (fun h hh => Or.inl hh)
  rcases hc.updated.block_cases hchain.pools hb with
    ⟨-, rfl, -⟩ | ⟨-, d, -, hb', -⟩ | ⟨-, -, hb'⟩
  · exact Or.inr (hall rfl)
  · exact Or.inl ⟨0, hb'⟩
  · exact Or.inl ⟨n, hb'⟩

/-- A queue that is left alone. -/
theorem MempoolInv.keep {s' : BlockManagement} (hinv : MempoolInv ids s p)
    (hq : QueueInv ids s') (hpath : PathTo s'.blockPool s'.chainTail p)
    (hb : s'.blockUnderConstruction = s.blockUnderConstruction)
    (hp : s'.pendingTxns = s.pendingTxns) : MempoolInv ids s' p := by
  refine ⟨hq, hpath, ?_⟩
  rw [hb, hp]
  exact hinv.nodup

end Queue

/-! ## Moving over -/

section MoveOver

variable {s : BlockManagement} {anc new old : List Block} {newTail : Hash} {rd : Redo}

/-- The new queue: what was queued and what was undone, less what has been
applied. -/
theorem mem_pending_moveOver (ord : HashOrder) (newTail : Hash) {x : Hash} :
    x ∈ (moveOver ord s newTail rd).pendingTxns ↔
      (x ∈ s.blockUnderConstruction ++ s.pendingTxns ∨ x ∈ rd.undoTxns) ∧
        x ∉ rd.txnsApplied := by
  show x ∈ List.filter _ _ ↔ _
  rw [List.mem_filter, List.mem_append, List.perm_append_comm.mem_iff, ord.mem]
  simp

/-- What a redo leaves undone was on the old branch. -/
theorem undone_of_redoBranch {U : Finset Utxo} (hplain : ∀ t ∈ chainTxns old, t.isIncentive = false)
    (hrd : redoBranch ids U old new = some rd) :
    ∀ x ∈ rd.undoTxns, x ∈ txnIds ids (chainTxns old) := by
  have hsub : ∀ (txns : List BitcoinTxn) {r r' : Redo},
      txns.foldlM (redoTxn ids U) r = some r' → r'.undoTxns ⊆ r.undoTxns := by
    intro txns
    induction txns with
    | nil =>
      intro r r' h
      have : r = r' := Option.some.inj h
      exact this ▸ Finset.Subset.refl _
    | cons t txns ih =>
      intro r r' h
      rw [List.foldlM_cons] at h
      obtain ⟨r₁, hr₁, h⟩ := Option.bind_eq_some_iff.mp h
      obtain ⟨d, -, hr₁⟩ := Option.bind_eq_some_iff.mp hr₁
      split at hr₁
      · refine (ih h).trans ?_
        rw [← Option.some.inj hr₁]
        dsimp only
        split
        · exact Finset.Subset.refl _
        · exact Finset.erase_subset _ _
      · exact absurd hr₁ (by simp)
  unfold redoBranch at hrd
  dsimp only at hrd
  rw [redoChain_eq, undoChain_eq] at hrd
  intro x hx
  have := hsub _ hrd hx
  dsimp only at this
  rw [undoTxns_eq (fun t ht => hplain t (List.mem_reverse.mp ht))] at this
  simpa [txnIds] using this

theorem QueueInv.moveOver (ord : HashOrder) (hinv : QueueInv ids s)
    (hold : PathTo s.blockPool s.chainTail (anc ++ old))
    (hrd : redoBranch ids s.utxo old new = some rd) :
    QueueInv ids (moveOver ord s newTail rd) := by
  have hmem : ∀ t ∈ chainTxns old, t ∈ chainTxns (anc ++ old) := fun t ht => by
    rw [chainTxns_append]
    exact List.mem_append_right _ ht
  have hplain : ∀ t ∈ chainTxns old, t.isIncentive = false := fun t ht =>
    (hinv.stored _ _ (hinv.chain_stored hold (hmem t ht))).2
  refine hinv.grow hinv.stored (fun _ _ ht => ht) (fun h b n hb => Or.inl ⟨n, hb⟩) fun x hx => ?_
  rcases ((mem_pending_moveOver ord newTail).mp hx).1 with h1 | h1
  · exact Or.inl h1
  · obtain ⟨t, ht, rfl⟩ := List.mem_map.mp (undone_of_redoBranch hplain hrd x h1)
    right
    show (s.txnPool (ids.txnId t)).isSome
    rw [hinv.chain_stored hold (hmem t ht)]
    rfl

/-- Moving over to the other branch sorts every id into its new place. -/
theorem MempoolInv.moveOver (ord : HashOrder) (hinv : MempoolInv ids s (anc ++ old))
    (hpath : PathTo s.blockPool newTail (anc ++ new))
    (hnew : (txnIds ids (chainTxns (anc ++ new))).Nodup)
    (hrd : redoBranch ids s.utxo old new = some rd) :
    MempoolInv ids (moveOver ord s newTail rd) (anc ++ new) := by
  have hplainOld : ∀ t ∈ chainTxns old, t.isIncentive = false := fun t ht =>
    (hinv.stored _ _ (hinv.chain_stored hinv.path
      (by rw [chainTxns_append]; exact List.mem_append_right _ ht))).2
  have hplainNew : ∀ t ∈ chainTxns new, t.isIncentive = false := fun t ht =>
    (hinv.stored _ _ (hinv.chain_stored hpath
      (by rw [chainTxns_append]; exact List.mem_append_right _ ht))).2
  -- the two sets the redo loop ends with
  have hrd₀ := hrd
  unfold redoBranch at hrd
  dsimp only at hrd
  rw [redoChain_eq, undoChain_eq] at hrd
  have hnew' := hnew
  rw [chainTxns_append, txnIds_append] at hnew'
  obtain ⟨hundo, happlied⟩ := redoTxns_eq hplainNew (List.nodup_append.mp hnew').2.1 hrd
  rw [undoTxns_eq (fun t ht => hplainOld t (List.mem_reverse.mp ht))] at hundo happlied
  have hundo : ∀ x, x ∈ rd.undoTxns ↔
      x ∈ txnIds ids (chainTxns old) ∧ x ∉ txnIds ids (chainTxns new) := by
    intro x
    rw [hundo]
    simp [txnIds]
  have happlied : ∀ x, x ∈ rd.txnsApplied ↔
      x ∈ txnIds ids (chainTxns new) ∧ x ∉ txnIds ids (chainTxns old) := by
    intro x
    rw [happlied]
    simp [txnIds]
  have hnd := hinv.nodup
  rw [chainTxns_append, txnIds_append] at hnd
  obtain ⟨hndmain, hndq, hdisj⟩ := List.nodup_append.mp hnd
  refine ⟨hinv.toQueueInv.moveOver ord hinv.path hrd₀, hpath, ?_⟩
  refine List.nodup_append.mpr ⟨hnew, ?_, ?_⟩
  · -- the new queue: what was queued, then what only the old branch has
    show (List.filter _ _).Nodup
    refine List.Nodup.filter _ ?_
    have hq : (s.pendingTxns ++ s.blockUnderConstruction).Nodup :=
      (List.perm_append_comm.nodup_iff).mpr hndq
    refine List.nodup_append.mpr ⟨hq, ord.nodup _, fun x hx y hy he => ?_⟩
    subst he
    have hold := ((hundo x).mp ((ord.mem _ _).mp hy)).1
    exact hdisj x (List.mem_append_right _ hold) x
      (List.perm_append_comm.mem_iff.mp hx) rfl
  · intro x hx y hy he
    subst he
    obtain ⟨hplace, happ⟩ := (mem_pending_moveOver ord newTail).mp hy
    rw [chainTxns_append, txnIds_append] at hx
    rcases List.mem_append.mp hx with hx | hx
    · -- on the common part: it was on the main chain before
      rcases hplace with h1 | h1
      · exact hdisj x (List.mem_append_left _ hx) x h1 rfl
      · exact (List.nodup_append.mp hndmain).2.2 x hx x ((hundo x).mp h1).1 rfl
    · by_cases hold : x ∈ txnIds ids (chainTxns old)
      · rcases hplace with h1 | h1
        · exact hdisj x (List.mem_append_right _ hold) x h1 rfl
        · exact ((hundo x).mp h1).2 hx
      · exact happ ((happlied x).mpr ⟨hx, hold⟩)

end MoveOver

/-- The pool only grows, and neither the UTXO set nor the block under
construction changes. -/
structure Steady (s s' : BlockManagement) : Prop where
  mono : ∀ h t, s.txnPool h = some t → s'.txnPool h = some t
  utxo : s'.utxo = s.utxo
  newUtxo : s'.newUtxo = s.newUtxo
  utxoSpent : s'.utxoSpent = s.utxoSpent
  underConstruction : s'.blockUnderConstruction = s.blockUnderConstruction

/-- A transaction that is taken into the block spends what there is, and what it
makes was not there: its id is new to the main chain and to the block. -/
theorem MempoolInv.take_outputs {s : BlockManagement} {p : List Block} (hinv : MempoolInv ids s p)
    {txnHash : Hash} {rest : List Hash} {txn : BitcoinTxn}
    (hq : s.pendingTxns = txnHash :: rest) (hok : s.includable txn)
    (hmade : ∀ k ∈ (s.utxo ∪ s.newUtxo) \ s.utxoSpent,
      k.1 ∈ txnIds ids (chainTxns p) ++ s.blockUnderConstruction)
    (hspent : ∀ k ∈ s.utxoSpent, k.1 ∈ txnIds ids (chainTxns p) ++ s.blockUnderConstruction) :
    (∀ k ∈ txn.inputs, k ∈ (s.utxo ∪ s.newUtxo) \ s.utxoSpent) ∧
    (s.utxo ∪ (s.newUtxo ∪ (txn.outputs txnHash).toFinset)) \
        (s.utxoSpent ∪ txn.inputs.toFinset) =
      ((s.utxo ∪ s.newUtxo) \ s.utxoSpent) \ txn.inputs.toFinset ∪
        (txn.outputs txnHash).toFinset ∧
    ∀ k ∈ s.utxoSpent ∪ txn.inputs.toFinset,
      k.1 ∈ txnIds ids (chainTxns p) ++ (s.blockUnderConstruction ++ [txnHash]) := by
  obtain ⟨hall, -⟩ : (∀ k ∈ txn.inputs, s.spendable k) ∧ txn.scriptOk := by
    simpa [BlockManagement.includable] using hok
  have hspend : ∀ k ∈ txn.inputs, k ∈ (s.utxo ∪ s.newUtxo) \ s.utxoSpent := by
    intro k hk
    have := hall k hk
    simpa [BlockManagement.spendable] using this
  have hnew : txnHash ∉ txnIds ids (chainTxns p) ++ s.blockUnderConstruction := by
    intro hx
    have := hinv.nodup
    rw [hq, ← List.append_assoc] at this
    exact (List.nodup_append.mp this).2.2 _ hx _ (List.mem_cons_self ..) rfl
  -- what the transaction makes is neither marked as consumed nor one of its inputs
  have hout : ∀ k ∈ txn.outputs txnHash, k ∉ s.utxoSpent ∧ k ∉ txn.inputs := by
    intro k hk
    have h1 := BitcoinTxn.outputs_fst hk
    constructor
    · intro hx
      exact hnew (h1 ▸ hspent k hx)
    · intro hx
      exact hnew (h1 ▸ hmade k (hspend k hx))
  refine ⟨hspend, ?_, ?_⟩
  · ext k
    have := hout k
    simp only [Finset.mem_sdiff, Finset.mem_union, List.mem_toFinset]
    tauto
  · intro k hk
    rw [← List.append_assoc]
    refine List.mem_append_left _ ?_
    rcases Finset.mem_union.mp hk with h1 | h1
    · exact hspent k h1
    · exact hmade k (hspend k (List.mem_toFinset.mp h1))

/-- Recording a transaction only adds it to the pool and to the queue. -/
theorem steady_record {s : BlockManagement} {txn : BitcoinTxn}
    (hmono : ∀ h t, s.txnPool h = some t → (recordNewTxn ids s txn).1.txnPool h = some t) :
    Steady s (recordNewTxn ids s txn).1 := by
  refine ⟨hmono, ?_, ?_, ?_, ?_⟩
  all_goals
    unfold recordNewTxn
    dsimp only
    split
    · rfl
    · rfl

/-- Every way `validate_block` can end leaves the main chain as it is, or adopts
a branch; the law of the mempool holds on the way to that. -/
theorem MempoolInv.outcome {ord : HashOrder} {s : BlockManagement} {block : Block} {v : Validated}
    {p : List Block} (hchain : ChainInv ids s) (hinv : MempoolInv ids s p)
    (h : Outcome ids ord s block v) :
    (MempoolInv ids v.state p ∧ Steady s v.state) ∨
    ∃ (txnPool : Hash → Option BitcoinTxn) (r : Pools × Hash × Nat) (anc new old : List Block)
      (rd : Redo), Connects ids s block txnPool r ∧
      Branch r.1.blockPool s.chainTail r.2.1 anc new old ∧
      redoBranch ids s.utxo old new = some rd ∧
      MempoolInv ids { s with txnPool := txnPool, toPools := r.1 } p ∧
      v.state = Bitcoin.moveOver ord { s with txnPool := txnPool, toPools := r.1 } r.2.1 rd := by
  have hmono : ∀ {txnPool : Hash → Option BitcoinTxn} {b : Bool},
      validateTxns ids s.txnPool block.txns = .ok (txnPool, b) →
      ∀ h t, s.txnPool h = some t → txnPool h = some t := by
    intro txnPool b htx
    obtain ⟨-, hmono, -⟩ := validateTxns_spec
      (fun t _ pool _ hv => plain_of_validateTxn hv) hinv.stored htx
    exact hmono
  cases h with
  | ignored => exact Or.inl ⟨hinv, fun _ _ ht => ht, rfl, rfl, rfl, rfl⟩
  | rejected _ htx =>
    exact Or.inl ⟨hinv.keep (hinv.rejected htx) hinv.path rfl rfl, hmono htx, rfl, rfl, rfl, rfl⟩
  | parked hfresh htx _ =>
    exact Or.inl ⟨hinv.keep (hinv.parked htx) (hinv.path.mono (extends_insert hfresh)) rfl rfl,
      hmono htx, rfl, rfl, rfl, rfl⟩
  | shorter hc _ _ =>
    exact Or.inl ⟨hinv.keep (hinv.connects hchain hc) (hinv.path.mono hc.extends) rfl rfl,
      hmono hc.txns, rfl, rfl, rfl, rfl⟩
  | invalid hc _ _ =>
    exact Or.inl ⟨hinv.keep (hinv.connects hchain hc) (hinv.path.mono hc.extends) rfl rfl,
      hmono hc.txns, rfl, rfl, rfl, rfl⟩
  | adopted hc hbr hrd =>
    exact Or.inr ⟨_, _, _, _, _, _, hc, hbr, hrd,
      hinv.keep (hinv.connects hchain hc) (hinv.path.mono hc.extends) rfl rfl, rfl⟩

/-- Every call keeps everything stored. -/
theorem queueInv_step {s s' : BlockManagement} {l : Label} (hchain : ChainInv cfg.ids s)
    (hinv : QueueInv cfg.ids s) (hplain : PlainRecord l) (h : Step cfg s l s') :
    QueueInv cfg.ids s' := by
  cases h with
  | record txn => exact hinv.record (hplain txn rfl)
  | prepare h =>
    exact prepareNewBlock_invariant (QueueInv cfg.ids) (fun _ _ hb hx => hx.build hb)
      (fun x hx => ⟨hx.stored, hx.blocks, hx.queued⟩) h hinv
  | mine h =>
    obtain ⟨chainLength, root, -, htxns, -, rfl⟩ := getNewBlock_cases h
    exact hinv.mined htxns
  | @validate ord fuel block v h =>
    cases (validateBlock_spec ord hchain block).1 _ _ h with
    | ignored => exact hinv
    | rejected _ htx => exact hinv.rejected htx
    | parked _ htx _ => exact hinv.parked htx
    | shorter hc _ _ => exact hinv.connects hchain hc
    | invalid hc _ _ => exact hinv.connects hchain hc
    | adopted hc hbr hrd => exact (hinv.connects hchain hc).moveOver ord hbr.oldPath hrd

end Copycat.Bitcoin
