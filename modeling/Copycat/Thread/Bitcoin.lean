import Copycat.Bitcoin.Mempool
import Copycat.Thread.BlockThread

/-!
# The block thread of a Bitcoin node

`prepare_new_block` runs until the block is full or nothing is pending, and the
thread does not call it again before something changes that. `idle_node` says that
nothing is lost by it: where the thread has stopped, another call would leave the
stage as it is, and the timer of the proof of work is running, for a block without
transactions if there are none. When the timer ends, `get_new_block` finds what it
unwraps.
-/

namespace Copycat.Thread

open Copycat.Lib
open Bitcoin (BlockManagement CurBlockState ChainInv QueueInv)

/-- `BitcoinBlockManagement`. What a message of the pacemaker sets, the difficulty,
only the length of the timer depends on. -/
def bitcoinBlocks (cfg : Bitcoin.Config) : BlockStage BlockManagement Block BitcoinTxn where
  new := BlockManagement.new
  blkId blk := cfg.ids.blkId blk.header
  recordNewTxn s txn s' := s' = (Bitcoin.recordNewTxn cfg.ids s txn).1
  prepareNewBlock s blkFull s' :=
    ∃ fuel root, Bitcoin.prepareNewBlock cfg.enumSize fuel root s = .ok (s', blkFull)
  waitToPropose s := s.powTime = true
  getNewBlock s blk s' := Bitcoin.getNewBlock cfg.ids cfg.self s = .ok (s', blk)
  validateBlock s blk newTail s' := ∃ ord fuel v,
    Bitcoin.validateBlock cfg.ids ord fuel s blk = .ok v ∧ newTail = v.newTail ∧ s' = v.state
  handlePmakerMsg s := s

open Bitcoin (demo demoGrant demoBlock)

/-- The node mines a block, gets it back from a peer, and a block of its peers twice:
two blocks are handed on. -/
theorem validated_once_demo : ∃ tr, ∃ t : BlockThread BlockManagement Block,
    ∃ own : Block, (blockThread (bitcoinBlocks demo) 0).Run (fun _ _ => True) tr t ∧
    .peerBlk 1 own ∈ tr ∧ .peerBlk 1 (demoBlock [demoGrant]) ∈ tr ∧
    .peerBlk 2 (demoBlock [demoGrant]) ∈ tr ∧ validated tr = [demoBlock [demoGrant]] ∧
    handed tr = [own, demoBlock [demoGrant]] ∧
    ((validated tr).map (bitcoinBlocks demo).blkId).Nodup ∧
    ((handed tr).map (bitcoinBlocks demo).blkId).Nodup ∧
    ∀ src blk newTail, .validate src blk newTail ∈ tr → src ≠ 0 ∧ .peerBlk src blk ∈ tr := by
  have hcheck : returns (Bitcoin.prepareNewBlock demo.enumSize 5 8 .new) (fun p =>
      p.1.powTime && returns (Bitcoin.getNewBlock demo.ids demo.self p.1) (fun m =>
        demo.ids.blkId (demoBlock [demoGrant]).header ≠ demo.ids.blkId m.2.header &&
        returns (Bitcoin.validateBlock demo.ids .sorted 5 m.1 (demoBlock [demoGrant]))
          fun _ => true)) = true := by
    decide +kernel
  obtain ⟨⟨s₁, c⟩, hprepare, hcheck⟩ := returns_iff.mp hcheck
  obtain ⟨hpow, hcheck⟩ := Bool.and_eq_true_iff.mp hcheck
  obtain ⟨⟨s₂, own⟩, hmine, hcheck⟩ := returns_iff.mp hcheck
  obtain ⟨hne, hcheck⟩ := Bool.and_eq_true_iff.mp hcheck
  obtain ⟨v, hv, -⟩ := returns_iff.mp hcheck
  have hother : (bitcoinBlocks demo).blkId (demoBlock [demoGrant]) ∉
      insert ((bitcoinBlocks demo).blkId own) (∅ : Finset Hash) := by
    simpa [bitcoinBlocks] using hne
  have hpeerBlk : ∀ (t : BlockThread BlockManagement Block) src blk,
      OwnFresh (bitcoinBlocks demo) t (.peerBlk src blk) := fun _ _ _ _ h => by simp at h
  have hprepared : (blockThread (bitcoinBlocks demo) 0).Run (OwnFresh (bitcoinBlocks demo))
      [.prepare] _ := .snoc .nil (fun _ h => by simp at h) (Step.prepare rfl ⟨5, 8, hprepare⟩)
  have hmined := hprepared.snoc (fun blk _ => Finset.notMem_empty _)
    (@Step.propose _ _ _ _ _ _ own _ hpow hmine)
  have hechoed : (blockThread (bitcoinBlocks demo) 0).Run (OwnFresh (bitcoinBlocks demo))
      [.prepare, .propose own, .peerBlk 1 own] _ :=
    hmined.snoc (hpeerBlk _ _ _) (Step.ignore (Or.inr (Finset.mem_insert_self ..)))
  have htwice : (blockThread (bitcoinBlocks demo) 0).Run (OwnFresh (bitcoinBlocks demo))
      [.prepare, .propose own, .peerBlk 1 own, .peerBlk 1 (demoBlock [demoGrant]),
        .peerBlk 2 (demoBlock [demoGrant])] _ :=
    (hechoed.snoc (hpeerBlk _ _ _) (Step.peerBlk Nat.one_ne_zero hother)).snoc (hpeerBlk _ _ _)
      (Step.ignore (Or.inr (Finset.mem_insert_self ..)))
  have hpeer := (htwice.snoc (fun _ h => by simp at h)
    (@Step.checked _ _ _ _ _ _ _ _ 0 true rfl)).snoc (fun _ h => by simp at h)
    (@Step.validate _ _ _ _ _ _ _ _ [] _ _ rfl ⟨.sorted, 5, v, hv, rfl, rfl⟩)
  obtain ⟨hvalidated, hfrom, hhanded⟩ :=
    validated_once (bitcoinBlocks demo) 0 (hpeer.mono fun _ _ _ _ => trivial)
  exact ⟨_, _, own, hpeer.mono fun _ _ _ _ => trivial, by simp, by simp, by simp, rfl, rfl,
    hvalidated, hhanded hpeer, hfrom⟩

/-- Own ids are fresh, and clients submit no incentives. -/
def BitcoinFresh (cfg : Bitcoin.Config) (t : BlockThread BlockManagement Block)
    (e : Event Block BitcoinTxn) : Prop :=
  (∀ blk, e = .propose blk → Bitcoin.FreshId cfg t.stage (.getNewBlock, [blk])) ∧
    ∀ txnBatch, e = .newTxn txnBatch → ∀ txn ∈ txnBatch, txn.isIncentive = false

variable {cfg : Bitcoin.Config} {tr : List (Event Block BitcoinTxn)}
  {t : BlockThread BlockManagement Block}

/-- What the stage keeps to. -/
structure BitcoinInv (ids : IdScheme) (s : BlockManagement) : Prop where
  chain : ChainInv ids s
  queue : QueueInv ids s
  armed : s.powTime = true → s.merkleRoot.isSome

/-- A transaction that is recorded leaves the chain alone. -/
theorem BitcoinInv.record {s : BlockManagement} (h : BitcoinInv cfg.ids s) {txn : BitcoinTxn}
    (hplain : txn.isIncentive = false) :
    BitcoinInv cfg.ids (Bitcoin.recordNewTxn cfg.ids s txn).1 where
  chain := Bitcoin.chainInv_step h.chain (fun h => absurd h (by simp)) (.record s txn)
  queue := h.queue.record hplain
  armed := by
    unfold Bitcoin.recordNewTxn
    dsimp only
    split
    · exact h.armed
    · exact h.armed

/-- So does a whole batch. -/
theorem BitcoinInv.records {s s' : BlockManagement} {txns : List BitcoinTxn}
    (hrecords : Records (bitcoinBlocks cfg) s txns s') (h : BitcoinInv cfg.ids s)
    (hplain : ∀ txn ∈ txns, txn.isIncentive = false) : BitcoinInv cfg.ids s' := by
  induction hrecords with
  | nil => exact h
  | cons hrecord _ ih =>
    obtain rfl := hrecord
    exact ih (h.record (hplain _ (List.mem_cons_self ..)))
      fun txn htxn => hplain txn (List.mem_cons_of_mem _ htxn)

/-- Preparing fills the block under construction from the pool. -/
theorem BitcoinInv.prepare {s s' : BlockManagement} (h : BitcoinInv cfg.ids s) {fuel : Nat}
    {root : Hash} {blkFull : CurBlockState}
    (hprepare : Bitcoin.prepareNewBlock cfg.enumSize fuel root s = .ok (s', blkFull)) :
    BitcoinInv cfg.ids s' where
  chain := Bitcoin.chainInv_step h.chain (fun h => absurd h (by simp)) (.prepare hprepare)
  queue := Bitcoin.queueInv_step h.chain h.queue (fun t ht => absurd ht (by simp))
    (.prepare hprepare)
  armed := by
    refine Bitcoin.prepareNewBlock_invariant (fun s => s.powTime = true → s.merkleRoot.isSome)
      (fun s s' hstep hs => ?_) (fun _ _ _ => rfl) hprepare h.armed
    cases hstep with
    | take => exact hs
    | rotate => exact hs

/-- A mined block goes on top, with an id that no block has. -/
theorem BitcoinInv.propose {s s' : BlockManagement} (h : BitcoinInv cfg.ids s)
    {blk : Block} (hfresh : Bitcoin.FreshId cfg s (.getNewBlock, [blk]))
    (hget : Bitcoin.getNewBlock cfg.ids cfg.self s = .ok (s', blk)) : BitcoinInv cfg.ids s' where
  chain := Bitcoin.chainInv_step h.chain hfresh (.mine hget)
  queue := Bitcoin.queueInv_step h.chain h.queue (fun t ht => absurd ht (by simp)) (.mine hget)
  armed := by
    obtain ⟨chainLength, root, -, -, -, rfl⟩ := Bitcoin.getNewBlock_cases hget
    exact fun hpow => absurd hpow Bool.false_ne_true

/-- A peer block keeps the chain in order, whether it is taken or refused. -/
theorem BitcoinInv.validate {s : BlockManagement} (h : BitcoinInv cfg.ids s) {ord : HashOrder}
    {fuel : Nat} {blk : Block} {v : Bitcoin.Validated}
    (hvalidate : Bitcoin.validateBlock cfg.ids ord fuel s blk = .ok v) :
    BitcoinInv cfg.ids v.state where
  chain := Bitcoin.chainInv_step h.chain (fun h => absurd h (by simp)) (.validate hvalidate)
  queue := Bitcoin.queueInv_step h.chain h.queue (fun t ht => absurd ht (by simp))
    (.validate hvalidate)
  armed := by
    cases (Bitcoin.validateBlock_spec ord h.chain blk).1 _ _ hvalidate with
    | adopted _ _ _ => exact fun hpow => absurd hpow Bool.false_ne_true
    | _ => exact h.armed

/-- The stage is in order throughout a run of the thread. -/
theorem run_bitcoinInv
    (h : (blockThread (bitcoinBlocks cfg) cfg.self).Run (BitcoinFresh cfg) tr t) :
    BitcoinInv cfg.ids t.stage := by
  refine h.invariant (fun t => BitcoinInv cfg.ids t.stage) ?_ fun t e t' ih hfresh hstep => ?_
  · exact ⟨Bitcoin.chainInv_new, Bitcoin.queueInv_new, fun hpow => absurd hpow Bool.false_ne_true⟩
  · cases hstep with
    | newTxn hrecords => exact ih.records hrecords (hfresh.2 _ rfl)
    | prepare _ hprepare =>
      obtain ⟨fuel, root, hprepare⟩ := hprepare
      exact ih.prepare hprepare
    | propose _ hget => exact ih.propose (hfresh.1 _ rfl) hget
    | validate _ hvalidate =>
      obtain ⟨ord, fuel, v, hvalidate, -, rfl⟩ := hvalidate
      exact ih.validate hvalidate
    | _ => exact ih

/-! ## Where the thread stops -/

/-- Why `prepare_new_block` has ended. -/
def Stopped (s : BlockManagement) : CurBlockState → Prop
  | .full => s.blockSize > 0x100000
  | .emptyMempool => ¬ s.blockSize > 0x100000 ∧ s.pendingTxns = []
  | .working => False

/-- The loop stops where another run of it would change nothing. -/
theorem prepareLoop_stopped {enumSize : Nat} : ∀ {fuel : Nat} {s s' : BlockManagement}
    {m m' : Bool} {c : CurBlockState},
    Bitcoin.prepareLoop enumSize fuel s m = .ok (s', c, m') → Stopped s' c := by
  intro fuel
  induction fuel with
  | zero => exact fun h => absurd h (by simp [Bitcoin.prepareLoop])
  | succ fuel ih =>
    intro s s' m m' c h
    unfold Bitcoin.prepareLoop at h
    split at h
    · rename_i hfull
      obtain ⟨rfl, rfl, rfl⟩ := by simpa using h
      exact hfull
    · rename_i hroom
      split at h
      · rename_i hempty
        obtain ⟨rfl, rfl, rfl⟩ := by simpa using h
        exact ⟨hroom, hempty⟩
      · split at h
        · exact absurd h (by simp)
        · exact absurd h (by simp)
        · split at h
          · exact ih h
          · exact ih h

/-- The thread has stopped, and the timer is running. -/
def BitcoinDone (c : CurBlockState) (s : BlockManagement) : Prop := Stopped s c ∧ s.powTime = true

theorem bitcoin_settles (cfg : Bitcoin.Config) : Settles (bitcoinBlocks cfg) (BitcoinInv cfg.ids)
    (fun _ _ => True) BitcoinDone where
  prepared s c s' _ hprepare := by
    obtain ⟨fuel, root, hprepare⟩ := hprepare
    unfold Bitcoin.prepareNewBlock at hprepare
    obtain ⟨⟨s₁, c₁, modified⟩, hloop, hprepare⟩ := bind_eq_ok.mp hprepare
    have hstopped := prepareLoop_stopped hloop
    dsimp only at hprepare
    split at hprepare
    · obtain ⟨rfl, rfl⟩ := Prod.mk.inj (Except.ok.inj hprepare)
      exact ⟨hstopped, rfl⟩
    · rename_i hnot
      obtain ⟨rfl, rfl⟩ := Prod.mk.inj (Except.ok.inj hprepare)
      exact ⟨hstopped, by simpa using (by simpa using hnot : modified = false ∧ _).2⟩
  recorded s txn s' hdone hrecord := by
    obtain rfl := hrecord
    unfold Bitcoin.recordNewTxn
    dsimp only
    split
    · exact hdone
    · exact hdone
  unsent s c blk s' hinv _ hdone hvalidate := by
    obtain ⟨ord, fuel, v, hvalidate, hnil, rfl⟩ := hvalidate
    cases (Bitcoin.validateBlock_spec ord hinv.chain blk).1 _ _ hvalidate with
    | @adopted _ _ _ new _ _ _ hbr _ =>
      obtain rfl : new = [] := hnil.symm
      exact absurd hbr.longer (Nat.not_lt_zero _)
    | _ => exact hdone
  pmakerMsg s c hdone := hdone

/-- Where the loop would stop at once, `prepare_new_block` changes nothing. -/
theorem prepareNewBlock_stopped {enumSize : Nat} (fuel : Nat) (root : Hash) {s : BlockManagement}
    {c : CurBlockState} (hstopped : Stopped s c) (hpow : s.powTime = true) :
    Bitcoin.prepareNewBlock enumSize (fuel + 1) root s = .ok (s, c) := by
  have hloop : Bitcoin.prepareLoop enumSize (fuel + 1) s false = .ok (s, c, false) := by
    rw [Bitcoin.prepareLoop]
    cases c with
    | working => exact hstopped.elim
    | full => rw [if_pos (show s.blockSize > 0x100000 from hstopped)]
    | emptyMempool =>
      obtain ⟨hroom, hempty⟩ := hstopped
      rw [if_neg hroom, hempty]
  unfold Bitcoin.prepareNewBlock
  rw [hloop]
  show (if (false || !s.powTime) = true then _ else _) = _
  rw [hpow]
  rfl

/-- Where the timer is set, a block can be made: what is in it is pooled, and
the tail has a height. -/
theorem BitcoinInv.getNewBlock_returns {s : BlockManagement} (h : BitcoinInv cfg.ids s)
    (hpow : s.powTime = true) : ∃ r, Bitcoin.getNewBlock cfg.ids cfg.self s = .ok r := by
  obtain ⟨txns, htxns⟩ := exists_mapM fun x hx => Option.isSome_iff_exists.mp
    (h.queue.queued x (List.mem_append_left _ hx))
  obtain ⟨root, hroot⟩ := Option.isSome_iff_exists.mp (h.armed hpow)
  obtain ⟨p, hp⟩ := h.chain.tail
  unfold Bitcoin.getNewBlock
  rw [htxns, hroot, Bitcoin.getChainLength_eq h.chain.pools hp, hpow]
  exact ⟨_, rfl⟩

/-- **An idle node misses nothing.** In every run of the thread, where it has
stopped preparing, another call of `prepare_new_block` would leave the stage as it
is, and the timer of the proof of work runs; and where it runs, `get_new_block`
returns. -/
theorem idle_node (cfg : Bitcoin.Config) {tr : List (Event Block BitcoinTxn)}
    {t : BlockThread BlockManagement Block}
    (h : (blockThread (bitcoinBlocks cfg) cfg.self).Run (BitcoinFresh cfg) tr t) :
    (t.blkState ≠ .working → t.stage.powTime = true ∧ ∀ fuel root,
      Bitcoin.prepareNewBlock cfg.enumSize (fuel + 1) root t.stage = .ok (t.stage, t.blkState)) ∧
    (t.stage.powTime = true → ∃ s blk,
      Bitcoin.getNewBlock cfg.ids cfg.self t.stage = .ok (s, blk)) := by
  refine ⟨fun hidle => ?_, fun hpow => ?_⟩
  · obtain ⟨hstopped, hpow⟩ := run_settled (bitcoin_settles cfg) (fun _ _ => run_bitcoinInv)
      (fun _ _ _ _ _ => trivial) h hidle
    exact ⟨hpow, fun fuel root => prepareNewBlock_stopped fuel root hstopped hpow⟩
  · obtain ⟨⟨s, blk⟩, hr⟩ := (run_bitcoinInv h).getNewBlock_returns hpow
    exact ⟨s, blk, hr⟩

/-- A node that has put a grant in the block and waits for more. -/
theorem idle_node_demo : ∃ t : BlockThread BlockManagement Block,
    t.blkState = .emptyMempool ∧ t.stage.blockUnderConstruction = [1] ∧ t.stage.powTime = true ∧
    ∃ s blk, Bitcoin.getNewBlock demo.ids demo.self t.stage = .ok (s, blk) := by
  have hcheck : returns (Bitcoin.prepareNewBlock demo.enumSize 5 7
      (Bitcoin.recordNewTxn demo.ids BlockManagement.new demoGrant).1) (fun r =>
        r.2 = .emptyMempool && r.1.blockUnderConstruction = [1]) = true := by
    decide +kernel
  obtain ⟨⟨s, blkState⟩, hprepare, hs⟩ := returns_iff.mp hcheck
  simp only [Bool.and_eq_true, decide_eq_true_eq] at hs
  obtain ⟨rfl, hblock⟩ := hs
  have hrecords : Records (bitcoinBlocks demo) BlockManagement.new [demoGrant]
      (Bitcoin.recordNewTxn demo.ids BlockManagement.new demoGrant).1 := .cons rfl (.nil _)
  have hrun : (blockThread (bitcoinBlocks demo) demo.self).Run (BitcoinFresh demo)
      [.newTxn [demoGrant], .prepare] _ :=
    .snoc (.snoc .nil ⟨fun _ h => by simp at h, fun txns h txn htxn => by
        obtain rfl := Event.newTxn.inj h
        exact List.mem_singleton.mp htxn ▸ rfl⟩ (Step.newTxn hrecords))
      ⟨fun _ h => by simp at h, fun _ h => by simp at h⟩ (Step.prepare rfl ⟨5, 7, hprepare⟩)
  obtain ⟨hidle, hget⟩ := idle_node demo hrun
  have hpow := (hidle CurBlockState.noConfusion).1
  exact ⟨_, rfl, hblock, hpow, hget hpow⟩

end Copycat.Thread
