import Copycat.Avalanche.Exchange
import Copycat.Avalanche.Quota
import Copycat.Thread.BlockThread

/-!
# The block thread of an Avalanche node

What comes of the blocks of peers, whatever the peers send. A block of depth 0 is a
query; it is emitted at once, or parked until the missing transactions have come in
blocks of greater depth. `blks_seen` lets the query in once, and the block that is
parked for it is taken out when it is emitted, so a query is emitted at most once,
and then with the transactions it came with, or placeholders for them
(`answered_once`).

`idle_waits` is about the own proposals: a thread that does not prepare any more has a
full batch or nothing to take, unless a block is parked. In that case transactions of
the parked block can be in the frontier, which nothing takes up before the next
transaction or block comes.
-/

namespace Copycat.Thread

open Copycat.Lib
open Avalanche (AvalancheTxn BlockManagement ParkedBlk ProposalDag StageConfig UniqueIds answers)
open Avalanche.BlockManagement (Filtered Validated)
open Bitcoin (CurBlockState)

/-- `compute_id` of a `BlockHeader::Avalanche`: the words `[0, depth, proposer, id]`, the
least significant first. -/
def avalancheBlkId (blk : Avalanche.Block) : Hash :=
  blk.depth * 2 ^ 64 + blk.proposer * 2 ^ 128 + blk.id * 2 ^ 192

/-- `AvalancheBlockManagement`. -/
def avalancheBlocks (ids : UniqueIds) (cfg : StageConfig) :
    BlockStage BlockManagement Avalanche.Block AvalancheTxn where
  new := BlockManagement.new
  blkId := avalancheBlkId
  recordNewTxn s txn s' := ∃ added, BlockManagement.recordNewTxn ids s txn = .ok (s', added)
  prepareNewBlock s blkFull s' :=
    ∃ ord fuel, BlockManagement.prepareNewBlock cfg.blkLen ord fuel s = .ok (s', blkFull)
  waitToPropose s := s.waitToPropose = .ok ()
  getNewBlock s blk s' := BlockManagement.getNewBlock cfg.self s = .ok (s', blk)
  validateBlock s blk newTail s' := ∃ v,
    BlockManagement.validateBlock ids s blk = .ok v ∧ newTail = v.newTail ∧ s' = v.state
  handlePmakerMsg s := s.handlePmakerMsg

variable {ids : UniqueIds} {cfg : StageConfig}

/-! ## What `validate_block` makes of a block -/

/-- Every transaction is still in its place, or a placeholder is. -/
def Filled (orig txns : List AvalancheTxn) : Prop :=
  txns.length = orig.length ∧
    ∀ (i : Nat) (t : AvalancheTxn), txns[i]? = some t → orig[i]? = some t ∨ t = .placeHolder

theorem Filled.trans {orig parked out : List AvalancheTxn} (h : Filled orig parked)
    (h' : Filled parked out) : Filled orig out := by
  refine ⟨h'.1.trans h.1, fun i t ht => ?_⟩
  rcases h'.2 i t ht with ht | ht
  · exact h.2 i t ht
  · exact Or.inr ht

/-- One more position. -/
theorem Filled.snoc {orig txns : List AvalancheTxn} (h : Filled orig txns) {t x : AvalancheTxn}
    (hx : x = t ∨ x = .placeHolder) : Filled (orig ++ [t]) (txns ++ [x]) := by
  refine ⟨by simp [h.1], fun i y hy => ?_⟩
  rw [List.getElem?_append] at hy ⊢
  rw [h.1] at hy
  split at hy
  · rename_i hi
    rw [if_pos hi]
    exact h.2 i y hy
  · rename_i hi
    rw [if_neg hi]
    obtain ⟨hi, rfl⟩ : i - orig.length = 0 ∧ x = y := by simpa [List.getElem?_singleton] using hy
    rw [hi]
    rcases hx with rfl | hx
    · exact Or.inl rfl
    · exact Or.inr hx

theorem Filled.set {orig txns : List AvalancheTxn} (h : Filled orig txns) (idx : Nat) :
    Filled orig (txns.set idx .placeHolder) := by
  refine ⟨by rw [List.length_set, h.1], fun i t ht => ?_⟩
  rw [List.getElem?_set] at ht
  split at ht
  · split at ht
    · exact Or.inr (Option.some.inj ht).symm
    · exact absurd ht (by simp)
  · exact h.2 i t ht

theorem filterTxn_filled {f f' : Filtered} {x : AvalancheTxn × Nat}
    (h : BlockManagement.filterTxn ids f x = .ok f') :
    ∃ t, f'.txns = f.txns ++ [t] ∧ (t = x.1 ∨ t = .placeHolder) := by
  unfold BlockManagement.filterTxn at h
  dsimp only at h
  split at h
  · rw [← Except.ok.inj h]
    exact ⟨_, rfl, Or.inl rfl⟩
  · obtain ⟨txn, i⟩ := x
    cases txn with
    | noop => rw [← Except.ok.inj h]; exact ⟨_, rfl, Or.inl rfl⟩
    | placeHolder => rw [← Except.ok.inj h]; exact ⟨_, rfl, Or.inl rfl⟩
    | grant => rw [← Except.ok.inj h]; exact ⟨_, rfl, Or.inl rfl⟩
    | send =>
      dsimp only at h
      obtain ⟨res, -, h⟩ := bind_eq_ok.mp h
      cases res with
      | error missing => rw [← Except.ok.inj h]; exact ⟨_, rfl, Or.inl rfl⟩
      | ok valid =>
        cases valid with
        | true => rw [← Except.ok.inj h]; exact ⟨_, rfl, Or.inl rfl⟩
        | false => rw [← Except.ok.inj h]; exact ⟨_, rfl, Or.inr rfl⟩

/-- The first pass. -/
theorem filterLoop_filled {dag : ProposalDag × List Hash} {txns : List AvalancheTxn} {f : Filtered}
    (h : txns.zipIdx.foldlM (BlockManagement.filterTxn ids) ⟨dag, [], [], []⟩ = .ok f) :
    Filled txns f.txns := by
  have hgo : Filled (txns.zipIdx.map Prod.fst) f.txns := by
    refine foldlM_prefix (fun done (f : Filtered) => Filled (done.map Prod.fst) f.txns) ?_
      ⟨rfl, fun i t ht => absurd ht (by simp)⟩ h
    intro done f x f' hf hstep
    obtain ⟨t, ht, hx⟩ := filterTxn_filled hstep
    rw [ht, List.map_append]
    exact hf.snoc hx
  rwa [List.zipIdx_map_fst] at hgo

theorem recheckTxn_filled {acc acc' : (ProposalDag × List Hash) × List AvalancheTxn} {idx : Nat}
    {orig : List AvalancheTxn} (hf : Filled orig acc.2)
    (h : BlockManagement.recheckTxn ids acc idx = .ok acc') : Filled orig acc'.2 := by
  unfold BlockManagement.recheckTxn at h
  obtain ⟨txn, -, h⟩ := bind_eq_ok.mp h
  split at h
  · rw [← Except.ok.inj h]
    exact hf
  · cases txn with
    | send =>
      dsimp only at h
      obtain ⟨res, -, h⟩ := bind_eq_ok.mp h
      cases res with
      | error missing => rw [← Except.ok.inj h]; exact hf.set idx
      | ok valid =>
        cases valid with
        | true => rw [← Except.ok.inj h]; exact hf
        | false => rw [← Except.ok.inj h]; exact hf.set idx
    | _ => rw [← Except.ok.inj h]; exact hf

/-- Down the parked blocks: nothing is parked that was not, and what is emitted is what
was parked at depth 0. -/
theorem recheckBlks_filled {proposer blkId d : Nat} :
    ∀ {dag : ProposalDag × List Hash} {pending : NodeId × Nat × Nat → Option ParkedBlk}
      {txns : List AvalancheTxn} {r : (ProposalDag × List Hash) ×
        (NodeId × Nat × Nat → Option ParkedBlk) × Option (List AvalancheTxn)},
      BlockManagement.recheckBlks ids proposer blkId d dag pending txns = .ok r →
      (∀ key, r.2.1 key = pending key ∨ r.2.1 key = none) ∧
        ∀ out, r.2.2 = some out → d = 0 ∧ out = txns ∧ r.2.1 = pending ∨
          0 < d ∧ r.2.1 (proposer, blkId, 0) = none ∧
            ∃ parked, pending (proposer, blkId, 0) = some parked ∧ Filled parked.txns out := by
  induction d with
  | zero =>
    intro dag pending txns r h
    rw [← Except.ok.inj h]
    exact ⟨fun _ => Or.inl rfl, fun out hout => Or.inl ⟨rfl, (Option.some.inj hout).symm, rfl⟩⟩
  | succ d ih =>
    intro dag pending txns r h
    rw [BlockManagement.recheckBlks] at h
    cases hparked : pending (proposer, blkId, d) with
    | none =>
      rw [hparked] at h
      rw [← Except.ok.inj h]
      exact ⟨fun _ => Or.inl rfl, fun out hout => absurd hout (by simp)⟩
    | some parked =>
      rw [hparked] at h
      dsimp only at h
      obtain ⟨acc, hacc, h⟩ := bind_eq_ok.mp h
      have hfilled : Filled parked.txns acc.2 :=
        foldlM_invariant (fun acc => Filled parked.txns acc.2)
          (fun _ _ _ hf hstep => recheckTxn_filled hf hstep)
          ⟨rfl, fun i t ht => Or.inl ht⟩ hacc
      obtain ⟨hpending, hemits⟩ := ih h
      refine ⟨fun key => ?_, fun out hout => Or.inr ⟨Nat.succ_pos d, ?_⟩⟩
      · rcases hpending key with hkey | hkey
        · by_cases hk : key = (proposer, blkId, d)
          · rw [hk, Function.update_self] at hkey
            exact Or.inr (hk ▸ hkey)
          · rw [Function.update_of_ne hk] at hkey
            exact Or.inl hkey
        · exact Or.inr hkey
      · rcases hemits out hout with ⟨rfl, rfl, hsame⟩ | ⟨hd, hnone, parked₀, hparked₀, hout⟩
        · rw [hsame, Function.update_self, if_pos rfl]
          exact ⟨rfl, parked, hparked, hfilled⟩
        · rw [Function.update_of_ne (by simp; omega)] at hparked₀
          exact ⟨hnone, parked₀, hparked₀, hout⟩

/-- What becomes of a block: it is parked, dropped because nobody asked for it, or a block
of depth 0 is emitted, itself or the one parked at depth 0. -/
inductive Fate (s : BlockManagement) (blk : Avalanche.Block) (v : Validated) : Prop
  | parked {parked : ParkedBlk} : v.newTail = [] → Filled blk.txns parked.txns →
      v.state.pendingBlks = Function.update s.pendingBlks (blk.proposer, blk.id, blk.depth)
        (some parked) → Fate s blk v
  | dropped {d : Nat} : v.newTail = [] → d < blk.depth →
      s.pendingBlks (blk.proposer, blk.id, d) = none →
      (∀ key, v.state.pendingBlks key = s.pendingBlks key ∨ v.state.pendingBlks key = none) →
      Fate s blk v
  | emitted {out : List AvalancheTxn} : v.newTail = [⟨blk.proposer, blk.id, 0, out⟩] →
      blk.depth = 0 → Filled blk.txns out → v.state.pendingBlks = s.pendingBlks → Fate s blk v
  | resolved {out : List AvalancheTxn} {parked : ParkedBlk} :
      v.newTail = [⟨blk.proposer, blk.id, 0, out⟩] → 0 < blk.depth →
      s.pendingBlks (blk.proposer, blk.id, 0) = some parked → Filled parked.txns out →
      v.state.pendingBlks (blk.proposer, blk.id, 0) = none → Fate s blk v

/-- A block that nobody asked for stops the second pass. -/
theorem recheckBlks_none {proposer blkId d : Nat} :
    ∀ {dag : ProposalDag × List Hash} {pending : NodeId × Nat × Nat → Option ParkedBlk}
      {txns : List AvalancheTxn} {r : (ProposalDag × List Hash) ×
        (NodeId × Nat × Nat → Option ParkedBlk) × Option (List AvalancheTxn)},
      BlockManagement.recheckBlks ids proposer blkId d dag pending txns = .ok r → r.2.2 = none →
      ∃ k < d, pending (proposer, blkId, k) = none := by
  induction d with
  | zero =>
    intro dag pending txns r h hnone
    rw [← Except.ok.inj h] at hnone
    exact absurd hnone (by simp)
  | succ d ih =>
    intro dag pending txns r h hnone
    rw [BlockManagement.recheckBlks] at h
    cases hparked : pending (proposer, blkId, d) with
    | none => exact ⟨d, Nat.lt_succ_self d, hparked⟩
    | some parked =>
      rw [hparked] at h
      dsimp only at h
      obtain ⟨acc, -, h⟩ := bind_eq_ok.mp h
      obtain ⟨k, hk, hkey⟩ := ih h hnone
      refine ⟨k, Nat.lt_succ_of_lt hk, ?_⟩
      rwa [Function.update_of_ne (by simp; omega)] at hkey

theorem validateBlock_fate {s : BlockManagement} {blk : Avalanche.Block} {v : Validated}
    (h : BlockManagement.validateBlock ids s blk = .ok v) : Fate s blk v := by
  obtain ⟨f, hf, h⟩ := bind_eq_ok.mp h
  have hfilled := filterLoop_filled hf
  split at h
  · rw [← Except.ok.inj h]
    exact .parked rfl hfilled rfl
  · obtain ⟨⟨dag, pending, out⟩, hr, h⟩ := bind_eq_ok.mp h
    obtain ⟨hpending, hemits⟩ := recheckBlks_filled hr
    dsimp only at h
    cases out with
    | none =>
      obtain ⟨d, hd, hgap⟩ := recheckBlks_none hr rfl
      rw [← Except.ok.inj h]
      exact .dropped rfl hd hgap hpending
    | some out =>
      rw [← Except.ok.inj h]
      rcases hemits out rfl with ⟨hd, rfl, hsame⟩ | ⟨hd, hnone, parked, hparked, hout⟩
      · exact .emitted rfl hd hfilled hsame
      · exact .resolved rfl hd hparked hout hnone

/-! ## A query is answered once -/

/-- The blocks that validation has emitted, in order. -/
def emits {β τ : Type} (tr : List (Event β τ)) : List β :=
  tr.flatMap fun
    | .validate _ _ newTail => newTail
    | _ => []

theorem emits_snoc {β τ : Type} (tr : List (Event β τ)) (e : Event β τ) :
    emits (tr ++ [e]) = emits tr ++ emits [e] := List.flatMap_append

/-- The query has been validated, with these transactions. -/
def Asked (tr : List (Event Avalanche.Block AvalancheTxn)) (proposer blkId : Nat)
    (txns : List AvalancheTxn) : Prop :=
  ∃ src newTail, .validate src ⟨proposer, blkId, 0, txns⟩ newTail ∈ tr

variable {G : BlockThread BlockManagement Avalanche.Block →
    Event Avalanche.Block AvalancheTxn → Prop}
  {tr : List (Event Avalanche.Block AvalancheTxn)}
  {t t' : BlockThread BlockManagement Avalanche.Block} {proposer blkId : Nat}

theorem Asked.mono {txns : List AvalancheTxn} (h : Asked tr proposer blkId txns)
    (e : Event Avalanche.Block AvalancheTxn) : Asked (tr ++ [e]) proposer blkId txns := by
  obtain ⟨src, newTail, hmem⟩ := h
  exact ⟨src, newTail, List.mem_append_left _ hmem⟩

/-- Where a query is: nowhere yet, parked, or answered. -/
structure AnswerInv (proposer blkId : Nat) (tr : List (Event Avalanche.Block AvalancheTxn))
    (pendingBlks : NodeId × Nat × Nat → Option ParkedBlk) : Prop where
  parked : ∀ parked, pendingBlks (proposer, blkId, 0) = some parked →
    answers proposer blkId (emits tr) = [] ∧
      ∃ txns, Asked tr proposer blkId txns ∧ Filled txns parked.txns
  answered : ∀ out ∈ answers proposer blkId (emits tr), out.depth = 0 ∧
    ∃ txns, Asked tr proposer blkId txns ∧ Filled txns out.txns
  once : (answers proposer blkId (emits tr)).length ≤ 1

variable {pendingBlks pendingBlks' : NodeId × Nat × Nat → Option ParkedBlk}

/-- Nothing is emitted for the query, and it is not parked. -/
theorem AnswerInv.quiet (h : AnswerInv proposer blkId tr pendingBlks)
    {e : Event Avalanche.Block AvalancheTxn} (he : answers proposer blkId (emits [e]) = [])
    (hpending : pendingBlks' (proposer, blkId, 0) = pendingBlks (proposer, blkId, 0) ∨
      pendingBlks' (proposer, blkId, 0) = none) :
    AnswerInv proposer blkId (tr ++ [e]) pendingBlks' := by
  have hsame : answers proposer blkId (emits (tr ++ [e])) = answers proposer blkId (emits tr) := by
    rw [emits_snoc]
    unfold answers at he ⊢
    rw [List.filter_append, he, List.append_nil]
  refine ⟨fun parked hparked => ?_, fun out hout => ?_, hsame ▸ h.once⟩
  · rcases hpending with hp | hp
    · obtain ⟨hnone, txns, hasked, hfilled⟩ := h.parked parked (hp ▸ hparked)
      exact ⟨hsame.trans hnone, txns, hasked.mono e, hfilled⟩
    · rw [hp] at hparked
      exact absurd hparked (by simp)
  · rw [hsame] at hout
    obtain ⟨hdepth, txns, hasked, hfilled⟩ := h.answered out hout
    exact ⟨hdepth, txns, hasked.mono e, hfilled⟩

/-- The answer. -/
theorem AnswerInv.answer {e : Event Avalanche.Block AvalancheTxn} (out : Avalanche.Block)
    {txns : List AvalancheTxn} (hold : answers proposer blkId (emits tr) = [])
    (he : answers proposer blkId (emits [e]) = [out]) (hdepth : out.depth = 0)
    (hasked : Asked (tr ++ [e]) proposer blkId txns) (hfilled : Filled txns out.txns)
    (hpending : pendingBlks' (proposer, blkId, 0) = none) :
    AnswerInv proposer blkId (tr ++ [e]) pendingBlks' := by
  have hnew : answers proposer blkId (emits (tr ++ [e])) = [out] := by
    rw [emits_snoc]
    unfold answers at hold he ⊢
    rw [List.filter_append, hold, he]
    rfl
  refine ⟨fun parked hparked => ?_, fun out' hout => ?_, by rw [hnew]; rfl⟩
  · rw [hpending] at hparked
    exact absurd hparked (by simp)
  · rw [hnew] at hout
    rw [List.mem_singleton.mp hout]
    exact ⟨hdepth, txns, hasked, hfilled⟩

theorem answers_self (proposer blkId depth : Nat) (txns : List AvalancheTxn) :
    answers proposer blkId [⟨proposer, blkId, depth, txns⟩] = [⟨proposer, blkId, depth, txns⟩] := by
  simp [answers]

/-- Validation. A block of depth 0 comes for the first time. -/
theorem AnswerInv.validate {s : BlockManagement} {src : NodeId} {blk : Avalanche.Block}
    {v : Validated} (h : AnswerInv proposer blkId tr s.pendingBlks)
    (hnew : (blk.proposer, blk.id, blk.depth) = (proposer, blkId, 0) →
      ∀ txns, ¬ Asked tr proposer blkId txns)
    (hv : BlockManagement.validateBlock ids s blk = .ok v) :
    AnswerInv proposer blkId (tr ++ [.validate src blk v.newTail]) v.state.pendingBlks := by
  have hemits : emits [(.validate src blk v.newTail : Event Avalanche.Block AvalancheTxn)] =
      v.newTail := List.append_nil _
  by_cases hquery : (blk.proposer, blk.id) = (proposer, blkId)
  swap
  · -- a block of another query
    obtain ⟨hpending, htail⟩ := Avalanche.validateBlock_pending hv
    refine h.quiet ?_ (Or.inl (hpending proposer blkId 0 (Ne.symm hquery)))
    rw [hemits]
    refine List.filter_eq_nil_iff.mpr fun b hb hbq => hquery ?_
    obtain ⟨hp, hi⟩ := of_decide_eq_true hbq
    rw [← htail b hb, hp, hi]
  obtain ⟨hp, hi⟩ := Prod.mk.inj hquery
  obtain ⟨p, i, depth, txns⟩ := blk
  dsimp only at hp hi
  subst hp hi
  have hasked : depth = 0 →
      Asked (tr ++ [.validate src ⟨p, i, depth, txns⟩ v.newTail]) p i txns := by
    intro hd
    subst hd
    exact ⟨src, v.newTail, by simp⟩
  -- before the first block there is nothing
  have hfresh : depth = 0 → answers p i (emits tr) = [] ∧ s.pendingBlks (p, i, 0) = none := by
    intro hd
    have hnever := hnew (by rw [hd])
    refine ⟨List.eq_nil_iff_forall_not_mem.mpr fun out hout => ?_,
      Option.eq_none_iff_forall_not_mem.mpr fun parked hparked => ?_⟩
    · obtain ⟨-, txns', hasked, -⟩ := h.answered out hout
      exact hnever txns' hasked
    · obtain ⟨-, txns', hasked, -⟩ := h.parked parked hparked
      exact hnever txns' hasked
  cases validateBlock_fate hv with
  | @parked parked htail hfilled hpending =>
    have hnone : answers p i (emits [(.validate src ⟨p, i, depth, txns⟩ v.newTail :
        Event Avalanche.Block AvalancheTxn)]) = [] := by
      rw [hemits, htail]
      rfl
    by_cases hd : depth = 0
    · obtain ⟨hold, -⟩ := hfresh hd
      have hquiet : AnswerInv p i (tr ++ [.validate src ⟨p, i, depth, txns⟩ v.newTail])
          (fun _ => none) := h.quiet hnone (Or.inr rfl)
      refine ⟨fun parked' hparked' => ⟨?_, txns, hasked hd, ?_⟩, hquiet.answered, hquiet.once⟩
      · rw [emits_snoc]
        unfold answers at hold hnone ⊢
        rw [List.filter_append, hold, hnone]
        rfl
      · rw [hpending, hd, Function.update_self] at hparked'
        exact Option.some.inj hparked' ▸ hfilled
    · refine h.quiet hnone (Or.inl ?_)
      rw [hpending, Function.update_of_ne (by simp; omega)]
  | dropped htail _ _ hpending =>
    refine h.quiet ?_ (hpending _)
    rw [hemits, htail]
    rfl
  | @emitted out htail hd hfilled hpending =>
    obtain ⟨hold, hnone⟩ := hfresh hd
    refine AnswerInv.answer ⟨p, i, 0, out⟩ hold ?_ rfl (hasked hd) hfilled (hpending ▸ hnone)
    rw [hemits, htail]
    exact answers_self ..
  | @resolved out parked htail _ hparked hfilled hnone =>
    obtain ⟨hold, txns', hasked', hfilled'⟩ := h.parked parked hparked
    refine AnswerInv.answer ⟨p, i, 0, out⟩ hold ?_ rfl (hasked'.mono _)
      (hfilled'.trans hfilled) hnone
    rw [hemits, htail]
    exact answers_self ..

/-- The other calls leave parked blocks alone. -/
theorem records_pending {s s' : BlockManagement} {txns : List AvalancheTxn}
    (h : Records (avalancheBlocks ids cfg) s txns s') : s'.pendingBlks = s.pendingBlks := by
  induction h with
  | nil => rfl
  | cons hrecord _ ih =>
    obtain ⟨added, hrecord⟩ := hrecord
    exact ih.trans (Avalanche.recordNewTxn_pending hrecord)

theorem run_answerInv (h : (blockThread (avalancheBlocks ids cfg) cfg.self).Run G tr t)
    (proposer blkId : Nat) : AnswerInv proposer blkId tr t.stage.pendingBlks := by
  induction h with
  | nil => exact ⟨fun _ hp => absurd hp (by simp [blockThread, BlockThread.new, avalancheBlocks,
      BlockManagement.new]), fun _ hout => absurd hout (by simp [emits, answers]), Nat.zero_le _⟩
  | @snoc tr t t' e hrun hg hstep ih =>
    have hnodup := (run_seenInv (counts_validated _ G) (hrun.snoc hg hstep)).nodup
    have hother : emits [e] = [] → t'.stage.pendingBlks = t.stage.pendingBlks →
        AnswerInv proposer blkId (tr ++ [e]) t'.stage.pendingBlks := by
      intro he hpending
      refine ih.quiet ?_ (Or.inl (by rw [hpending]))
      rw [he]
      rfl
    cases hstep with
    | newTxn hrecords => exact hother rfl (records_pending hrecords)
    | prepare _ hprepare =>
      obtain ⟨ord, fuel, hprepare⟩ := hprepare
      exact hother rfl (Avalanche.prepareNewBlock_frame hprepare).2
    | propose _ hget => exact hother rfl (Avalanche.getNewBlock_frame hget).2
    | @validate src blk rest newTail s _ hvalidate =>
      obtain ⟨v, hv, rfl, rfl⟩ := hvalidate
      refine ih.validate (fun hkey txns hasked => ?_) hv
      -- the id has been validated before
      obtain ⟨src', newTail', hmem⟩ := hasked
      rw [filterMap_snoc, List.map_append, List.nodup_append] at hnodup
      refine hnodup.2.2 _ (List.mem_map_of_mem (List.mem_filterMap.mpr ⟨_, hmem, rfl⟩)) _
        (List.mem_singleton_self _) ?_
      obtain ⟨p, i, depth, txns'⟩ := blk
      obtain ⟨rfl, rfl, rfl⟩ := by simpa using hkey
      rfl
    | _ => exact hother rfl rfl

/-- **A query is answered once.** Whatever the peers send, validation emits at most one
block for a query. It has depth 0, and it is the block that came from a peer for this
query, with placeholders for some of its transactions. -/
theorem answered_once (ids : UniqueIds) (cfg : StageConfig)
    {tr : List (Event Avalanche.Block AvalancheTxn)}
    {t : BlockThread BlockManagement Avalanche.Block}
    (h : (blockThread (avalancheBlocks ids cfg) cfg.self).Run (fun _ _ => True) tr t)
    (proposer blkId : Nat) :
    (answers proposer blkId (emits tr)).length ≤ 1 ∧
      ∀ out ∈ answers proposer blkId (emits tr), out.depth = 0 ∧ ∃ src txns, src ≠ cfg.self ∧
        .peerBlk src ⟨proposer, blkId, 0, txns⟩ ∈ tr ∧ Filled txns out.txns := by
  have hinv := run_answerInv h proposer blkId
  refine ⟨hinv.once, fun out hout => ?_⟩
  obtain ⟨hdepth, txns, ⟨src, newTail, hmem⟩, hfilled⟩ := hinv.answered out hout
  obtain ⟨hne, harrived⟩ := (run_seenInv (counts_validated _ _) h).validated src _ newTail hmem
  exact ⟨hdepth, src, txns, hne, harrived, hfilled⟩

/-! ## Own blocks -/

/-- The own blocks that have been made, in order. -/
def ownBlocks {β τ : Type} (tr : List (Event β τ)) : List β :=
  tr.filterMap fun
    | .propose blk => some blk
    | _ => none

theorem ownBlocks_snoc {β τ : Type} (tr : List (Event β τ)) (e : Event β τ) :
    ownBlocks (tr ++ [e]) = ownBlocks tr ++ ownBlocks [e] := List.filterMap_append

theorem mem_ownBlocks {β τ : Type} {tr : List (Event β τ)} {blk : β} :
    blk ∈ ownBlocks tr ↔ .propose blk ∈ tr := by
  unfold ownBlocks
  rw [List.mem_filterMap]
  refine ⟨fun h => ?_, fun h => ⟨_, h, rfl⟩⟩
  obtain ⟨e, he, heq⟩ := h
  cases e with
  | propose blk' => exact Option.some.inj heq ▸ he
  | _ => exact absurd heq (by simp)

/-- The calls other than `get_new_block` leave `blk_counter` alone. -/
theorem records_counter {s s' : BlockManagement} {txns : List AvalancheTxn}
    (h : Records (avalancheBlocks ids cfg) s txns s') : s'.blkCounter = s.blkCounter := by
  induction h with
  | nil => rfl
  | cons hrecord _ ih =>
    obtain ⟨added, hrecord⟩ := hrecord
    exact ih.trans (Avalanche.recordNewTxn_quota hrecord).2

/-- Own blocks are numbered. -/
structure OwnInv (me : NodeId) (tr : List (Event Avalanche.Block AvalancheTxn))
    (blkCounter : Nat) : Prop where
  made : ∀ blk ∈ ownBlocks tr, blk.proposer = me ∧ blk.depth = 0 ∧ blk.id < blkCounter
  nodup : ((ownBlocks tr).map Avalanche.Block.id).Nodup

theorem run_ownInv (h : (blockThread (avalancheBlocks ids cfg) cfg.self).Run G tr t) :
    OwnInv cfg.self tr t.stage.blkCounter := by
  refine h.invariant_trace (fun tr t => OwnInv cfg.self tr t.stage.blkCounter) ?_
    fun tr t e t' ih _ hstep => ?_
  · exact ⟨fun _ h => absurd h List.not_mem_nil, List.nodup_nil⟩
  have hother : ownBlocks [e] = [] → t'.stage.blkCounter = t.stage.blkCounter →
      OwnInv cfg.self (tr ++ [e]) t'.stage.blkCounter := by
    intro he hcounter
    rw [hcounter]
    refine ⟨?_, ?_⟩
    · rw [ownBlocks_snoc, he, List.append_nil]
      exact ih.made
    · rw [ownBlocks_snoc, he, List.append_nil]
      exact ih.nodup
  cases hstep with
  | newTxn hrecords => exact hother rfl (records_counter hrecords)
  | prepare _ hprepare =>
    obtain ⟨ord, fuel, hprepare⟩ := hprepare
    exact hother rfl (Avalanche.prepareNewBlock_same hprepare).2
  | @propose blk s _ hget =>
    obtain ⟨-, hcounter, hid⟩ := Avalanche.getNewBlock_quota hget
    have hblk : blk.proposer = cfg.self ∧ blk.depth = 0 := by
      unfold avalancheBlocks BlockManagement.getNewBlock at hget
      dsimp only at hget
      split at hget
      · obtain ⟨txns, -, hget⟩ := bind_eq_ok.mp hget
        obtain ⟨-, rfl⟩ := Prod.mk.inj (Except.ok.inj hget)
        exact ⟨rfl, rfl⟩
      · exact absurd hget (by simp)
    have hcounter : s.blkCounter = t.stage.blkCounter + 1 := hcounter
    have hid : blk.id = t.stage.blkCounter := hid
    refine ⟨fun blk' hblk' => ?_, ?_⟩
    · show _ ∧ _ ∧ blk'.id < s.blkCounter
      rw [ownBlocks_snoc] at hblk'
      rcases List.mem_append.mp hblk' with hblk' | hblk'
      · obtain ⟨hp, hd, hlt⟩ := ih.made blk' hblk'
        exact ⟨hp, hd, by omega⟩
      · rw [List.mem_singleton.mp hblk']
        exact ⟨hblk.1, hblk.2, by omega⟩
    · rw [ownBlocks_snoc, List.map_append, List.nodup_append]
      refine ⟨ih.nodup, List.nodup_singleton _, fun x hx y hy => ?_⟩
      obtain ⟨blk', hblk', rfl⟩ := List.mem_map.mp hx
      have hlt := (ih.made blk' hblk').2.2
      rw [List.mem_singleton.mp hy]
      omega
  | validate _ hvalidate =>
    obtain ⟨v, hv, -, rfl⟩ := hvalidate
    exact hother rfl (Avalanche.validateBlock_quota hv).2
  | _ => exact hother rfl rfl

/-! ## Where the thread stops -/

/-- Why `prepare_new_block` has ended, and what peer blocks can do to the frontier after
that. -/
def AvalancheDone (blkLen : Nat) (s : BlockManagement) : CurBlockState → Prop
  | .full => s.currBatch.length ≥ blkLen
  | .emptyMempool => ¬ s.currBatch.length ≥ blkLen ∧
      (s.dagFrontier = [] ∨ ∃ key, (s.pendingBlks key).isSome)
  | .working => False

/-- The block was asked for: at each smaller depth one is parked. -/
def Requested (s : BlockManagement) (blk : Avalanche.Block) : Prop :=
  ∀ d < blk.depth, (s.pendingBlks (blk.proposer, blk.id, d)).isSome

theorem prepareNewBlock_stops {blkLen : Nat} {ord : HashOrder} :
    ∀ {fuel : Nat} {s s' : BlockManagement} {c : CurBlockState},
      BlockManagement.prepareNewBlock blkLen ord fuel s = .ok (s', c) →
      AvalancheDone blkLen s' c := by
  intro fuel
  induction fuel with
  | zero => exact fun h => absurd h (by simp [BlockManagement.prepareNewBlock])
  | succ fuel ih =>
    intro s s' c h
    rw [BlockManagement.prepareNewBlock] at h
    split at h
    · rename_i hfull
      obtain ⟨rfl, rfl⟩ := Prod.mk.inj (Except.ok.inj h)
      exact hfull
    · rename_i hroom
      split at h
      · rename_i hempty
        obtain ⟨rfl, rfl⟩ := Prod.mk.inj (Except.ok.inj h)
        exact ⟨hroom, Or.inl hempty⟩
      · split at h
        · exact ih h
        · exact ih h

theorem recordNewTxn_batch {s : BlockManagement} {txn : AvalancheTxn}
    {r : BlockManagement × Bool} (h : BlockManagement.recordNewTxn ids s txn = .ok r) :
    r.1.currBatch = s.currBatch := by
  rcases Avalanche.recordNewTxn_cases h with ⟨-, hr⟩ | ⟨-, -, hr⟩
  · rw [hr]
  · rw [hr]

theorem validateBlock_batch {s : BlockManagement} {blk : Avalanche.Block} {v : Validated}
    (h : BlockManagement.validateBlock ids s blk = .ok v) : v.state.currBatch = s.currBatch := by
  obtain ⟨f, -, h⟩ := bind_eq_ok.mp h
  split at h
  · rw [← Except.ok.inj h]
  · obtain ⟨⟨dag, pending, out⟩, -, h⟩ := bind_eq_ok.mp h
    cases out with
    | none => rw [← Except.ok.inj h]
    | some out => rw [← Except.ok.inj h]

theorem avalanche_settles (ids : UniqueIds) (cfg : StageConfig) :
    Settles (avalancheBlocks ids cfg) (fun _ => True) Requested
      fun c s => AvalancheDone cfg.blkLen s c where
  prepared s c s' _ hprepare := by
    obtain ⟨ord, fuel, hprepare⟩ := hprepare
    exact prepareNewBlock_stops hprepare
  recorded s txn s' hdone hrecord := by
    obtain ⟨added, hrecord⟩ := hrecord
    have hbatch : s'.currBatch = s.currBatch := recordNewTxn_batch hrecord
    show s'.currBatch.length ≥ cfg.blkLen
    rw [hbatch]
    exact hdone
  unsent s c blk s' _ hrequested hdone hvalidate := by
    obtain ⟨v, hv, hnil, rfl⟩ := hvalidate
    have hbatch := validateBlock_batch hv
    have hparked : ∃ key, (v.state.pendingBlks key).isSome := by
      cases validateBlock_fate hv with
      | parked _ _ hpending => exact ⟨_, by rw [hpending, Function.update_self]; rfl⟩
      | dropped _ hd hgap _ =>
        have := hrequested _ hd
        rw [hgap] at this
        exact absurd this (by simp)
      | emitted htail _ _ _ => exact absurd (hnil.trans htail) (by simp)
      | resolved htail _ _ _ _ => exact absurd (hnil.trans htail) (by simp)
    cases c with
    | working => exact hdone
    | full =>
      show v.state.currBatch.length ≥ cfg.blkLen
      rw [hbatch]
      exact hdone
    | emptyMempool =>
      refine ⟨?_, Or.inr hparked⟩
      rw [hbatch]
      exact hdone.1
  pmakerMsg s c hdone := hdone

/-- With nothing to take, `prepare_new_block` changes nothing. -/
theorem prepareNewBlock_empty {blkLen : Nat} (ord : HashOrder) (fuel : Nat) {s : BlockManagement}
    (hroom : ¬ s.currBatch.length ≥ blkLen) (hempty : s.dagFrontier = []) :
    BlockManagement.prepareNewBlock blkLen ord (fuel + 1) s = .ok (s, .emptyMempool) := by
  rw [BlockManagement.prepareNewBlock, if_neg hroom, hempty]

/-! ## What is proposed -/

/-- No block comes that was not asked for, and the inputs of a transaction are a
`Vec`. -/
def AvalancheCalls (t : BlockThread BlockManagement Avalanche.Block)
    (e : Event Avalanche.Block AvalancheTxn) : Prop :=
  (∀ src blk newTail, e = .validate src blk newTail →
    Requested t.stage blk ∧ ∀ txn ∈ blk.txns, Avalanche.Sized txn) ∧
  ∀ txnBatch, e = .newTxn txnBatch → ∀ txn ∈ txnBatch, Avalanche.Sized txn

theorem records_stageInv {s s' : BlockManagement} {own : List Avalanche.Block}
    {txns : List AvalancheTxn} (h : Records (avalancheBlocks ids cfg) s txns s')
    (hinv : Avalanche.StageInv ids ⟨s, own⟩) (hsized : ∀ txn ∈ txns, Avalanche.Sized txn) :
    Avalanche.StageInv ids ⟨s', own⟩ := by
  induction h with
  | nil => exact hinv
  | cons hrecord _ ih =>
    obtain ⟨added, hrecord⟩ := hrecord
    exact ih (Avalanche.Advance.record hinv (hsized _ (List.mem_cons_self ..)) hrecord).inv
      fun txn htxn => hsized txn (List.mem_cons_of_mem _ htxn)

/-- The stage keeps its order, whatever the thread does. -/
theorem run_stageInv
    (h : (blockThread (avalancheBlocks ids cfg) cfg.self).Run AvalancheCalls tr t) :
    ∃ own, Avalanche.StageInv ids ⟨t.stage, own⟩ := by
  refine h.invariant (fun t => ∃ own, Avalanche.StageInv ids ⟨t.stage, own⟩)
    ⟨[], Avalanche.stageInv_new ids⟩ fun t e t' ih hcalls hstep => ?_
  obtain ⟨own, hinv⟩ := ih
  cases hstep with
  | newTxn hrecords => exact ⟨own, records_stageInv hrecords hinv (hcalls.2 _ rfl)⟩
  | prepare _ hprepare =>
    obtain ⟨ord, fuel, hprepare⟩ := hprepare
    exact ⟨own, (Avalanche.Advance.prepare hinv hprepare).inv⟩
  | propose _ hget => exact ⟨_, (Avalanche.Advance.propose hinv hget).inv⟩
  | validate _ hvalidate =>
    obtain ⟨v, hv, -, rfl⟩ := hvalidate
    exact ⟨own, (Avalanche.Advance.check hinv (hcalls.1 _ _ _ rfl).2 hv).inv⟩
  | pmakerMsg =>
    have hadvance : Avalanche.Advance ids ⟨t.stage, own⟩
        ⟨BlockManagement.handlePmakerMsg t.stage, own⟩ := hinv.same rfl rfl rfl rfl
    exact ⟨own, hadvance.inv⟩
  | _ => exact ⟨own, hinv⟩

theorem getNewBlock_ready {s : BlockManagement} {own : List Avalanche.Block}
    (h : Avalanche.StageInv ids ⟨s, own⟩) (hready : s.waitToPropose = .ok ()) :
    ∃ r, BlockManagement.getNewBlock cfg.self s = .ok r ∧ r.2.txns ≠ [] := by
  unfold BlockManagement.waitToPropose at hready
  split at hready
  · exact absurd hready (by simp)
  rename_i hwait
  obtain ⟨hquota, hbatch⟩ := not_or.mp hwait
  have hpool : ∀ x ∈ s.currBatch, ∃ t, s.txnPool x = some t := fun x hx =>
    Option.isSome_iff_exists.mp ((h.dag.cover x).mpr (Or.inr (List.mem_append_right _ hx)))
  obtain ⟨txns, htxns⟩ := exists_mapM hpool
  unfold BlockManagement.getNewBlock
  rw [if_pos (Nat.pos_of_ne_zero hquota), htxns]
  refine ⟨_, rfl, fun hnil => hbatch ?_⟩
  have hmap := congrArg List.length (mapM_eq_some_iff.mp htxns)
  rw [List.length_map, List.length_map] at hmap
  rw [hmap, show txns = [] from hnil]
  rfl

/-- **An idle node waits for something.** Where the thread does not prepare any more,
another call of `prepare_new_block` would leave the stage as it is, unless nothing was
pending and a peer block is parked. And whenever `wait_to_propose` returns,
`get_new_block` returns a block with transactions. -/
theorem idle_waits (ids : UniqueIds) (cfg : StageConfig)
    {tr : List (Event Avalanche.Block AvalancheTxn)}
    {t : BlockThread BlockManagement Avalanche.Block}
    (h : (blockThread (avalancheBlocks ids cfg) cfg.self).Run AvalancheCalls tr t) :
    (t.blkState ≠ .working →
      (∀ ord fuel, BlockManagement.prepareNewBlock cfg.blkLen ord (fuel + 1) t.stage =
        .ok (t.stage, t.blkState)) ∨
      t.blkState = .emptyMempool ∧ ∃ key, (t.stage.pendingBlks key).isSome) ∧
    (t.stage.waitToPropose = .ok () → ∃ r,
      BlockManagement.getNewBlock cfg.self t.stage = .ok r ∧ r.2.txns ≠ []) := by
  refine ⟨fun hidle => ?_, fun hready => ?_⟩
  · have hdone := run_settled (avalanche_settles ids cfg) (fun _ _ _ => trivial)
      (fun _ _ _ _ hcalls => (hcalls.1 _ _ _ rfl).1) h hidle
    cases hstate : t.blkState with
    | working => exact absurd hstate hidle
    | full =>
      rw [hstate] at hdone
      refine Or.inl fun ord fuel => ?_
      rw [BlockManagement.prepareNewBlock, if_pos (show _ ≥ _ from hdone)]
    | emptyMempool =>
      rw [hstate] at hdone
      rcases hdone.2 with hempty | hparked
      · exact Or.inl fun ord fuel => prepareNewBlock_empty ord fuel hdone.1 hempty
      · exact Or.inr ⟨rfl, hparked⟩
  · obtain ⟨own, hinv⟩ := run_stageInv h
    exact getNewBlock_ready hinv hready

open Avalanche (codeTxn orderedGrant)

/-- A payment from a transaction that nobody knows. -/
def unknownPay : AvalancheTxn := .send [1] [7] [2] 4 6 []

/-- A query with a grant and this payment comes to a node with nothing to do. The grant
gets into the frontier, and the node stays idle. -/
theorem idle_waits_demo : ∃ t : BlockThread BlockManagement Avalanche.Block,
    t.blkState = .emptyMempool ∧ t.stage.dagFrontier = [codeTxn orderedGrant] ∧
    ((∀ ord fuel, BlockManagement.prepareNewBlock 2 ord (fuel + 1) t.stage =
        .ok (t.stage, t.blkState)) ∨
      t.blkState = .emptyMempool ∧ ∃ key, (t.stage.pendingBlks key).isSome) := by
  have hcheck : returns (BlockManagement.validateBlock .coded BlockManagement.new
      ⟨1, 0, 0, [orderedGrant, unknownPay]⟩) (fun v =>
        v.newTail = [] && v.state.dagFrontier = [codeTxn orderedGrant]) = true := by
    decide +kernel
  obtain ⟨v, hv, hv'⟩ := returns_iff.mp hcheck
  simp only [Bool.and_eq_true, decide_eq_true_eq] at hv'
  have hsized : Requested BlockManagement.new ⟨1, 0, 0, [orderedGrant, unknownPay]⟩ ∧
      ∀ txn ∈ [orderedGrant, unknownPay], Avalanche.Sized txn := by
    refine ⟨fun d hd => absurd hd (Nat.not_lt_zero d), fun txn htxn => ?_⟩
    rcases List.mem_pair.mp htxn with rfl | rfl
    · exact Nat.two_pow_pos 64
    · exact (by decide : 1 < 2 ^ 64)
  have hprepare : (avalancheBlocks .coded ⟨0, 2⟩).prepareNewBlock BlockManagement.new
      .emptyMempool BlockManagement.new := ⟨.sorted, 1, rfl⟩
  have hvalidate : (avalancheBlocks .coded ⟨0, 2⟩).validateBlock BlockManagement.new
      ⟨1, 0, 0, [orderedGrant, unknownPay]⟩ [] v.state := ⟨v, hv, hv'.1.symm, rfl⟩
  have harrived : (blockThread (avalancheBlocks .coded ⟨0, 2⟩) 0).Run AvalancheCalls
      [.prepare, .peerBlk 1 ⟨1, 0, 0, [orderedGrant, unknownPay]⟩,
        .checked 1 ⟨1, 0, 0, [orderedGrant, unknownPay]⟩ true] _ :=
    .snoc (.snoc (.snoc .nil ⟨fun _ _ _ h => by simp at h, fun _ h => by simp at h⟩
      (Step.prepare rfl hprepare))
      ⟨fun _ _ _ h => by simp at h, fun _ h => by simp at h⟩
      (Step.peerBlk Nat.one_ne_zero (Finset.notMem_empty _)))
      ⟨fun _ _ _ h => by simp at h, fun _ h => by simp at h⟩
      (@Step.checked _ _ _ _ _ _ _ _ 0 true rfl)
  have hrun := harrived.snoc ⟨fun _ _ _ h => by
      obtain ⟨-, rfl, -⟩ := Event.validate.inj h
      exact hsized, fun _ h => by simp at h⟩
    (@Step.validate _ _ _ _ _ _ _ _ [] [] _ rfl hvalidate)
  exact ⟨_, rfl, hv'.2, (idle_waits .coded ⟨0, 2⟩ hrun).1 CurBlockState.noConfusion⟩

end Copycat.Thread
