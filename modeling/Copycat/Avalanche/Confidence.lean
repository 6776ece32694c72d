import Copycat.Avalanche.Acceptance
import Copycat.Avalanche.Returns

/-!
# Preference and confidence

The law of a conflict set, for both rules: its preferred transaction is a
member, and no member has more confidence (`MaxInv`). A bump raises one
transaction and looks at each of its conflict sets again; a transaction that is
recorded starts at zero. With the shape of the ledger this is what the stage
relies on when it unwraps (`preference_most_confident`).

For Blizzard, `total_rounds` is the sum of the confidences of the members, each
as often as the member lists the output, so the subtraction in
`handle_votes_helper` does not underflow and an acceptance has outweighed all
rivals together (`rounds_are_confidence`).
-/

namespace Copycat.Avalanche

open Copycat.Lib

variable {C : Type} {cfg : Config C}

/-- The transaction stored under `x` is a `Send` that spends `u`. -/
def Spends (l : Ledger C) (u : Utxo) (x : Hash) : Prop :=
  ∃ inUtxo receiver outUtxo remainder sig,
    l.txnPool x = some (.send u.2 inUtxo receiver outUtxo remainder sig) ∧ u.1 ∈ inUtxo

theorem spends_iff {l : Ledger C} {u : Utxo} {x : Hash} :
    Spends l u x ↔ ∃ txn, l.txnPool x = some txn ∧ u ∈ txn.utxos := by
  constructor
  · intro h
    obtain ⟨inUtxo, receiver, outUtxo, remainder, sig, hx, hu⟩ := h
    exact ⟨_, hx, List.mem_map.mpr ⟨u.1, hu, rfl⟩⟩
  · intro h
    obtain ⟨txn, hx, hu⟩ := h
    cases txn with
    | send sender inUtxo receiver outUtxo remainder sig =>
      obtain ⟨p, hp, rfl⟩ := List.mem_map.mp hu
      exact ⟨inUtxo, receiver, outUtxo, remainder, sig, hx, hp⟩
    | grant => exact absurd hu (by simp [AvalancheTxn.utxos])
    | noop => exact absurd hu (by simp [AvalancheTxn.utxos])
    | placeHolder => exact absurd hu (by simp [AvalancheTxn.utxos])

theorem Spends.mult_pos {l : Ledger C} {u : Utxo} {x : Hash} (h : Spends l u x) :
    0 < mult l.txnPool u x := by
  obtain ⟨txn, hx, hu⟩ := spends_iff.mp h
  rw [mult_some hx]
  exact List.count_pos_iff.mpr hu

/-! ## The preferred transaction -/

/-- No member of a conflict set has more confidence than the preferred one. -/
def MaxInv (l : Ledger C) : Prop :=
  ∀ u ct x m n, l.conflictSets u = some ct → Spends l u x → l.confidence ct.pref = some m →
    l.confidence x = some n → n ≤ m

/-- Recording a transaction: it starts at zero. -/
theorem MaxInv.record {l : Ledger C} (hinv : MaxInv l) (hshape : LedgerInv cfg.ids l)
    {txn : AvalancheTxn} (hnew : l.txnPool (cfg.ids.txnId txn) = none) :
    MaxInv (recordTxn cfg l txn) := by
  intro u ct' x m n hct' hx hm hn
  have hm : Function.update l.confidence (cfg.ids.txnId txn) (some 0) ct'.pref = some m := hm
  have hn : Function.update l.confidence (cfg.ids.txnId txn) (some 0) x = some n := hn
  by_cases hxh : x = cfg.ids.txnId txn
  · rw [hxh, Function.update_self, Option.some.injEq] at hn
    omega
  · rw [Function.update_of_ne hxh] at hn
    -- `x` was recorded before, so the set was there, with a preference of its own
    have hx : Spends l u x := by
      obtain ⟨t, ht, hu⟩ := spends_iff.mp hx
      rw [recordTxn_pool_ne l hxh] at ht
      exact spends_iff.mpr ⟨t, ht, hu⟩
    obtain ⟨t, ht, hu⟩ := spends_iff.mp hx
    obtain ⟨ct, hct⟩ := hshape.entered x t ht u hu
    have hsame : ct'.pref = ct.pref := by
      rw [recordTxn_sets, hct] at hct'
      by_cases hmem : u ∈ txn.utxos
      · rw [if_pos hmem, Option.some.injEq] at hct'
        rw [← hct']
      · rw [if_neg hmem, Option.some.injEq] at hct'
        rw [hct']
    have hprefh : ct.pref ≠ cfg.ids.txnId txn := by
      intro he
      obtain ⟨t', ht', -⟩ := hshape.pref u ct hct
      rw [he, hnew] at ht'
      exact absurd ht' (by simp)
    rw [hsame, Function.update_of_ne hprefh] at hm
    exact hinv u ct x m n hct hx hm hn

/-- Bumping a transaction: in each of its conflict sets the preferred one has
been compared with it. -/
theorem MaxInv.bump {slot : Slot} {fuel : Nat} {l l' : Ledger C} {h : Hash} {node : DagNode}
    {b : Bool} (hinv : MaxInv l) (hshape : LedgerInv cfg.ids l)
    (hb : Avalanche.bump cfg slot fuel l h node = .ok (l', b)) : MaxInv l' := by
  obtain ⟨k, txn, t, hk, htxn, -, -, ht, rfl, -⟩ := bump_spec hb
  intro u ct' x m n hct' hx hm hn
  have hct' : t.conflictSets u = some ct' := hct'
  have hx : Spends l u x := hx
  have hm : Function.update l.confidence h (some (k + 1)) ct'.pref = some m := hm
  have hn : Function.update l.confidence h (some (k + 1)) x = some n := hn
  by_cases hu : u ∈ txn.utxos
  · obtain ⟨ct, pref, hct, hcur, hyes, hno⟩ := ht.on u hu
    have he := hcur.symm.trans hct'
    rw [Option.some.injEq] at he
    subst he
    obtain ⟨ptxn, hptxn, -⟩ := hshape.pref u ct hct
    obtain ⟨m₀, hm₀⟩ := hshape.counted ct.pref ptxn hptxn
    -- the old confidence of `x`, and that of the old preference
    have hold : ∀ y n, y ≠ h → Function.update l.confidence h (some (k + 1)) y = some n →
        l.confidence y = some n := by
      intro y n hy hyn
      rwa [Function.update_of_ne hy] at hyn
    have hle : x ≠ h → n ≤ m₀ := fun hxh => hinv u ct x m₀ n hct hx hm₀ (hold x n hxh hn)
    by_cases ho : Overtakes (raised l h (k + 1)) h (k + 1) ct.pref
    · have hpref := hyes ho
      rw [hpref, Function.update_self, Option.some.injEq] at hm
      obtain ⟨hne, m₁, hm₁, hlt⟩ := overtakes_raised.mp ho
      rw [hm₀, Option.some.injEq] at hm₁
      by_cases hxh : x = h
      · rw [hxh, Function.update_self, Option.some.injEq] at hn
        omega
      · have := hle hxh
        omega
    · have hpref := hno ho
      rw [hpref] at hm
      by_cases hph : ct.pref = h
      · rw [hph, Function.update_self, Option.some.injEq] at hm
        rw [hph, hk, Option.some.injEq] at hm₀
        by_cases hxh : x = h
        · rw [hxh, Function.update_self, Option.some.injEq] at hn
          omega
        · have := hle hxh
          omega
      · have hm := hold ct.pref m hph hm
        rw [hm₀, Option.some.injEq] at hm
        by_cases hxh : x = h
        · rw [hxh, Function.update_self, Option.some.injEq] at hn
          -- it was not overtaken
          have hnlt : ¬ m₀ < k + 1 := fun hlt =>
            ho (overtakes_raised.mpr ⟨hph, m₀, hm₀, hlt⟩)
          omega
        · have := hle hxh
          omega
  · have hct : l.conflictSets u = some ct' := (ht.off u hu).symm.trans hct'
    -- neither `x` nor the preferred one is the bumped transaction
    have hne : ∀ y, Spends l u y → y ≠ h := by
      intro y hy he
      obtain ⟨t', ht', hu'⟩ := spends_iff.mp hy
      rw [he, htxn, Option.some.injEq] at ht'
      exact hu (ht' ▸ hu')
    obtain ⟨ptxn, hptxn, hup⟩ := hshape.pref u ct' hct
    rw [Function.update_of_ne (hne _ (spends_iff.mpr ⟨ptxn, hptxn, hup⟩))] at hm
    rw [Function.update_of_ne (hne x hx)] at hn
    exact hinv u ct' x m n hct hx hm hn

theorem maxInv_op {l l' : Ledger C} {op : Op} (hshape : LedgerInv cfg.ids l) (hinv : MaxInv l)
    (h : OpStep cfg l op l') : MaxInv l' := by
  cases h with
  | record hnew _ => exact hinv.record hshape hnew
  | check hs =>
    obtain ⟨cache, -, rfl⟩ := isStronglyPreferred_cases hs
    exact hinv
  | ask => exact hinv
  | bump _ hb => exact hinv.bump hshape hb
  | accept => exact hinv
  | reset _ _ hr =>
    obtain ⟨txn, sets, htxn, rfl, hsets⟩ := resetTxn_spec hr
    intro u ct' x m n hct' hx hm hn
    obtain ⟨ct, hct, rfl⟩ := Option.map_eq_some_iff.mp ((hsets u).symm.trans hct')
    exact hinv u ct x m n hct hx hm hn

theorem LedgerRun.most_confident {l : Ledger C} {ops : List Op} (h : LedgerRun cfg ops l) :
    MaxInv l := by
  refine (h.counted_invariant MaxInv ?_ ?_).2
  · intro u ct x m n hct
    exact absurd hct (by simp [Ledger.new])
  · exact fun l op l' hs _ hm hstep => maxInv_op hs hm hstep

/-- **Preference.** In every reachable state, whatever the rule: every `Send`
is in the conflict set of each of its inputs; the preferred transaction of such
a set is a `Send` that spends the same output, it has a confidence, and no
`Send` that spends the output has more; a set with two members is marked. And
with enough fuel nothing that is unwrapped is missing, not in `is_preferred`,
not in the checks of an incoming block, and not in the walks of
`handle_votes`. -/
theorem preference_most_confident {tr : List Call} {s : Decision C} (h : Run cfg tr s) :
    (∀ u x, Spends s.toLedger u x → ∃ ct m, s.conflictSets u = some ct ∧
      Spends s.toLedger u ct.pref ∧ s.confidence ct.pref = some m ∧
      (∀ y, Spends s.toLedger u y → ∃ n, s.confidence y = some n ∧ n ≤ m) ∧
      (∀ y, Spends s.toLedger u y → y ≠ x → ct.hasConflicts = true)) ∧
    (∀ x, s.txnPool x ≠ none → ∃ b, isPreferred s.toLedger x = .ok b) ∧
    (∀ txns : List AvalancheTxn, ∃ N, ∀ fuel, N ≤ fuel →
      ∃ b, txns.foldlM (newTxn cfg fuel) ⟨s.toLedger, [], []⟩ = .ok b) ∧
    (∀ (blkId : Nat) (slots : List ((Option Hash × Nat) × Nat)), ∃ N, ∀ fuel, N ≤ fuel →
      ∃ r, slots.foldlM (handleSlot cfg fuel blkId) (s.toLedger, []) = .ok r) := by
  have hrun := (runInv_run h).hist.run
  have hinv := hrun.inv
  refine ⟨?_, ?_, ?_, ?_⟩
  · intro u x hx
    obtain ⟨txn, ht, hu⟩ := spends_iff.mp hx
    obtain ⟨ct, hct⟩ := hinv.entered x txn ht u hu
    obtain ⟨ptxn, hptxn, hup⟩ := hinv.pref u ct hct
    obtain ⟨m, hm⟩ := hinv.counted ct.pref ptxn hptxn
    refine ⟨ct, m, hct, spends_iff.mpr ⟨ptxn, hptxn, hup⟩, hm, ?_, ?_⟩
    · intro y hy
      obtain ⟨ytxn, hytxn, -⟩ := spends_iff.mp hy
      obtain ⟨n, hn⟩ := hinv.counted y ytxn hytxn
      exact ⟨n, hn, hrun.most_confident u ct y m n hct hy hm hn⟩
    · intro y hy hyx
      exact hrun.counts.marked u ct y x hyx hy.mult_pos hx.mult_pos hct
  · intro x hx
    obtain ⟨txn, ht⟩ := Option.ne_none_iff_exists'.mp hx
    obtain ⟨b, hb, -⟩ := isPreferred_spec hinv ht
    exact ⟨b, hb⟩
  · intro txns
    obtain ⟨N, b, hN⟩ := newTxns_returns hinv txns
    exact ⟨N, fun fuel hfuel => ⟨b, hN fuel hfuel⟩⟩
  · exact fun blkId slots => handleSlots_returns hinv blkId slots

/-- Two `Send`s for one output: the one that was queried is preferred. -/
theorem preference_most_confident_demo :
    ∃ s, Run (demo avalancheRule 3 3) [demoBlock 1 [demoSend 1], demoVote 2,
        demoBlock 2 [demoSend 2]] s ∧
      ∃ ct m, s.conflictSets (5, [1]) = some ct ∧ Spends s.toLedger (5, [1]) ct.pref ∧
        s.confidence ct.pref = some m ∧ ct.hasConflicts = true := by
  have hcheck : returns (runCalls (demo avalancheRule 3 3) 20
      [demoBlock 1 [demoSend 1], demoVote 2, demoBlock 2 [demoSend 2]]) (fun s =>
        decide (s.txnPool 7 = some (demoSend 1) ∧ s.txnPool 8 = some (demoSend 2))) = true := by
    decide +kernel
  obtain ⟨s, hs, hpool⟩ := returns_iff.mp hcheck
  obtain ⟨h7, h8⟩ := of_decide_eq_true hpool
  have hrun := run_of_runCalls hs
  have h7 : Spends s.toLedger (5, [1]) 7 := ⟨[5], [2], 1, 0, [], h7, by simp⟩
  have h8 : Spends s.toLedger (5, [1]) 8 := ⟨[5], [2], 2, 0, [], h8, by simp⟩
  obtain ⟨ct, m, hct, hpref, hm, -, hmark⟩ :=
    (preference_most_confident hrun).1 (5, [1]) 7 h7
  exact ⟨s, hrun, ct, m, hct, hpref, hm, hmark 8 h8 (by decide)⟩

/-! ## Blizzard: rounds and confidence -/

/-- The transactions recorded in a history that spend `u`. -/
def spenders (ids : TxnIds) (ops : List Op) (u : Utxo) : Finset Hash :=
  (ops.filterMap fun
    | .record txn => if u ∈ txn.utxos then some (ids.txnId txn) else none
    | _ => none).toFinset

theorem mem_spenders {ids : TxnIds} {ops : List Op} {u : Utxo} {x : Hash} :
    x ∈ spenders ids ops u ↔
      ∃ txn, Op.record txn ∈ ops ∧ u ∈ txn.utxos ∧ ids.txnId txn = x := by
  unfold spenders
  rw [List.mem_toFinset, List.mem_filterMap]
  constructor
  · intro h
    obtain ⟨op, hop, he⟩ := h
    cases op with
    | record txn =>
      by_cases hu : u ∈ txn.utxos
      · simp only [hu, if_true, Option.some.injEq] at he
        exact ⟨txn, hop, hu, he⟩
      · exact absurd he (by simp [hu])
    | _ => exact absurd he (by simp)
  · intro h
    obtain ⟨txn, hop, hu, rfl⟩ := h
    exact ⟨_, hop, by simp [hu]⟩

theorem LedgerRun.mem_spenders {l : Ledger C} {ops : List Op} (h : LedgerRun cfg ops l)
    {u : Utxo} {x : Hash} : x ∈ spenders cfg.ids ops u ↔ Spends l u x := by
  rw [Avalanche.mem_spenders, spends_iff]
  constructor
  · intro hx
    obtain ⟨txn, hop, hu, hid⟩ := hx
    exact ⟨txn, (h.recorded x txn).mpr ⟨hop, hid⟩, hu⟩
  · intro hx
    obtain ⟨txn, ht, hu⟩ := hx
    obtain ⟨hop, hid⟩ := (h.recorded x txn).mp ht
    exact ⟨txn, hop, hu, hid⟩

/-- The confidence of a recorded transaction. -/
def conf (l : Ledger C) (x : Hash) : Nat :=
  (l.confidence x).getD 0

theorem LedgerRun.conf_eq {l : Ledger C} {ops : List Op} (h : LedgerRun cfg ops l) {u : Utxo}
    {x : Hash} (hx : Spends l u x) :
    l.confidence x = some (conf l x) ∧ conf l x = (bumpedTxns ops).count x := by
  obtain ⟨txn, ht, -⟩ := spends_iff.mp hx
  obtain ⟨n, hn⟩ := h.inv.counted x txn ht
  have hc : conf l x = n := by simp [conf, hn]
  refine ⟨by rw [hc, hn], ?_⟩
  rw [hc, ← h.history]
  exact h.counts.conf x n hn

/-- `total_rounds` adds up the confidence of the members, each as often as it
lists the output. -/
theorem LedgerRun.rounds_eq {cfg : Config Nat} (hrule : cfg.rule = blizzardRule) {l : Ledger Nat}
    {ops : List Op} (h : LedgerRun cfg ops l) {u : Utxo} {ct : ConflictSet Nat}
    (hct : l.conflictSets u = some ct) :
    ct.ctr = ∑ x ∈ spenders cfg.ids ops u, conf l x * mult l.txnPool u x := by
  have hmem : ∀ x, x ∈ spenders cfg.ids ops u ↔ Spends l u x := fun x => h.mem_spenders
  have hzero : ∀ x, x ∉ spenders cfg.ids ops u → mult l.txnPool u x = 0 := by
    intro x hx
    by_contra hne
    exact hx ((hmem x).mpr (spends_iff.mpr (mult_pos (Nat.pos_of_ne_zero hne))))
  rw [h.rounds hrule u ct hct, h.history, Finset.sum_list_map_count]
  -- a transaction that was bumped and is not a member adds nothing, and a
  -- member that was not bumped has no confidence
  calc ∑ x ∈ (bumpedTxns ops).toFinset, (bumpedTxns ops).count x • mult l.txnPool u x
      = ∑ x ∈ (bumpedTxns ops).toFinset ∪ spenders cfg.ids ops u,
          (bumpedTxns ops).count x • mult l.txnPool u x := by
        apply Finset.sum_subset Finset.subset_union_left
        intro x _ hx
        rw [List.mem_toFinset] at hx
        rw [List.count_eq_zero_of_not_mem hx, zero_smul]
    _ = ∑ x ∈ spenders cfg.ids ops u, (bumpedTxns ops).count x • mult l.txnPool u x := by
        symm
        apply Finset.sum_subset Finset.subset_union_right
        intro x _ hx
        rw [hzero x hx, smul_zero]
    _ = ∑ x ∈ spenders cfg.ids ops u, conf l x * mult l.txnPool u x := by
        apply Finset.sum_congr rfl
        intro x hx
        rw [(h.conf_eq ((hmem x).mp hx)).2, smul_eq_mul]

theorem LedgerRun.confidence_le_rounds {cfg : Config Nat} (hrule : cfg.rule = blizzardRule)
    {l : Ledger Nat} {ops : List Op} (h : LedgerRun cfg ops l) {u : Utxo} {ct : ConflictSet Nat}
    (hct : l.conflictSets u = some ct) :
    ∑ x ∈ spenders cfg.ids ops u, conf l x ≤ ct.ctr := by
  rw [LedgerRun.rounds_eq hrule h hct]
  apply Finset.sum_le_sum
  intro x hx
  exact Nat.le_mul_of_pos_right _ (h.mem_spenders.mp hx).mult_pos

theorem LedgerRun.rounds_eq_confidence {cfg : Config Nat} (hrule : cfg.rule = blizzardRule)
    {l : Ledger Nat} {ops : List Op} (h : LedgerRun cfg ops l) {u : Utxo} {ct : ConflictSet Nat}
    (hct : l.conflictSets u = some ct)
    (hone : ∀ x, Spends l u x → mult l.txnPool u x = 1) :
    ct.ctr = ∑ x ∈ spenders cfg.ids ops u, conf l x := by
  rw [LedgerRun.rounds_eq hrule h hct]
  apply Finset.sum_congr rfl
  intro x hx
  rw [hone x (h.mem_spenders.mp hx), Nat.mul_one]

/-- The confidence of the other transactions that spend `u`, added up. -/
def rivalConfidence (ids : TxnIds) (l : Ledger C) (ops : List Op) (t : Hash) (u : Utxo) : Nat :=
  ∑ x ∈ (spenders ids ops u).erase t, conf l x

/-- What a transaction that lists `u` once leaves of `total_rounds` covers the
confidence of the others. -/
theorem LedgerRun.rivals_le_rounds {cfg : Config Nat} (hrule : cfg.rule = blizzardRule)
    {l : Ledger Nat} {ops : List Op} (h : LedgerRun cfg ops l) {u : Utxo} {ct : ConflictSet Nat}
    (hct : l.conflictSets u = some ct) {t : Hash} (ht : Spends l u t) :
    conf l t + rivalConfidence cfg.ids l ops t u ≤ ct.ctr := by
  have hmem := h.mem_spenders.mpr ht
  unfold rivalConfidence
  rw [Finset.add_sum_erase _ _ hmem]
  exact LedgerRun.confidence_le_rounds hrule h hct

/-- The tally of a transaction with distinct inputs. -/
theorem rounds_tally_eq {cfg : Config Nat} (hrule : cfg.rule = blizzardRule) {fuel : Nat}
    {l : Ledger Nat} {h : Hash} {score : Nat} {us : List Utxo} {t : Tally Nat}
    (hf : us.foldlM (bumpInput cfg fuel l h score)
      ⟨l.conflictSets, l.preferenceCache, false, cfg.rule.start score⟩ = .ok t)
    (hnd : us.Nodup) : t.count = (us.map fun u => roundsOf l.conflictSets u + 1 - score).sum := by
  have hgo := foldlM_prefix (fun done (t : Tally Nat) => Bumped cfg l h score done t ∧
    (done.Nodup → t.count = (done.map fun u => roundsOf l.conflictSets u + 1 - score).sum)) ?_ ?_ hf
  · exact hgo.2 hnd
  · intro done t u t' hdone hstep
    obtain ⟨hb, hsum⟩ := hdone
    refine ⟨hb.snoc hstep, fun hnd => ?_⟩
    obtain ⟨cur, pref, hcur, -, -, -, hcount⟩ := bumpInput_cases hstep
    rw [hrule] at hcount
    have hcount : t'.count = t.count + (cur.ctr + 1 - score) := hcount
    obtain ⟨hnd, -, hdisj⟩ := List.nodup_append.mp hnd
    have hu : u ∉ done := fun hmem => hdisj u hmem u (by simp) rfl
    rw [hb.off u hu] at hcur
    have hrounds : roundsOf l.conflictSets u = cur.ctr := by simp [roundsOf, hcur]
    rw [hcount, hsum hnd, List.map_append, List.sum_append, ← hrounds]
    simp
  · refine ⟨Bumped.start cfg l h score, fun _ => ?_⟩
    rw [hrule]
    rfl

/-- Wherever the loop over the inputs of `t` stands, the subtraction it is about
to make is exact: the counter, raised by this round, is at least the score. -/
def NoUnderflow (cfg : Config Nat) (l : Ledger Nat) (t : Hash) : Prop :=
  ∀ n txn done u rest fuel tally ct, l.confidence t = some n → l.txnPool t = some txn →
    txn.utxos = done ++ u :: rest →
    done.foldlM (bumpInput cfg fuel (raised l t (n + 1)) t (n + 1))
      ⟨l.conflictSets, l.preferenceCache, false, cfg.rule.start (n + 1)⟩ = .ok tally →
    tally.conflictSets u = some ct → n + 1 ≤ cfg.rule.bump t ct.ctr

theorem LedgerRun.no_underflow {cfg : Config Nat} (hrule : cfg.rule = blizzardRule)
    {l : Ledger Nat} {ops : List Op} (h : LedgerRun cfg ops l) (t : Hash) :
    NoUnderflow cfg l t := by
  intro n txn done u rest fuel tally ct hn htxn hsplit hfold hct
  have hb := foldlM_prefix (Bumped cfg (raised l t (n + 1)) t (n + 1))
    (fun _ _ _ _ hd hs => hd.snoc hs) (Bumped.start cfg (raised l t (n + 1)) t (n + 1)) hfold
  obtain ⟨ct₀, hct₀, -, hctr, -⟩ := hb.current hct
  have hu : u ∈ txn.utxos := by
    rw [hsplit]
    simp
  have hle := confidence_le_totalRounds hrule h htxn hu hn hct₀
  rw [hrule, rounds_bump] at hctr
  rw [hrule]
  show n + 1 ≤ ct.ctr + 1
  omega

/-- What an acceptance in Blizzard has outweighed. -/
theorem LedgerRun.outweighs {cfg : Config Nat} (hrule : cfg.rule = blizzardRule)
    {l l' l'' : Ledger Nat} {ops rest : List Op} {slot : Slot} {t : Hash}
    (hrun : LedgerRun cfg ops l) (hstep : OpStep cfg l (.bump slot t true) l')
    (hrest : Ops cfg l' rest l'') {txn : AvalancheTxn} (htxn : l.txnPool t = some txn)
    (hnd : txn.utxos.Nodup) (hfits : Fits cfg l'' txn) :
    min cfg.beta1.toNat cfg.beta2.toNat +
        (txn.utxos.map (rivalConfidence cfg.ids l ops t)).sum ≤ conf l t + 1 ∧
      (HasRival l t txn ∨ (∃ p ∈ txn.parents, l.txnDag p ≠ none) →
        cfg.beta2.toNat + (txn.utxos.map (rivalConfidence cfg.ids l ops t)).sum ≤
          conf l t + 1) := by
  obtain ⟨fuel, tally, hconf, hfold, hmin, hlate⟩ :=
    LedgerRun.weighed hrule hrun hstep hrest htxn hfits
  have hscore : conf l t = (bumpedTxns ops).count t := by simp [conf, hconf]
  rw [← hscore] at hfold hmin hlate
  have htally := rounds_tally_eq hrule hfold hnd
  have hsum : (txn.utxos.map (rivalConfidence cfg.ids l ops t)).sum ≤ tally.count := by
    rw [htally]
    apply List.sum_le_sum
    intro u hu
    obtain ⟨ct, hct⟩ := hrun.inv.entered t txn htxn u hu
    have hle := LedgerRun.rivals_le_rounds hrule hrun hct (spends_iff.mpr ⟨txn, htxn, hu⟩)
    have hrounds : roundsOf (raised l t (conf l t + 1)).conflictSets u = ct.ctr := by
      have hct : (raised l t (conf l t + 1)).conflictSets u = some ct := hct
      simp [roundsOf, hct]
    rw [hrounds]
    omega
  refine ⟨by omega, fun hcontested => ?_⟩
  have := hlate hcontested
  omega

/-- A bump changes no confidence but one, and neither the DAG nor what is
recorded. -/
theorem OpStep.bumped {l l' : Ledger C} {slot : Slot} {t : Hash} {b : Bool}
    (h : OpStep cfg l (.bump slot t b) l') :
    l'.txnPool = l.txnPool ∧ l'.txnDag = l.txnDag ∧ conf l' t = conf l t + 1 ∧
      ∀ x, x ≠ t → conf l' x = conf l x := by
  cases h with
  | bump _ hb =>
    obtain ⟨n, txn, tally, hn, -, -, -, -, rfl, -⟩ := bump_spec hb
    refine ⟨rfl, rfl, ?_, ?_⟩
    · show (Function.update l.confidence t (some (n + 1)) t).getD 0 = (l.confidence t).getD 0 + 1
      rw [Function.update_self, hn]
      rfl
    · intro x hx
      show (Function.update l.confidence t (some (n + 1)) x).getD 0 = (l.confidence x).getD 0
      rw [Function.update_of_ne hx]

theorem rivalConfidence_bumped {l l' : Ledger C} {ops : List Op} {slot : Slot} {t : Hash}
    {b : Bool} (h : OpStep cfg l (.bump slot t b) l') (u : Utxo) :
    rivalConfidence cfg.ids l' (ops ++ [.bump slot t b]) t u =
      rivalConfidence cfg.ids l ops t u := by
  have hsame : spenders cfg.ids (ops ++ [.bump slot t b]) u = spenders cfg.ids ops u := by
    unfold spenders
    rw [List.filterMap_append]
    simp
  unfold rivalConfidence
  rw [hsame]
  apply Finset.sum_congr rfl
  intro x hx
  exact h.bumped.2.2.2 x (Finset.ne_of_mem_erase hx)

/-- **Rounds.** In every reachable state of Blizzard, `total_rounds` of a
conflict set is at least the confidence of all `Send`s that spend the output,
added up, and exactly that if no `Send` lists an input twice. The subtraction
in `handle_votes_helper` was exact at every bump. And when a `Send` with
distinct inputs was accepted and the sums with `beta` fit, its confidence was at
least the lower threshold plus the confidence of all rivals at all inputs, and
at least `beta2` plus that if there was a rival or a parent in the DAG. -/
theorem rounds_are_confidence {cfg : Config Nat} (hrule : cfg.rule = blizzardRule)
    {tr : List Call} {s : Decision Nat} (h : Run cfg tr s) :
    (∀ l ops, LedgerRun cfg ops l → ∀ u x, x ∈ spenders cfg.ids ops u ↔ Spends l u x) ∧
    (∀ u ct, s.conflictSets u = some ct →
      ∑ x ∈ spenders cfg.ids s.history u, conf s.toLedger x ≤ ct.ctr ∧
      ((∀ x sender inUtxo receiver outUtxo remainder sig,
          s.txnPool x = some (.send sender inUtxo receiver outUtxo remainder sig) →
          inUtxo.Nodup) →
        ct.ctr = ∑ x ∈ spenders cfg.ids s.history u, conf s.toLedger x)) ∧
    LedgerRun cfg s.history s.toLedger ∧
    (∀ pre slot t b post, s.history = pre ++ .bump slot t b :: post →
      ∃ l, LedgerRun cfg pre l ∧ NoUnderflow cfg l t) ∧
    (∀ t sender inUtxo receiver outUtxo remainder sig, t ∈ acceptedTxns s.history →
      s.txnPool t = some (.send sender inUtxo receiver outUtxo remainder sig) → inUtxo.Nodup →
      Fits cfg s.toLedger (.send sender inUtxo receiver outUtxo remainder sig) →
      ∃ pre slot post l, s.history = pre ++ .bump slot t true :: .accept t :: post ∧
        LedgerRun cfg (pre ++ [.bump slot t true]) l ∧
        min cfg.beta1.toNat cfg.beta2.toNat + (inUtxo.map fun p => rivalConfidence cfg.ids l
          (pre ++ [.bump slot t true]) t (p, sender)).sum ≤ conf l t ∧
        ((∃ p ∈ inUtxo, ∃ x, x ≠ t ∧ Spends l (p, sender) x) ∨
            (∃ p ∈ inUtxo, l.txnDag p ≠ none) →
          cfg.beta2.toNat + (inUtxo.map fun p => rivalConfidence cfg.ids l
            (pre ++ [.bump slot t true]) t (p, sender)).sum ≤ conf l t)) := by
  have hrun := (runInv_run h).hist.run
  refine ⟨fun l ops hl u x => hl.mem_spenders, ?_, hrun, ?_, ?_⟩
  · intro u ct hct
    refine ⟨LedgerRun.confidence_le_rounds hrule hrun hct, fun hnd => ?_⟩
    apply LedgerRun.rounds_eq_confidence hrule hrun hct
    intro x hx
    obtain ⟨inUtxo, receiver, outUtxo, remainder, sig, ht, hu⟩ := hx
    rw [mult_some ht]
    apply List.count_eq_one_of_mem
    · exact (hnd x _ inUtxo _ _ _ _ ht).map fun a b hab => (Prod.mk.inj hab).1
    · exact List.mem_map.mpr ⟨u.1, hu, rfl⟩
  · intro pre slot t b post hsplit
    have hrun' : LedgerRun cfg (pre ++ .bump slot t b :: post) s.toLedger := hsplit ▸ hrun
    obtain ⟨l, l', hl, -⟩ := hrun'.at_bump
    exact ⟨l, hl, LedgerRun.no_underflow hrule hl t⟩
  · intro t sender inUtxo receiver outUtxo remainder sig hacc hpool hnd hfits
    obtain ⟨pre, slot, post, hsplit⟩ := hrun.accept_after_bump hacc
    have hrun' : LedgerRun cfg (pre ++ .bump slot t true :: (.accept t :: post)) s.toLedger :=
      hsplit ▸ hrun
    obtain ⟨l, l', hl, hstep, hl', hsame, hpost⟩ := hrun'.at_bump
    -- what is recorded now was recorded then
    have htxn : l.txnPool t = some (.send sender inUtxo receiver outUtxo remainder sig) := by
      obtain ⟨-, txn, -, -, htxn, -⟩ := LedgerRun.verdict hl hstep
      rw [htxn, ← hpool, pool_ops hpost (hsame ▸ htxn)]
    have hutxos : (AvalancheTxn.send sender inUtxo receiver outUtxo remainder sig).utxos =
        inUtxo.map fun p => (p, sender) := rfl
    have hnd' : (inUtxo.map fun p => (p, sender)).Nodup :=
      hnd.map fun a b hab => (Prod.mk.inj hab).1
    obtain ⟨hmin, hlate⟩ := LedgerRun.outweighs hrule hl hstep hpost htxn (hutxos ▸ hnd') hfits
    obtain ⟨hp, hd, hself, -⟩ := hstep.bumped
    rw [hutxos, List.map_map, ← hself] at hmin hlate
    have hsum : (inUtxo.map fun p => rivalConfidence cfg.ids l'
        (pre ++ [.bump slot t true]) t (p, sender)) =
        inUtxo.map (rivalConfidence cfg.ids l pre t ∘ fun p => (p, sender)) := by
      apply List.map_congr_left
      intro p _
      exact rivalConfidence_bumped hstep (p, sender)
    refine ⟨pre, slot, post, l', hsplit, hl', hsum ▸ hmin, fun hcontested => ?_⟩
    rw [hsum]
    apply hlate
    rcases hcontested with hrival | hparent
    · obtain ⟨p, hp', x, hx, hspends⟩ := hrival
      obtain ⟨rival, hr, hu⟩ := spends_iff.mp hspends
      rw [hp] at hr
      exact Or.inl ⟨x, rival, hr, hx, (p, sender), List.mem_map.mpr ⟨p, hp', rfl⟩, hu⟩
    · obtain ⟨p, hp', hdag⟩ := hparent
      rw [hd] at hdag
      exact Or.inr ⟨p, hp', hdag⟩

/-- A contested output: the second `Send` needs three rounds against the one of
the first, and then three count for it and one for its rival. -/
theorem rounds_are_confidence_demo :
    ∃ s, Run (demo blizzardRule 1 2) conflictingQueries s ∧ (8 : Hash) ∈ acceptedTxns s.history ∧
      ∃ pre slot post l, s.history = pre ++ .bump slot 8 true :: .accept 8 :: post ∧
        LedgerRun (demo blizzardRule 1 2) (pre ++ [.bump slot 8 true]) l ∧
        1 + rivalConfidence demoIds l (pre ++ [.bump slot 8 true]) 8 (5, [1]) ≤ conf l 8 := by
  have hcheck : returns (runCalls (demo blizzardRule 1 2) 20 conflictingQueries) (fun s =>
      decide ((8 : Hash) ∈ acceptedTxns s.history ∧ s.txnPool 8 = some (demoSend 2) ∧
        Fits (demo blizzardRule 1 2) s.toLedger (demoSend 2))) = true := by
    decide +kernel
  obtain ⟨s, hs, hmem⟩ := returns_iff.mp hcheck
  obtain ⟨hacc, hpool, hfits⟩ := of_decide_eq_true hmem
  have hrun := run_of_runCalls hs
  obtain ⟨pre, slot, post, l, hsplit, hl, hmin, -⟩ :=
    (rounds_are_confidence rfl hrun).2.2.2.2 8 [1] [5] [2] 2 0 [] hacc hpool (by decide) hfits
  refine ⟨s, hrun, hacc, pre, slot, post, l, hsplit, hl, ?_⟩
  simpa [demo] using hmin

/-- With `beta2` the last `u64`, one query for the second of two `Send`s of one
output accepts it: `conflict_count` is 1, and the sum wraps to zero. -/
theorem accepted_by_wrapping :
    ∃ s, Run (demo blizzardRule 1 18446744073709551615)
        [demoBlock 1 [demoSend 1], demoVote 2, demoBlock 2 [demoSend 2], demoVote 3] s ∧
      s.history = [.record (demoSend 1), .check 7, .ask (1, 0) 7 1, .bump (1, 0) 7 true,
        .accept 7, .record (demoSend 2), .check 8, .ask (2, 0) 8 1] ++
          [.bump (2, 0) 8 true, .accept 8] ∧
      Spends s.toLedger (5, [1]) 7 ∧ Spends s.toLedger (5, [1]) 8 ∧
      conf s.toLedger 8 <
        (demo blizzardRule 1 18446744073709551615).beta2.toNat + conf s.toLedger 7 := by
  have hcheck : returns (runCalls (demo blizzardRule 1 18446744073709551615) 20
      [demoBlock 1 [demoSend 1], demoVote 2, demoBlock 2 [demoSend 2], demoVote 3]) (fun s =>
      decide (s.history = [.record (demoSend 1), .check 7, .ask (1, 0) 7 1, .bump (1, 0) 7 true,
        .accept 7, .record (demoSend 2), .check 8, .ask (2, 0) 8 1] ++
          [.bump (2, 0) 8 true, .accept 8] ∧
        s.txnPool 7 = some (demoSend 1) ∧ s.txnPool 8 = some (demoSend 2) ∧
        conf s.toLedger 8 <
          (demo blizzardRule 1 18446744073709551615).beta2.toNat + conf s.toLedger 7)) = true := by
    decide +kernel
  obtain ⟨s, hs, hfacts⟩ := returns_iff.mp hcheck
  obtain ⟨hhist, h₇, h₈, hconf⟩ := of_decide_eq_true hfacts
  have hspent : ∀ {n x}, s.txnPool x = some (demoSend n) → Spends s.toLedger (5, [1]) x :=
    fun hx => spends_iff.mpr ⟨_, hx, List.mem_singleton.mpr rfl⟩
  exact ⟨s, run_of_runCalls hs, hhist, hspent h₇, hspent h₈, hconf⟩

end Copycat.Avalanche
