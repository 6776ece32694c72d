import Copycat.Avalanche.Runs

/-!
# The counters and the history

What the counters of the two voting rules say about the history of the ledger.
The confidence of a transaction is the number of times it was bumped. A
conflict set is marked as soon as two transactions are in it. Avalanche's
`count` is at most the number of successes through `last` that stand at the end
of the outcomes touching the set (`StreakInv`); Blizzard's `total_rounds` counts
every bump of a member (`RoundsInv`). Each of these is proved from `Effect`,
which says what an operation does to the recorded transactions, the confidence
and the conflict sets.
-/

namespace Copycat.Avalanche

open Copycat.Lib

variable {C : Type} {cfg : Config C}

/-- What an operation does to everything but the DAG and the cache. -/
inductive Effect (cfg : Config C) (l l' : Ledger C) : Op → Prop
  | record {txn : AvalancheTxn} :
      l.txnPool (cfg.ids.txnId txn) = none →
      l'.txnPool = Function.update l.txnPool (cfg.ids.txnId txn) (some txn) →
      l'.confidence = Function.update l.confidence (cfg.ids.txnId txn) (some 0) →
      (∀ u ct', l'.conflictSets u = some ct' →
        (∃ ct, l.conflictSets u = some ct ∧ ct'.ctr = ct.ctr ∧
          (u ∈ txn.utxos ∨ ct.hasConflicts = true → ct'.hasConflicts = true)) ∨
        (l.conflictSets u = none ∧ ct'.ctr = cfg.rule.fresh)) →
      Effect cfg l l' (.record txn)
  | idle {op : Op} :
      (∃ x, op = .check x) ∨ (∃ slot x n, op = .ask slot x n) ∨ (∃ x, op = .accept x) →
      l'.txnPool = l.txnPool → l'.confidence = l.confidence →
      l'.conflictSets = l.conflictSets → Effect cfg l l' op
  | bump {slot : Slot} {h : Hash} {b : Bool} {n : Nat} {txn : AvalancheTxn} :
      l.txnPool h = some txn → l.confidence h = some n → l'.txnPool = l.txnPool →
      l'.confidence = Function.update l.confidence h (some (n + 1)) →
      (∀ u ct', l'.conflictSets u = some ct' → ∃ ct, l.conflictSets u = some ct ∧
        ct'.hasConflicts = ct.hasConflicts ∧
        ct'.ctr = (cfg.rule.bump h)^[txn.utxos.count u] ct.ctr) →
      Effect cfg l l' (.bump slot h b)
  | reset {slot : Slot} {h : Hash} {txn : AvalancheTxn} {reset : C → C} :
      l.txnPool h = some txn → cfg.rule.reset = some reset → l'.txnPool = l.txnPool →
      l'.confidence = l.confidence →
      (∀ u ct', l'.conflictSets u = some ct' → ∃ ct, l.conflictSets u = some ct ∧
        ct'.hasConflicts = ct.hasConflicts ∧ ct'.ctr = reset^[txn.utxos.count u] ct.ctr) →
      Effect cfg l l' (.reset slot h)

theorem effect_of_op {l l' : Ledger C} {op : Op} (h : OpStep cfg l op l') :
    Effect cfg l l' op := by
  cases h with
  | @record txn hnew hph =>
    refine .record hnew rfl rfl fun u ct' hct' => ?_
    rw [recordTxn_sets] at hct'
    by_cases hu : u ∈ txn.utxos
    · rw [if_pos hu] at hct'
      cases hs : l.conflictSets u with
      | none =>
        rw [hs, Option.some.injEq] at hct'
        subst hct'
        exact Or.inr ⟨rfl, rfl⟩
      | some ct =>
        rw [hs, Option.some.injEq] at hct'
        subst hct'
        exact Or.inl ⟨ct, rfl, rfl, fun _ => rfl⟩
    · rw [if_neg hu] at hct'
      exact Or.inl ⟨ct', hct', rfl, fun hh => hh.resolve_left hu⟩
  | @check _ fuel x b hs =>
    obtain ⟨cache, -, rfl⟩ := isStronglyPreferred_cases hs
    exact .idle (Or.inl ⟨x, rfl⟩) rfl rfl rfl
  | @ask slot x n => exact .idle (Or.inr (Or.inl ⟨slot, x, n, rfl⟩)) rfl rfl rfl
  | bump _ hb =>
    obtain ⟨n, txn, t, hn, htxn, -, -, ht, rfl, -⟩ := bump_spec hb
    refine .bump htxn hn rfl rfl fun u ct' hct' => ?_
    obtain ⟨ct, hct, hhas, hctr, -⟩ := ht.current hct'
    exact ⟨ct, hct, hhas, hctr⟩
  | @accept _ x => exact .idle (Or.inr (Or.inr ⟨x, rfl⟩)) rfl rfl rfl
  | reset hrule _ hr =>
    obtain ⟨txn, sets, htxn, rfl, hsets⟩ := resetTxn_spec hr
    refine .reset htxn hrule rfl rfl fun u ct' hct' => ?_
    obtain ⟨ct, hct, rfl⟩ := Option.map_eq_some_iff.mp ((hsets u).symm.trans hct')
    exact ⟨ct, hct, rfl, rfl⟩

/-- What is recorded is in the history, and the other way around. -/
theorem LedgerRun.recorded {l : Ledger C} {ops : List Op} (h : LedgerRun cfg ops l) :
    ∀ x txn, l.txnPool x = some txn ↔ Op.record txn ∈ ops ∧ cfg.ids.txnId txn = x := by
  refine h.invariant_trace (fun ops l => ∀ x txn, l.txnPool x = some txn ↔
    Op.record txn ∈ ops ∧ cfg.ids.txnId txn = x) ?_ ?_
  · intro x txn
    simp [ledger, Ledger.new]
  · intro ops l op l' hinv _ hstep x txn
    have hother : (∀ t, op ≠ .record t) → l'.txnPool = l.txnPool →
        (l'.txnPool x = some txn ↔ Op.record txn ∈ ops ++ [op] ∧ cfg.ids.txnId txn = x) := by
      intro hop hpool
      rw [hpool, hinv x txn]
      have hne := Ne.symm (hop txn)
      simp [hne]
    cases effect_of_op hstep with
    | @record t hnew hpool _ _ =>
      rw [hpool]
      by_cases hx : x = cfg.ids.txnId t
      · rw [hx, Function.update_self, Option.some.injEq]
        constructor
        · intro he
          rw [← he]
          exact ⟨by simp, rfl⟩
        · intro he
          obtain ⟨hmem, hid⟩ := he
          rcases List.mem_append.mp hmem with hold | hlast
          · -- an older transaction of the same id: there is none
            have := (hinv _ txn).mpr ⟨hold, hid⟩
            rw [hnew] at this
            exact absurd this (by simp)
          · have he := List.mem_singleton.mp hlast
            rw [Op.record.injEq] at he
            exact he.symm
      · rw [Function.update_of_ne hx, hinv x txn]
        constructor
        · intro he
          exact ⟨List.mem_append_left _ he.1, he.2⟩
        · intro he
          obtain ⟨hmem, hid⟩ := he
          rcases List.mem_append.mp hmem with hold | hlast
          · exact ⟨hold, hid⟩
          · have he := List.mem_singleton.mp hlast
            rw [Op.record.injEq] at he
            exact absurd (he ▸ hid.symm) hx
    | idle hop hpool _ _ =>
      refine hother ?_ hpool
      intro t he
      rw [he] at hop
      simp at hop
    | bump _ _ hpool _ _ => exact hother (fun t => by simp) hpool
    | reset _ _ hpool _ _ => exact hother (fun t => by simp) hpool

/-! ## Confidence and conflicts -/

/-- How often a recorded transaction lists an output. -/
def mult (pool : Hash → Option AvalancheTxn) (u : Utxo) (h : Hash) : Nat :=
  ((pool h).map fun txn => txn.utxos.count u).getD 0

theorem mult_some {pool : Hash → Option AvalancheTxn} {h : Hash} {txn : AvalancheTxn}
    (ht : pool h = some txn) (u : Utxo) : mult pool u h = txn.utxos.count u := by
  simp [mult, ht]

theorem mult_update {pool : Hash → Option AvalancheTxn} {h x : Hash} {txn : AvalancheTxn}
    (hx : x ≠ h) (u : Utxo) : mult (Function.update pool h (some txn)) u x = mult pool u x := by
  unfold mult
  rw [Function.update_of_ne hx]

/-- The confidence counts the bumps; what is bumped or reset is recorded; a
conflict set with two members is marked. -/
structure CountInv (l : Ledger C) : Prop where
  conf : ∀ h n, l.confidence h = some n → n = (bumpedTxns l.history).count h
  bumped : ∀ h ∈ bumpedTxns l.history, l.txnPool h ≠ none
  reset : ∀ h ∈ resetTxns l.history, l.txnPool h ≠ none
  marked : ∀ u ct h h', h ≠ h' → 0 < mult l.txnPool u h → 0 < mult l.txnPool u h' →
    l.conflictSets u = some ct → ct.hasConflicts = true

theorem mult_pos {pool : Hash → Option AvalancheTxn} {u : Utxo} {h : Hash}
    (hm : 0 < mult pool u h) : ∃ txn, pool h = some txn ∧ u ∈ txn.utxos := by
  unfold mult at hm
  cases ht : pool h with
  | none =>
    rw [ht] at hm
    exact absurd hm (by simp)
  | some txn =>
    rw [ht] at hm
    exact ⟨txn, rfl, List.count_pos_iff.mp hm⟩

/-- A second member finds the conflict set there, and marks it. -/
theorem CountInv.marked_record {l : Ledger C} {txn : AvalancheTxn} {u : Utxo}
    {ct' : ConflictSet C} {x y : Hash} (hshape : LedgerInv cfg.ids l) (hinv : CountInv l)
    (hset : (∃ ct, l.conflictSets u = some ct ∧
        (u ∈ txn.utxos ∨ ct.hasConflicts = true → ct'.hasConflicts = true)) ∨
      l.conflictSets u = none)
    (hxy : x ≠ y)
    (hmx : 0 < mult (Function.update l.txnPool (cfg.ids.txnId txn) (some txn)) u x)
    (hmy : 0 < mult (Function.update l.txnPool (cfg.ids.txnId txn) (some txn)) u y) :
    ct'.hasConflicts = true := by
  -- one of the two was recorded before, so the set was there
  have hold : ∀ z, z ≠ cfg.ids.txnId txn →
      0 < mult (Function.update l.txnPool (cfg.ids.txnId txn) (some txn)) u z →
      0 < mult l.txnPool u z := by
    intro z hz hm
    rwa [mult_update hz] at hm
  have hnone : ∀ z, 0 < mult l.txnPool u z → l.conflictSets u ≠ none := by
    intro z hm
    obtain ⟨t, ht, hu⟩ := mult_pos hm
    obtain ⟨ct, hct⟩ := hshape.entered z t ht u hu
    rw [hct]
    simp
  have hself : 0 < mult (Function.update l.txnPool (cfg.ids.txnId txn) (some txn)) u
      (cfg.ids.txnId txn) → u ∈ txn.utxos := by
    intro hm
    rw [mult_some (Function.update_self ..)] at hm
    exact List.count_pos_iff.mp hm
  rcases hset with ⟨ct, hct, hmark⟩ | hn
  · apply hmark
    by_cases hx : x = cfg.ids.txnId txn
    · exact Or.inl (hself (hx ▸ hmx))
    · by_cases hy : y = cfg.ids.txnId txn
      · exact Or.inl (hself (hy ▸ hmy))
      · exact Or.inr (hinv.marked u ct x y hxy (hold x hx hmx) (hold y hy hmy) hct)
  · by_cases hx : x = cfg.ids.txnId txn
    · have hy : y ≠ cfg.ids.txnId txn := fun hy => hxy (hx.trans hy.symm)
      exact absurd hn (hnone y (hold y hy hmy))
    · exact absurd hn (hnone x (hold x hx hmx))

/-- Where no transaction is recorded and no flag changes, the marks stay. -/
theorem CountInv.marked_keep {l l' : Ledger C} (hinv : CountInv l)
    (hpool : l'.txnPool = l.txnPool)
    (hsets : ∀ u ct', l'.conflictSets u = some ct' → ∃ ct, l.conflictSets u = some ct ∧
      ct'.hasConflicts = ct.hasConflicts) :
    ∀ u ct h h', h ≠ h' → 0 < mult l'.txnPool u h → 0 < mult l'.txnPool u h' →
      l'.conflictSets u = some ct → ct.hasConflicts = true := by
  intro u ct' y z hyz hmy hmz hct'
  obtain ⟨ct, hct, hhas⟩ := hsets u ct' hct'
  rw [hpool] at hmy hmz
  rw [hhas]
  exact hinv.marked u ct y z hyz hmy hmz hct

/-- A check, a question or an acceptance bumps and resets nothing. -/
theorem bumpedTxns_idle {op : Op}
    (hop : (∃ x, op = .check x) ∨ (∃ slot x n, op = .ask slot x n) ∨ (∃ x, op = .accept x)) :
    bumpedTxns [op] = [] ∧ resetTxns [op] = [] := by
  rcases hop with ⟨x, rfl⟩ | ⟨slot, x, n, rfl⟩ | ⟨x, rfl⟩
  · exact ⟨rfl, rfl⟩
  · exact ⟨rfl, rfl⟩
  · exact ⟨rfl, rfl⟩

theorem bumpedTxns_op {l l' : Ledger C} {op : Op} (h : OpStep cfg l op l') :
    bumpedTxns l'.history = bumpedTxns l.history ++ bumpedTxns [op] := by
  rw [history_op h, bumpedTxns_append]

theorem resetTxns_op {l l' : Ledger C} {op : Op} (h : OpStep cfg l op l') :
    resetTxns l'.history = resetTxns l.history ++ resetTxns [op] := by
  rw [history_op h, resetTxns_append]

theorem known_op {l l' : Ledger C} {op : Op} (h : OpStep cfg l op l') {x : Hash}
    (hx : l.txnPool x ≠ none) : l'.txnPool x ≠ none := by
  obtain ⟨txn, ht⟩ := Option.ne_none_iff_exists'.mp hx
  rw [pool_op h ht]
  simp

/-- The confidence counts the bumps, and a new transaction has had none. -/
theorem CountInv.conf_op {l l' : Ledger C} {op : Op} (hinv : CountInv l)
    (h : OpStep cfg l op l') :
    ∀ x n, l'.confidence x = some n → n = (bumpedTxns l'.history).count x := by
  intro x n hx
  rw [bumpedTxns_op h, List.count_append]
  cases effect_of_op h with
  | @record txn hnew _ hconf _ =>
    show n = (bumpedTxns l.history).count x + 0
    rw [hconf] at hx
    by_cases hxh : x = cfg.ids.txnId txn
    · subst hxh
      rw [Function.update_self, Option.some.injEq] at hx
      rw [← hx, eq_comm, Nat.add_zero, List.count_eq_zero]
      exact fun hmem => hinv.bumped _ hmem hnew
    · rw [Function.update_of_ne hxh] at hx
      exact hinv.conf x n hx
  | idle hop _ hconf _ =>
    rw [(bumpedTxns_idle hop).1]
    exact hinv.conf x n (hconf ▸ hx)
  | @bump slot y b m txn _ hm _ hconf _ =>
    show n = (bumpedTxns l.history).count x + List.count x [y]
    rw [hconf] at hx
    by_cases hxy : x = y
    · subst hxy
      rw [Function.update_self, Option.some.injEq] at hx
      rw [List.count_singleton_self, ← hinv.conf x m hm, hx]
    · rw [Function.update_of_ne hxy] at hx
      rw [List.count_singleton, if_neg (by simpa using Ne.symm hxy), Nat.add_zero]
      exact hinv.conf x n hx
  | reset _ _ _ hconf _ => exact hinv.conf x n (hconf ▸ hx)

/-- Only what is recorded is bumped. -/
theorem CountInv.bumped_op {l l' : Ledger C} {op : Op} (hinv : CountInv l)
    (h : OpStep cfg l op l') : ∀ x ∈ bumpedTxns l'.history, l'.txnPool x ≠ none := by
  intro x hx
  rw [bumpedTxns_op h] at hx
  rcases List.mem_append.mp hx with hold | hlast
  · exact known_op h (hinv.bumped x hold)
  · obtain ⟨slot, b, hop⟩ := mem_bumpedTxns.mp hlast
    have he := List.mem_singleton.mp hop
    subst he
    cases effect_of_op h with
    | idle hop => simp at hop
    | bump htxn =>
      apply known_op h
      rw [htxn]
      simp

/-- Only what is recorded is reset. -/
theorem CountInv.reset_op {l l' : Ledger C} {op : Op} (hinv : CountInv l)
    (h : OpStep cfg l op l') : ∀ x ∈ resetTxns l'.history, l'.txnPool x ≠ none := by
  intro x hx
  rw [resetTxns_op h] at hx
  rcases List.mem_append.mp hx with hold | hlast
  · exact known_op h (hinv.reset x hold)
  · obtain ⟨slot, hop⟩ := mem_resetTxns.mp hlast
    have he := List.mem_singleton.mp hop
    subst he
    cases effect_of_op h with
    | idle hop => simp at hop
    | reset htxn =>
      apply known_op h
      rw [htxn]
      simp

/-- Only recording a transaction can give a conflict set a second member. -/
theorem CountInv.marked_op {l l' : Ledger C} {op : Op} (hshape : LedgerInv cfg.ids l)
    (hinv : CountInv l) (h : OpStep cfg l op l') :
    ∀ u ct h h', h ≠ h' → 0 < mult l'.txnPool u h → 0 < mult l'.txnPool u h' →
      l'.conflictSets u = some ct → ct.hasConflicts = true := by
  cases effect_of_op h with
  | @record txn hnew hpool hconf hsets =>
    intro u ct' x y hxy hmx hmy hct'
    rw [hpool] at hmx hmy
    refine hinv.marked_record hshape ?_ hxy hmx hmy
    rcases hsets u ct' hct' with ⟨ct, hct, -, hmark⟩ | ⟨hn, -⟩
    · exact Or.inl ⟨ct, hct, hmark⟩
    · exact Or.inr hn
  | idle hop hpool hconf hsets =>
    rw [hpool, hsets]
    exact hinv.marked
  | bump _ _ hpool _ hsets =>
    refine hinv.marked_keep hpool fun u ct' hct' => ?_
    obtain ⟨ct, hct, hhas, -⟩ := hsets u ct' hct'
    exact ⟨ct, hct, hhas⟩
  | reset _ _ hpool _ hsets =>
    refine hinv.marked_keep hpool fun u ct' hct' => ?_
    obtain ⟨ct, hct, hhas, -⟩ := hsets u ct' hct'
    exact ⟨ct, hct, hhas⟩

theorem countInv_op {l l' : Ledger C} {op : Op} (hshape : LedgerInv cfg.ids l)
    (hinv : CountInv l) (h : OpStep cfg l op l') : CountInv l' :=
  ⟨hinv.conf_op h, hinv.bumped_op h, hinv.reset_op h, hinv.marked_op hshape h⟩

/-- An invariant that an operation keeps, given the shape and the counts,
holds along every run. -/
theorem LedgerRun.counted_invariant (P : Ledger C → Prop) (hnew : P (Ledger.new C))
    (hop : ∀ l op l', LedgerInv cfg.ids l → CountInv l → P l → OpStep cfg l op l' → P l')
    {l : Ledger C} {ops : List Op} (h : LedgerRun cfg ops l) : CountInv l ∧ P l := by
  refine (h.invariant (fun l => LedgerInv cfg.ids l ∧ CountInv l ∧ P l) ?_ ?_).2
  · refine ⟨ledgerInv_new cfg.ids, ⟨?_, ?_, ?_, ?_⟩, hnew⟩
    · intro h n hn
      exact absurd hn (by simp [ledger, Ledger.new])
    · intro h hh
      exact absurd hh (by simp [ledger, Ledger.new, bumpedTxns])
    · intro h hh
      exact absurd hh (by simp [ledger, Ledger.new, resetTxns])
    · intro u ct h h' _ _ _ hct
      exact absurd hct (by simp [ledger, Ledger.new])
  · rintro l op l' ⟨hs, hc, hp⟩ _ hstep
    exact ⟨ledgerInv_op hs hstep, countInv_op hs hc hstep, hop l op l' hs hc hp hstep⟩

theorem LedgerRun.counts {l : Ledger C} {ops : List Op} (h : LedgerRun cfg ops l) : CountInv l :=
  (h.counted_invariant (fun _ => True) trivial fun _ _ _ _ _ _ _ => trivial).1

/-! ## Avalanche: consecutive successes -/

/-- Whether an operation is the outcome of a query for a member of the conflict
set `u`: a success through it, or a failure that reached it. -/
def touchesSet (pool : Hash → Option AvalancheTxn) (u : Utxo) : Op → Bool
  | .bump _ h _ => decide (0 < mult pool u h)
  | .reset _ h => decide (0 < mult pool u h)
  | _ => false

/-- The query outcomes that touch the conflict set `u`, in order. -/
def outcomes (pool : Hash → Option AvalancheTxn) (u : Utxo) (ops : List Op) : List Op :=
  ops.filter (touchesSet pool u)

@[simp] theorem outcomes_append (pool : Hash → Option AvalancheTxn) (u : Utxo)
    (ops ops' : List Op) :
    outcomes pool u (ops ++ ops') = outcomes pool u ops ++ outcomes pool u ops' :=
  List.filter_append ..

/-- What bumps and resets nothing is no outcome. -/
theorem outcomes_idle {op : Op} (pool : Hash → Option AvalancheTxn) (u : Utxo)
    (hop : (∃ x, op = .check x) ∨ (∃ slot x n, op = .ask slot x n) ∨ (∃ x, op = .accept x)) :
    outcomes pool u [op] = [] := by
  rcases hop with ⟨x, rfl⟩ | ⟨slot, x, n, rfl⟩ | ⟨x, rfl⟩
  · rfl
  · rfl
  · rfl

/-- Recording one more transaction does not change which outcomes touch a
set. -/
theorem outcomes_record {l : Ledger C} (hinv : CountInv l) {h : Hash} {txn : AvalancheTxn}
    (hnew : l.txnPool h = none) (u : Utxo) :
    outcomes (Function.update l.txnPool h (some txn)) u l.history =
      outcomes l.txnPool u l.history := by
  apply List.filter_congr
  intro op hop
  cases op with
  | bump slot x b =>
    have hx : x ≠ h := by
      rintro rfl
      exact hinv.bumped x (mem_bumpedTxns.mpr ⟨slot, b, hop⟩) hnew
    simp only [touchesSet, mult_update hx]
  | reset slot x =>
    have hx : x ≠ h := by
      rintro rfl
      exact hinv.reset x (mem_resetTxns.mpr ⟨slot, hop⟩) hnew
    simp only [touchesSet, mult_update hx]
  | _ => rfl

/-- Every operation of the list is a success through `t`. -/
def AllThrough (t : Hash) (ops : List Op) : Prop :=
  ∀ op ∈ ops, ∃ slot b, op = .bump slot t b

/-- The counter of a conflict set is backed by the successes through `last`
that end the outcomes touching it. -/
def StreakInv (l : Ledger Streak) : Prop :=
  ∀ u ct t, l.conflictSets u = some ct → ct.ctr.last = some t → l.txnPool t ≠ none ∧
    ∃ pre trail, outcomes l.txnPool u l.history = pre ++ trail ∧ AllThrough t trail ∧
      ct.ctr.count ≤ mult l.txnPool u t * trail.length

theorem streak_bump (h : Hash) (c : Streak) (m : Nat) :
    (avalancheRule.bump h)^[m + 1] c =
      ⟨some h, (if c.last = some h then c.count else 0) + (m + 1)⟩ := by
  induction m with
  | zero =>
    by_cases hl : c.last = some h
    · simp [avalancheRule, hl]
    · simp [avalancheRule, hl, Ne.symm hl]
  | succ m ih =>
    rw [Function.iterate_succ_apply', ih]
    simp [avalancheRule]
    omega

theorem streak_reset {reset : Streak → Streak} (hr : avalancheRule.reset = some reset)
    (c : Streak) (m : Nat) :
    (reset^[m] c).last = c.last ∧ (0 < m → (reset^[m] c).count = 0) := by
  have he : reset = fun ct => { ct with count := 0 } := (Option.some.inj hr).symm
  subst he
  induction m with
  | zero => exact ⟨rfl, fun h => absurd h (by simp)⟩
  | succ m ih =>
    rw [Function.iterate_succ_apply']
    exact ⟨ih.1, fun _ => rfl⟩

/-- A success through `t` goes on with a streak through `t`, or begins one. -/
theorem StreakInv.prolong {l : Ledger Streak} (hinv : StreakInv l) {u : Utxo}
    {ct : ConflictSet Streak} {t : Hash} {m : Nat} (hct : l.conflictSets u = some ct)
    (hmult : mult l.txnPool u t = m + 1) (slot : Slot) (b : Bool) :
    ∃ pre trail, outcomes l.txnPool u l.history ++ [.bump slot t b] = pre ++ trail ∧
      AllThrough t trail ∧
      (if ct.ctr.last = some t then ct.ctr.count else 0) + (m + 1) ≤
        mult l.txnPool u t * trail.length := by
  rw [hmult]
  by_cases hl : ct.ctr.last = some t
  · obtain ⟨-, pre, trail, hout, htrail, hle⟩ := hinv u ct t hct hl
    refine ⟨pre, trail ++ [.bump slot t b], by rw [hout, List.append_assoc], ?_, ?_⟩
    · intro op hop
      rcases List.mem_append.mp hop with hop | hop
      · exact htrail op hop
      · exact ⟨slot, b, List.mem_singleton.mp hop⟩
    · rw [hmult] at hle
      rw [if_pos hl, List.length_append, Nat.mul_add]
      simpa using hle
  · refine ⟨outcomes l.txnPool u l.history, [.bump slot t b], rfl, ?_, ?_⟩
    · intro op hop
      exact ⟨slot, b, List.mem_singleton.mp hop⟩
    · rw [if_neg hl]
      simp

theorem streakInv_op {cfg : Config Streak} (hrule : cfg.rule = avalancheRule)
    {l l' : Ledger Streak} {op : Op} (hcount : CountInv l)
    (hinv : StreakInv l) (h : OpStep cfg l op l') : StreakInv l' := by
  intro u ct' t hct' hlast
  have hout : outcomes l'.txnPool u l'.history =
      outcomes l'.txnPool u l.history ++ outcomes l'.txnPool u [op] := by
    rw [history_op h, outcomes_append]
  rw [hout]
  cases effect_of_op h with
  | @record txn hnew hpool hconf hsets =>
    rcases hsets u ct' hct' with ⟨ct, hct, hctr, -⟩ | ⟨-, hctr⟩
    · rw [hctr] at hlast ⊢
      obtain ⟨hknown, pre, trail, hbefore, htrail, hle⟩ := hinv u ct t hct hlast
      have hth : t ≠ cfg.ids.txnId txn := by
        rintro rfl
        exact hknown hnew
      refine ⟨known_op h hknown, pre, trail, ?_, htrail, ?_⟩
      · rw [hpool, outcomes_record hcount hnew, hbefore]
        exact List.append_nil _
      · rw [hpool, mult_update hth]
        exact hle
    · rw [hctr, hrule] at hlast
      exact absurd hlast (by simp [avalancheRule])
  | idle hop hpool hconf hsets =>
    rw [hsets] at hct'
    rw [outcomes_idle _ _ hop, List.append_nil, hpool]
    exact hinv u ct' t hct' hlast
  | @bump slot x b n txn htxn hn hpool hconf hsets =>
    obtain ⟨ct, hct, -, hctr⟩ := hsets u ct' hct'
    rw [hrule] at hctr
    rw [hpool]
    have hmult := mult_some htxn u
    cases hm : txn.utxos.count u with
    | zero =>
      -- the set is not touched
      rw [hm] at hctr hmult
      rw [hctr] at hlast ⊢
      have hnone : outcomes l.txnPool u [.bump slot x b] = [] := by
        simp [outcomes, touchesSet, hmult]
      rw [hnone, List.append_nil]
      exact hinv u ct t hct hlast
    | succ m =>
      rw [hm] at hctr hmult
      rw [streak_bump] at hctr
      rw [hctr] at hlast ⊢
      have htx : t = x := (Option.some.inj hlast).symm
      subst htx
      have hone : outcomes l.txnPool u [.bump slot t b] = [.bump slot t b] := by
        simp [outcomes, touchesSet, hmult]
      rw [hone]
      exact ⟨by rw [htxn]; simp, hinv.prolong hct hmult slot b⟩
  | @reset slot x txn reset htxn hreset hpool hconf hsets =>
    obtain ⟨ct, hct, -, hctr⟩ := hsets u ct' hct'
    rw [hrule] at hreset
    rw [hpool]
    obtain ⟨hsamelast, hzero⟩ := streak_reset hreset ct.ctr (txn.utxos.count u)
    rw [hctr, hsamelast] at hlast
    obtain ⟨hknown, pre, trail, hbefore, htrail, hle⟩ := hinv u ct t hct hlast
    have hmult := mult_some htxn u
    refine ⟨hknown, ?_⟩
    cases hm : txn.utxos.count u with
    | zero =>
      rw [hm] at hctr hmult
      have hnone : outcomes l.txnPool u [.reset slot x] = [] := by
        simp [outcomes, touchesSet, hmult]
      rw [hnone, List.append_nil, hctr]
      exact ⟨pre, trail, hbefore, htrail, hle⟩
    | succ m =>
      -- the failure ends every streak
      refine ⟨_, [], (List.append_nil _).symm, fun op hop => absurd hop (by simp), ?_⟩
      rw [hctr, hzero (by omega)]
      exact Nat.zero_le _

theorem LedgerRun.streaks {cfg : Config Streak} (hrule : cfg.rule = avalancheRule)
    {l : Ledger Streak} {ops : List Op} (h : LedgerRun cfg ops l) : StreakInv l := by
  refine (h.counted_invariant StreakInv ?_ ?_).2
  · intro u ct t hct
    exact absurd hct (by simp [Ledger.new])
  · exact fun l op l' _ hc hs hstep => streakInv_op hrule hc hs hstep

theorem streak_tally_le (score n : Nat) (c : Streak) :
    avalancheRule.tally score c n ≤ n ∧ avalancheRule.tally score c n ≤ c.count := by
  show (if c.count < n then c.count else n) ≤ n ∧ (if c.count < n then c.count else n) ≤ c.count
  split
  · omega
  · omega

/-- What the loop over the inputs makes of the counters: the tally is at most
the confidence and at most the counter of every input. -/
theorem streak_tally {cfg : Config Streak} (hrule : cfg.rule = avalancheRule) {fuel : Nat}
    {l : Ledger Streak} {h : Hash} {score : Nat} {us : List Utxo} {t : Tally Streak}
    (hf : us.foldlM (bumpInput cfg fuel l h score)
      ⟨l.conflictSets, l.preferenceCache, false, cfg.rule.start score⟩ = .ok t) :
    t.count ≤ score ∧ ∀ u ∈ us, ∃ ct, t.conflictSets u = some ct ∧ ct.ctr.last = some h ∧
      t.count ≤ ct.ctr.count := by
  refine foldlM_prefix (fun done (t : Tally Streak) => t.count ≤ score ∧
    ∀ u ∈ done, ∃ ct, t.conflictSets u = some ct ∧ ct.ctr.last = some h ∧
      t.count ≤ ct.ctr.count) ?_ ?_ hf
  · rintro done t u t' ⟨hscore, hall⟩ hstep
    obtain ⟨ct, pref, hct, -, hsets, -, hcount⟩ := bumpInput_cases hstep
    have hb := streak_bump h ct.ctr 0
    rw [Function.iterate_one] at hb
    rw [hrule, hb] at hsets hcount
    have hle := streak_tally_le score t.count
      ⟨some h, (if ct.ctr.last = some h then ct.ctr.count else 0) + (0 + 1)⟩
    rw [← hcount] at hle
    refine ⟨hle.1.trans hscore, fun v hv => ?_⟩
    by_cases hvu : v = u
    · subst hvu
      rw [hsets]
      exact ⟨_, Function.update_self .., rfl, hle.2⟩
    · have hvd : v ∈ done := by simpa [hvu] using hv
      obtain ⟨ct', hct', hlast, hle'⟩ := hall v hvd
      refine ⟨ct', ?_, hlast, hle.1.trans hle'⟩
      rw [hsets, Function.update_of_ne hvu]
      exact hct'
  · refine ⟨?_, fun u hu => absurd hu (by simp)⟩
    rw [hrule]
    exact Nat.le_refl _

/-! ## Blizzard: all rounds -/

/-- `total_rounds` counts every bump of a member, as often as the member lists
the output. -/
def RoundsInv (l : Ledger Nat) : Prop :=
  ∀ u ct, l.conflictSets u = some ct →
    ct.ctr = ((bumpedTxns l.history).map (mult l.txnPool u)).sum

theorem rounds_bump (h : Hash) (n m : Nat) : (blizzardRule.bump h)^[m] n = n + m := by
  induction m with
  | zero => rfl
  | succ m ih =>
    rw [Function.iterate_succ_apply', ih]
    rfl

theorem roundsInv_op {cfg : Config Nat} (hrule : cfg.rule = blizzardRule) {l l' : Ledger Nat}
    {op : Op} (hshape : LedgerInv cfg.ids l) (hcount : CountInv l) (hinv : RoundsInv l)
    (h : OpStep cfg l op l') : RoundsInv l' := by
  intro u ct' hct'
  rw [bumpedTxns_op h]
  cases effect_of_op h with
  | @record txn hnew hpool hconf hsets =>
    have hmap : (bumpedTxns l.history).map (mult l'.txnPool u) =
        (bumpedTxns l.history).map (mult l.txnPool u) := by
      apply List.map_congr_left
      intro x hx
      rw [hpool, mult_update]
      rintro rfl
      exact hcount.bumped _ hx hnew
    show ct'.ctr = ((bumpedTxns l.history ++ []).map (mult l'.txnPool u)).sum
    rw [List.append_nil, hmap]
    rcases hsets u ct' hct' with ⟨ct, hct, hctr, -⟩ | ⟨hnone, hctr⟩
    · rw [hctr]
      exact hinv u ct hct
    · -- a new set: no member has been recorded, let alone bumped
      rw [hctr, hrule]
      show 0 = _
      rw [eq_comm, List.sum_eq_zero_iff_forall_eq_nat]
      intro m hm
      obtain ⟨x, -, rfl⟩ := List.mem_map.mp hm
      by_contra hne
      obtain ⟨t, ht, hu⟩ := mult_pos (Nat.pos_of_ne_zero hne)
      obtain ⟨ct, hct⟩ := hshape.entered x t ht u hu
      rw [hnone] at hct
      exact absurd hct (by simp)
  | idle hop hpool hconf hsets =>
    rw [(bumpedTxns_idle hop).1, List.append_nil, hpool]
    exact hinv u ct' (hsets ▸ hct')
  | @bump slot x b n txn htxn hn hpool hconf hsets =>
    obtain ⟨ct, hct, -, hctr⟩ := hsets u ct' hct'
    rw [hrule, rounds_bump, hinv u ct hct, ← mult_some htxn u] at hctr
    show ct'.ctr = ((bumpedTxns l.history ++ [x]).map (mult l'.txnPool u)).sum
    rw [hpool, hctr]
    simp
  | @reset slot x txn reset htxn hreset hpool hconf hsets =>
    rw [hrule] at hreset
    exact absurd hreset (by simp [blizzardRule])

theorem LedgerRun.rounds {cfg : Config Nat} (hrule : cfg.rule = blizzardRule) {l : Ledger Nat}
    {ops : List Op} (h : LedgerRun cfg ops l) : RoundsInv l := by
  refine (h.counted_invariant RoundsInv ?_ ?_).2
  · intro u ct hct
    exact absurd hct (by simp [Ledger.new])
  · exact fun l op l' hs hc hr hstep => roundsInv_op hrule hs hc hr hstep

/-- Two members of a list each add to a sum of positive weights. -/
theorem count_add_count_le_sum {f : Hash → Nat} {a b : Hash} (hab : a ≠ b) (ha : 0 < f a)
    (hb : 0 < f b) (xs : List Hash) : xs.count a + xs.count b ≤ (xs.map f).sum := by
  induction xs with
  | nil => simp
  | cons x xs ih =>
    rw [List.count_cons, List.count_cons, List.map_cons, List.sum_cons]
    by_cases hxa : x = a
    · subst hxa
      simp [hab]
      omega
    · by_cases hxb : x = b
      · subst hxb
        simp [hxa]
        omega
      · simp [hxa, hxb]
        omega

/-- The subtraction in `handle_votes_helper` does not underflow. -/
theorem confidence_le_totalRounds {cfg : Config Nat} (hrule : cfg.rule = blizzardRule)
    {l : Ledger Nat} {ops : List Op} (h : LedgerRun cfg ops l) {x : Hash} {txn : AvalancheTxn}
    {u : Utxo} {n : Nat} {ct : ConflictSet Nat} (ht : l.txnPool x = some txn)
    (hu : u ∈ txn.utxos) (hn : l.confidence x = some n) (hct : l.conflictSets u = some ct) :
    n ≤ ct.ctr := by
  have hm : 0 < mult l.txnPool u x := by
    rw [mult_some ht]
    exact List.count_pos_iff.mpr hu
  rw [h.rounds hrule u ct hct, h.counts.conf x n hn]
  induction bumpedTxns l.history with
  | nil => simp
  | cons y ys ih =>
    rw [List.count_cons, List.map_cons, List.sum_cons]
    by_cases hyx : y = x
    · subst hyx
      simp
      omega
    · simp [hyx]
      omega

/-- The tally counts the rounds of every input that went to others. -/
theorem rounds_tally {cfg : Config Nat} (hrule : cfg.rule = blizzardRule) {fuel : Nat}
    {l : Ledger Nat} {h : Hash} {score : Nat} {us : List Utxo} {t : Tally Nat}
    (hf : us.foldlM (bumpInput cfg fuel l h score)
      ⟨l.conflictSets, l.preferenceCache, false, cfg.rule.start score⟩ = .ok t) :
    ∀ u ∈ us, ∀ ct, l.conflictSets u = some ct → ct.ctr + 1 - score ≤ t.count := by
  have hgo := foldlM_prefix (fun done (t : Tally Nat) => Bumped cfg l h score done t ∧
    ∀ u ∈ done, ∀ ct, l.conflictSets u = some ct → ct.ctr + 1 - score ≤ t.count) ?_
    ⟨Bumped.start cfg l h score, fun u hu => absurd hu (by simp)⟩ hf
  · exact hgo.2
  · rintro done t u t' ⟨hb, hall⟩ hstep
    refine ⟨hb.snoc hstep, fun v hv ct hct => ?_⟩
    obtain ⟨cur, pref, hcur, -, -, -, hcount⟩ := bumpInput_cases hstep
    rw [hrule] at hcount
    have hcount' : t'.count = t.count + (cur.ctr + 1 - score) := hcount
    by_cases hvu : v = u
    · subst hvu
      obtain ⟨ct₀, hct₀, -, hctr, -⟩ := hb.current hcur
      rw [hct, Option.some.injEq] at hct₀
      subst hct₀
      rw [hrule, rounds_bump] at hctr
      omega
    · have hvd : v ∈ done := by simpa [hvu] using hv
      have := hall v hvd ct hct
      omega

/-- The counter of a conflict set. -/
def roundsOf (sets : Utxo → Option (ConflictSet Nat)) (u : Utxo) : Nat :=
  ((sets u).map ConflictSet.ctr).getD 0

/-- The tally is at most the rounds of all inputs, as they stand after the
bump. -/
theorem rounds_tally_le {cfg : Config Nat} (hrule : cfg.rule = blizzardRule) {fuel : Nat}
    {l : Ledger Nat} {h : Hash} {score : Nat} {us : List Utxo} {t : Tally Nat}
    (hf : us.foldlM (bumpInput cfg fuel l h score)
      ⟨l.conflictSets, l.preferenceCache, false, cfg.rule.start score⟩ = .ok t) :
    t.count ≤ (us.map (roundsOf t.conflictSets)).sum := by
  have hgo := foldlM_prefix
    (fun done (t : Tally Nat) => t.count ≤ (done.map (roundsOf t.conflictSets)).sum) ?_ ?_ hf
  · exact hgo
  · intro done t u t' hle hstep
    obtain ⟨cur, pref, hcur, -, hsets, -, hcount⟩ := bumpInput_cases hstep
    rw [hrule] at hcount hsets
    have hcount : t'.count = t.count + (cur.ctr + 1 - score) := hcount
    have hself : roundsOf t'.conflictSets u = cur.ctr + 1 := by
      rw [roundsOf, hsets, Function.update_self]
      rfl
    have hgrow : ∀ v ∈ done, roundsOf t.conflictSets v ≤ roundsOf t'.conflictSets v := by
      intro v _
      by_cases hvu : v = u
      · rw [hvu, hself, roundsOf, hcur]
        exact Nat.le_succ cur.ctr
      · rw [roundsOf, roundsOf, hsets, Function.update_of_ne hvu]
    have hsum := List.sum_le_sum hgrow
    rw [List.map_append, List.sum_append, List.map_singleton, List.sum_singleton, hself]
    omega
  · rw [hrule]
    exact Nat.le_refl 0

/-- Rounds are never taken back. -/
theorem LedgerRun.rounds_le {cfg : Config Nat} (hrule : cfg.rule = blizzardRule)
    {l l' : Ledger Nat} {ops rest : List Op} (h : LedgerRun cfg ops l) (hrest : Ops cfg l rest l')
    {x : Hash} {txn : AvalancheTxn} (hx : l.txnPool x = some txn) {u : Utxo}
    (hu : u ∈ txn.utxos) : roundsOf l.conflictSets u ≤ roundsOf l'.conflictSets u := by
  have h' : LedgerRun cfg (ops ++ rest) l' := h.append hrest
  obtain ⟨ct, hct⟩ := h.inv.entered x txn hx u hu
  obtain ⟨ct', hct'⟩ := h'.inv.entered x txn (pool_ops hrest hx) u hu
  rw [roundsOf, roundsOf, hct, hct']
  show ct.ctr ≤ ct'.ctr
  rw [h.rounds hrule u ct hct, h'.rounds hrule u ct' hct', h.history, h'.history,
    bumpedTxns_append, List.map_append, List.sum_append]
  -- a bumped transaction was recorded, and stays what it is
  have hsame : (bumpedTxns ops).map (mult l.txnPool u) =
      (bumpedTxns ops).map (mult l'.txnPool u) := by
    refine List.map_congr_left fun y hy => ?_
    have hne := h.counts.bumped y (by rwa [h.history])
    obtain ⟨t, ht⟩ := Option.ne_none_iff_exists'.mp hne
    rw [mult_some ht, mult_some (pool_ops hrest ht)]
  rw [hsame]
  exact Nat.le_add_right _ _

/-- The sum of `beta` and `conflict_count` cannot leave the `u64`s: with all
rounds of all inputs counted against the transaction it is below `2 ^ 64`. -/
def Fits (cfg : Config Nat) (l : Ledger Nat) (txn : AvalancheTxn) : Prop :=
  max cfg.beta1.toNat cfg.beta2.toNat + (txn.utxos.map (roundsOf l.conflictSets)).sum < 2 ^ 64

instance (cfg : Config Nat) (l : Ledger Nat) (txn : AvalancheTxn) : Decidable (Fits cfg l txn) :=
  inferInstanceAs (Decidable (_ < _))

/-- Where the sum fits, the comparison is the one that was meant. -/
theorem blizzard_accepts {beta : UInt64} {score count : Nat}
    (hfits : beta.toNat + count < 2 ^ 64) :
    blizzardRule.accepts beta score count = true ↔ beta.toNat + count ≤ score := by
  have hsum : (beta + UInt64.ofNat count).toNat = beta.toNat + count := by
    rw [UInt64.toNat_add, UInt64.toNat_ofNat', Nat.add_mod_mod, Nat.mod_eq_of_lt hfits]
  show decide (score ≥ (beta + UInt64.ofNat count).toNat) = true ↔ _
  rw [decide_eq_true_iff, hsum]

end Copycat.Avalanche
