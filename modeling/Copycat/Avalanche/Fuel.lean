import Copycat.Avalanche.Runs

/-!
# The fuel is only a bound

The walks of the decision stage take fuel, and a step of the stage is one that
returns for some fuel. That leaves nothing open: more fuel changes no answer
(`stronglyPreferred_mono`, `bumpInput_mono`), so that an operation leads from a
ledger to one ledger only (`OpStep.unique`), and the operations made so far
determine the ledger (`LedgerRun.unique`). `makeOp` computes it.
-/

namespace Copycat.Avalanche

open Copycat.Lib

variable {C : Type} {cfg : Config C}

theorem allParents_mono {f g : PrefCache → Hash → Res (PrefCache × Bool)}
    (hfg : ∀ c p r, f c p = .ok r → g c p = .ok r) :
    ∀ {ps : List Hash} {c : PrefCache} {r : PrefCache × Bool},
      allParents f c ps = .ok r → allParents g c ps = .ok r := by
  intro ps
  induction ps with
  | nil => exact fun h => h
  | cons p ps ih =>
    intro c r h
    rw [allParents, bind_eq_ok] at h ⊢
    obtain ⟨⟨c₁, b⟩, hp, h⟩ := h
    refine ⟨(c₁, b), hfg c p _ hp, ?_⟩
    cases b with
    | true => exact ih h
    | false => exact h

/-- More fuel changes no answer. -/
theorem stronglyPreferred_mono {l : Ledger C} : ∀ {fuel fuel' : Nat} {c : PrefCache} {h : Hash}
    {r : PrefCache × Bool}, fuel ≤ fuel' → stronglyPreferred l fuel c h = .ok r →
    stronglyPreferred l fuel' c h = .ok r := by
  intro fuel
  induction fuel with
  | zero => exact fun _ h => absurd h (by simp [stronglyPreferred])
  | succ fuel ih =>
    intro fuel' c h r hle hs
    obtain ⟨fuel', rfl⟩ : ∃ f, fuel' = f + 1 := ⟨fuel' - 1, by omega⟩
    rw [stronglyPreferred] at hs ⊢
    cases hn : l.txnDag h with
    | none =>
      rw [hn] at hs
      exact hs
    | some node =>
      rw [hn] at hs
      dsimp only at hs ⊢
      cases hc : c h with
      | some b =>
        rw [hc] at hs
        exact hs
      | none =>
        rw [hc] at hs
        dsimp only at hs ⊢
        rw [bind_eq_ok] at hs ⊢
        obtain ⟨p, hp, hs⟩ := hs
        refine ⟨p, hp, ?_⟩
        rw [bind_eq_ok] at hs ⊢
        obtain ⟨⟨c₁, b⟩, hpar, hs⟩ := hs
        refine ⟨(c₁, b), ?_, hs⟩
        cases p with
        | true => exact allParents_mono (fun _ _ _ h => ih (by omega) h) hpar
        | false => exact hpar

/-- The same for the loop that invalidates the cache. -/
theorem invalidate_mono {dag : TxnDag} : ∀ {fuel fuel' : Nat} {cache cache' : PrefCache}
    {frontier : List Hash}, fuel ≤ fuel' → invalidate dag fuel cache frontier = .ok cache' →
    invalidate dag fuel' cache frontier = .ok cache' := by
  intro fuel
  induction fuel with
  | zero =>
    intro fuel' cache cache' frontier _ h
    cases frontier with
    | nil =>
      rw [invalidate] at h ⊢
      exact h
    | cons txn rest => exact absurd h (by simp [invalidate])
  | succ fuel ih =>
    intro fuel' cache cache' frontier hle h
    cases frontier with
    | nil =>
      rw [invalidate] at h ⊢
      exact h
    | cons txn rest =>
      obtain ⟨fuel', rfl⟩ : ∃ f, fuel' = f + 1 := ⟨fuel' - 1, by omega⟩
      rw [invalidate] at h ⊢
      cases hn : dag txn with
      | none =>
        rw [hn] at h
        exact ih (by omega) h
      | some node =>
        rw [hn] at h
        exact ih (by omega) h

theorem switchPref_mono {fuel fuel' : Nat} (hle : fuel ≤ fuel') {l : Ledger C} {h : Hash}
    {score : Nat} {cache : PrefCache} {ct : ConflictSet C} {r : ConflictSet C × PrefCache}
    (hs : switchPref fuel l h score cache ct = .ok r) :
    switchPref fuel' l h score cache ct = .ok r := by
  unfold switchPref at hs ⊢
  by_cases hp : ct.pref = h
  · rw [if_pos hp] at hs ⊢
    exact hs
  rw [if_neg hp] at hs ⊢
  rw [bind_eq_ok] at hs ⊢
  obtain ⟨n, hn, hs⟩ := hs
  refine ⟨n, hn, ?_⟩
  by_cases hlt : n < score
  · rw [if_pos hlt] at hs ⊢
    dsimp only at hs ⊢
    rw [bind_eq_ok] at hs ⊢
    obtain ⟨c, hc, hs⟩ := hs
    exact ⟨c, invalidate_mono hle hc, hs⟩
  · rw [if_neg hlt] at hs ⊢
    exact hs

theorem bumpInput_mono {fuel fuel' : Nat} (hle : fuel ≤ fuel') {l : Ledger C} {h : Hash}
    {score : Nat} {t t' : Tally C} {u : Utxo}
    (hb : bumpInput cfg fuel l h score t u = .ok t') :
    bumpInput cfg fuel' l h score t u = .ok t' := by
  unfold bumpInput at hb ⊢
  rw [bind_eq_ok] at hb ⊢
  obtain ⟨ct, hct, hb⟩ := hb
  refine ⟨ct, hct, ?_⟩
  rw [bind_eq_ok] at hb ⊢
  obtain ⟨r, hr, hb⟩ := hb
  exact ⟨r, switchPref_mono hle hr, hb⟩

/-- Two loops over the inputs that return have done the same. -/
theorem bumpInputs_unique {fuel fuel' : Nat} {l : Ledger C} {h : Hash} {score : Nat}
    {us : List Utxo} {t t₁ t₂ : Tally C}
    (h₁ : us.foldlM (bumpInput cfg fuel l h score) t = .ok t₁)
    (h₂ : us.foldlM (bumpInput cfg fuel' l h score) t = .ok t₂) : t₁ = t₂ := by
  have hmono : ∀ f, f ≤ max fuel fuel' → ∀ {r}, us.foldlM (bumpInput cfg f l h score) t = .ok r →
      us.foldlM (bumpInput cfg (max fuel fuel') l h score) t = .ok r :=
    fun f hle _ => foldlM_mono fun _ _ _ => bumpInput_mono hle
  have he := (hmono fuel (Nat.le_max_left ..) h₁).symm.trans (hmono fuel' (Nat.le_max_right ..) h₂)
  exact Except.ok.inj he

/-- An operation leads to one ledger. -/
theorem OpStep.unique {l l₁ l₂ : Ledger C} {op : Op} (h₁ : OpStep cfg l op l₁)
    (h₂ : OpStep cfg l op l₂) : l₁ = l₂ := by
  cases h₁ with
  | record => cases h₂; rfl
  | ask => cases h₂; rfl
  | accept => cases h₂; rfl
  | @check _ fuel _ _ hs =>
    cases h₂ with
    | @check _ fuel' _ _ hs' =>
      obtain ⟨c, hc, rfl⟩ := isStronglyPreferred_cases hs
      obtain ⟨c', hc', rfl⟩ := isStronglyPreferred_cases hs'
      have he := (stronglyPreferred_mono (Nat.le_max_left fuel fuel') hc).symm.trans
        (stronglyPreferred_mono (Nat.le_max_right fuel fuel') hc')
      rw [(Prod.mk.inj (Except.ok.inj he)).1]
  | bump _ hb =>
    cases h₂ with
    | bump _ hb' =>
      obtain ⟨n, txn, t, hn, htxn, -, ht, -, rfl, -⟩ := bump_spec hb
      obtain ⟨n', txn', t', hn', htxn', -, ht', -, rfl, -⟩ := bump_spec hb'
      obtain rfl := Option.some.inj (hn.symm.trans hn')
      obtain rfl := Option.some.inj (htxn.symm.trans htxn')
      rw [bumpInputs_unique ht ht']
  | reset hrule _ hr =>
    cases h₂ with
    | reset hrule' _ hr' =>
      obtain rfl := Option.some.inj (hrule.symm.trans hrule')
      exact Except.ok.inj (hr.symm.trans hr')

/-- The operations made so far determine the ledger. -/
theorem LedgerRun.unique {ops : List Op} {l l' : Ledger C} (h : LedgerRun cfg ops l)
    (h' : LedgerRun cfg ops l') : l = l' := by
  induction h generalizing l' with
  | nil => exact h'.nil_inv.symm
  | snoc _ _ hs ih =>
    obtain ⟨l₀, hrun, -, hs'⟩ := Machine.Run.snoc_inv _ h'
    obtain rfl := ih hrun
    exact hs.unique hs'

/-! ## Making the operations -/

/-- Make an operation, if it is one that can be made. -/
def makeOp (cfg : Config C) (fuel : Nat) (l : Ledger C) : Op → Option (Op × Ledger C)
  | .record txn =>
    if l.txnPool (cfg.ids.txnId txn) = none ∧ txn ≠ .placeHolder then
      some (.record txn, recordTxn cfg l txn)
    else none
  | .check h => (isStronglyPreferred fuel l h).toOption.map fun r => (.check h, r.1)
  | .ask slot h n =>
    some (.ask slot h n, { l with history := l.history ++ [.ask slot h n] })
  | .bump slot h b =>
    (l.txnDag h).bind fun node => (bump cfg slot fuel l h node).toOption.bind fun r =>
      if r.2 = b then some (.bump slot h b, r.1) else none
  | .accept h =>
    match l.history.getLast? with
    | some (.bump _ h' true) =>
      if h' = h ∧ l.txnDag h ≠ none then some (.accept h, acceptTxn l h) else none
    | _ => none
  | .reset slot h =>
    cfg.rule.reset.bind fun reset =>
      if l.txnDag h ≠ none then
        (resetTxn reset slot l h).toOption.map fun l' => (.reset slot h, l')
      else none

theorem makeOp_step {fuel : Nat} {l l' : Ledger C} {op op' : Op}
    (h : makeOp cfg fuel l op = some (op', l')) : OpStep cfg l op' l' := by
  cases op with
  | record txn =>
    rw [makeOp] at h
    split at h
    · next hnew =>
      cases h
      exact .record hnew.1 hnew.2
    · exact absurd h (by simp)
  | check x =>
    obtain ⟨r, hr, he⟩ := Option.map_eq_some_iff.mp h
    cases he
    exact .check (toOption_eq_some.mp hr)
  | ask slot x n =>
    cases h
    exact .ask
  | bump slot x b =>
    obtain ⟨node, hn, h⟩ := Option.bind_eq_some_iff.mp h
    obtain ⟨r, hr, h⟩ := Option.bind_eq_some_iff.mp h
    split at h
    · next hb =>
      cases h
      subst hb
      exact .bump hn (toOption_eq_some.mp hr)
    · exact absurd h (by simp)
  | accept x =>
    rw [makeOp] at h
    split at h
    · next slot x' hlast =>
      split at h
      · next hx =>
        obtain ⟨rfl, hdag⟩ := hx
        cases h
        exact .accept hdag hlast
      · exact absurd h (by simp)
    · exact absurd h (by simp)
  | reset slot x =>
    obtain ⟨reset, hrule, h⟩ := Option.bind_eq_some_iff.mp h
    split at h
    · next hdag =>
      obtain ⟨l₁, hr, he⟩ := Option.map_eq_some_iff.mp h
      cases he
      exact .reset hrule hdag (toOption_eq_some.mp hr)
    · exact absurd h (by simp)

end Copycat.Avalanche
