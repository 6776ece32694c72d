import Copycat.Avalanche.Decision
import Copycat.Lib.Walk

/-!
# What each operation does to the ledger

Every change the decision stage makes to its ledger is one of six operations.
`OpStep` says which, and `ledger` is the machine that makes them: whatever holds
along its runs holds at every moment of every run of the stage, in the middle
of a call too. This module says once what each operation does, in closed form
(`recordTxn_dag`, `recordTxn_sets`, `Bumped`, `resetTxn_spec`), and proves the
shape of the ledger, `LedgerInv`, from that.
-/

namespace Copycat.Avalanche

open Copycat.Lib

variable {C : Type} {cfg : Config C}

/-- The parents of a transaction that is in the DAG. -/
def up (dag : TxnDag) (h : Hash) : List Hash :=
  ((dag h).map DagNode.parents).getD []

/-- The children the DAG knows for a transaction. -/
def down (dag : TxnDag) (h : Hash) : List Hash :=
  ((dag h).map DagNode.children).getD []

theorem up_some {dag : TxnDag} {h : Hash} {node : DagNode} (hn : dag h = some node) :
    up dag h = node.parents := by
  simp [up, hn]

theorem down_some {dag : TxnDag} {h : Hash} {node : DagNode} (hn : dag h = some node) :
    down dag h = node.children := by
  simp [down, hn]

/-- One operation. An acceptance follows the bump that decided it. -/
inductive OpStep (cfg : Config C) : Ledger C → Op → Ledger C → Prop
  | record {l : Ledger C} {txn : AvalancheTxn} :
      l.txnPool (cfg.ids.txnId txn) = none → txn ≠ .placeHolder →
      OpStep cfg l (.record txn) (recordTxn cfg l txn)
  | check {l l' : Ledger C} {fuel : Nat} {h : Hash} {b : Bool} :
      isStronglyPreferred fuel l h = .ok (l', b) → OpStep cfg l (.check h) l'
  | ask {l : Ledger C} {slot : Slot} {h : Hash} {n : Nat} :
      OpStep cfg l (.ask slot h n) { l with history := l.history ++ [.ask slot h n] }
  | bump {l l' : Ledger C} {slot : Slot} {fuel : Nat} {h : Hash} {node : DagNode} {b : Bool} :
      l.txnDag h = some node → bump cfg slot fuel l h node = .ok (l', b) →
      OpStep cfg l (.bump slot h b) l'
  | accept {l : Ledger C} {slot : Slot} {h : Hash} :
      l.txnDag h ≠ none → l.history.getLast? = some (.bump slot h true) →
      OpStep cfg l (.accept h) (acceptTxn l h)
  | reset {l l' : Ledger C} {reset : C → C} {slot : Slot} {h : Hash} :
      cfg.rule.reset = some reset → l.txnDag h ≠ none →
      resetTxn reset slot l h = .ok l' → OpStep cfg l (.reset slot h) l'

/-- The ledger as a machine. -/
def ledger (cfg : Config C) : Machine (Ledger C) Op where
  start := Ledger.new C
  step := OpStep cfg

/-- The operations that lead from one ledger to another. -/
abbrev Ops (cfg : Config C) (l : Ledger C) (ops : List Op) (l' : Ledger C) : Prop :=
  (ledger cfg).Path (fun _ _ => True) l ops l'

/-! ## Recording -/

/-- The children of every parent grow by the new transaction. -/
theorem addChild_foldl (child : Hash) (parents : List Hash) :
    ∀ (dag : TxnDag) (x : Hash), parents.foldl (addChild child) dag x =
      (dag x).map fun node =>
        ⟨node.parents, node.children ++ List.replicate (parents.count x) child⟩ := by
  induction parents with
  | nil =>
    intro dag x
    cases h : dag x with
    | none => simp [h]
    | some node => simp [h]
  | cons p parents ih =>
    intro dag x
    rw [List.foldl_cons, ih]
    unfold addChild
    cases hp : dag p with
    | none =>
      by_cases hx : x = p
      · subst hx
        simp [hp]
      · simp [Ne.symm hx]
    | some node =>
      by_cases hx : x = p
      · subst hx
        simp [hp, List.replicate_succ]
      · simp [hx, Ne.symm hx]

theorem recordTxn_pool_self (cfg : Config C) (l : Ledger C) (txn : AvalancheTxn) :
    (recordTxn cfg l txn).txnPool (cfg.ids.txnId txn) = some txn :=
  Function.update_self ..

theorem recordTxn_pool_ne (l : Ledger C) {txn : AvalancheTxn} {x : Hash}
    (hx : x ≠ cfg.ids.txnId txn) : (recordTxn cfg l txn).txnPool x = l.txnPool x :=
  Function.update_of_ne hx ..

theorem recordTxn_pool_mono {l : Ledger C} {txn t : AvalancheTxn} {x : Hash}
    (hnew : l.txnPool (cfg.ids.txnId txn) = none) (hx : l.txnPool x = some t) :
    (recordTxn cfg l txn).txnPool x = some t := by
  have hne : x ≠ cfg.ids.txnId txn := by
    rintro rfl
    rw [hnew] at hx
    exact absurd hx (by simp)
  rw [recordTxn_pool_ne l hne, hx]

theorem recordTxn_pool_cases {l : Ledger C} {txn t : AvalancheTxn} {x : Hash}
    (hx : (recordTxn cfg l txn).txnPool x = some t) :
    (x = cfg.ids.txnId txn ∧ t = txn) ∨ (x ≠ cfg.ids.txnId txn ∧ l.txnPool x = some t) := by
  by_cases hxh : x = cfg.ids.txnId txn
  · rw [hxh, recordTxn_pool_self, Option.some.injEq] at hx
    exact Or.inl ⟨hxh, hx.symm⟩
  · rw [recordTxn_pool_ne l hxh] at hx
    exact Or.inr ⟨hxh, hx⟩

theorem recordTxn_dag (cfg : Config C) (l : Ledger C) (txn : AvalancheTxn) (x : Hash) :
    (recordTxn cfg l txn).txnDag x =
      (Function.update l.txnDag (cfg.ids.txnId txn) (some ⟨txn.parents, []⟩) x).map fun node =>
        ⟨node.parents,
          node.children ++ List.replicate (txn.parents.count x) (cfg.ids.txnId txn)⟩ :=
  addChild_foldl _ _ _ _

/-- What entering a list of conflict sets does to one of them. -/
theorem openSet_foldl (rule : VoteRule C) (h : Hash) (us : List Utxo) :
    ∀ (sets : Utxo → Option (ConflictSet C)) (u : Utxo), us.foldl (openSet rule h) sets u =
      if u ∈ us then
        match sets u with
        | none => some ⟨decide (2 ≤ us.count u), h, rule.fresh⟩
        | some ct => some { ct with hasConflicts := true }
      else sets u := by
  induction us with
  | nil => intro sets u; simp
  | cons v us ih =>
    intro sets u
    rw [List.foldl_cons, ih]
    unfold openSet
    by_cases hu : u = v
    · subst hu
      cases hs : sets u with
      | none =>
        by_cases hmem : u ∈ us
        · have : 0 < us.count u := List.count_pos_iff.mpr hmem
          simp [hmem]
        · simp [hmem, List.count_eq_zero_of_not_mem hmem]
      | some ct => simp
    · cases hs : sets v with
      | none => simp [hu, Ne.symm hu]
      | some ct => simp [hu, Ne.symm hu]

theorem recordTxn_sets (cfg : Config C) (l : Ledger C) (txn : AvalancheTxn) (u : Utxo) :
    (recordTxn cfg l txn).conflictSets u =
      if u ∈ txn.utxos then
        match l.conflictSets u with
        | none => some ⟨decide (2 ≤ txn.utxos.count u), cfg.ids.txnId txn, cfg.rule.fresh⟩
        | some ct => some { ct with hasConflicts := true }
      else l.conflictSets u :=
  openSet_foldl _ _ _ _ _

/-! ## A successful query -/

/-- The cache after everything below `h` has been invalidated. -/
def Invalidated (dag : TxnDag) (h : Hash) (cache cache' : PrefCache) : Prop :=
  ∀ x, (Reach (down dag) h x → cache' x = none) ∧ (¬ Reach (down dag) h x → cache' x = cache x)

theorem invalidate_spec {dag : TxnDag} : ∀ {fuel : Nat} {cache cache' : PrefCache}
    {frontier : List Hash}, invalidate dag fuel cache frontier = .ok cache' →
      ∀ x, ((∃ a ∈ frontier, Reach (down dag) a x) → cache' x = none) ∧
        ((∀ a ∈ frontier, ¬ Reach (down dag) a x) → cache' x = cache x) := by
  intro fuel
  induction fuel with
  | zero =>
    intro cache cache' frontier h x
    cases frontier with
    | nil =>
      rw [invalidate, Except.ok.injEq] at h
      subst h
      exact ⟨fun ⟨a, ha, _⟩ => absurd ha (by simp), fun _ => rfl⟩
    | cons a rest => exact absurd h (by simp [invalidate])
  | succ fuel ih =>
    intro cache cache' frontier h x
    cases frontier with
    | nil =>
      rw [invalidate, Except.ok.injEq] at h
      subst h
      exact ⟨fun ⟨a, ha, _⟩ => absurd ha (by simp), fun _ => rfl⟩
    | cons a rest =>
      -- one round: `a` is taken off, its children go to the back
      have hround : invalidate dag fuel (Function.update cache a none) (rest ++ down dag a) =
          .ok cache' := by
        rw [invalidate] at h
        cases hn : dag a with
        | none => simpa [hn, down] using h
        | some node => simpa [hn, down] using h
      obtain ⟨hin, hout⟩ := ih hround x
      refine ⟨fun ⟨b, hb, hbx⟩ => ?_, fun hno => ?_⟩
      · by_cases hany : ∃ c ∈ rest ++ down dag a, Reach (down dag) c x
        · exact hin hany
        · push Not at hany
          rw [hout hany]
          rcases List.mem_cons.mp hb with rfl | hb
          · rcases hbx.head_cases with rfl | ⟨c, hc, hcx⟩
            · exact Function.update_self ..
            · exact absurd hcx (hany c (List.mem_append_right _ hc))
          · exact absurd hbx (hany b (List.mem_append_left _ hb))
      · have hxa : x ≠ a := fun hxa => hno a (by simp) (hxa ▸ Reach.refl x)
        rw [hout, Function.update_of_ne hxa]
        intro c hc
        rcases List.mem_append.mp hc with hc | hc
        · exact hno c (List.mem_cons_of_mem _ hc)
        · exact fun hcx => hno a (by simp) (Reach.head hc hcx)

/-- The preferred transaction `pref` has less confidence than `h` has now. -/
def Overtakes (l : Ledger C) (h : Hash) (score : Nat) (pref : Hash) : Prop :=
  pref ≠ h ∧ ∃ n, l.confidence pref = some n ∧ n < score

theorem switchPref_cases {fuel : Nat} {l : Ledger C} {h : Hash} {score : Nat}
    {cache cache' : PrefCache} {ct ct' : ConflictSet C}
    (hs : switchPref fuel l h score cache ct = .ok (ct', cache')) :
    (Overtakes l h score ct.pref ∧ ct' = { ct with pref := h } ∧
      Invalidated l.txnDag h cache cache') ∨
    (¬ Overtakes l h score ct.pref ∧ ct' = ct ∧ cache' = cache) := by
  unfold switchPref at hs
  by_cases hpref : ct.pref = h
  · rw [if_pos hpref] at hs
    simp only [Except.ok.injEq, Prod.mk.injEq] at hs
    exact Or.inr ⟨fun ho => ho.1 hpref, hs.1.symm, hs.2.symm⟩
  · rw [if_neg hpref, bind_eq_ok] at hs
    obtain ⟨n, hn, hs⟩ := hs
    rw [unwrap_eq_ok] at hn
    by_cases hlt : n < score
    · rw [if_pos hlt, bind_eq_ok] at hs
      obtain ⟨cache₁, hinv, hs⟩ := hs
      simp only [Except.ok.injEq, Prod.mk.injEq] at hs
      obtain ⟨rfl, rfl⟩ := hs
      refine Or.inl ⟨⟨hpref, n, hn, hlt⟩, rfl, fun x => ?_⟩
      obtain ⟨hin, hout⟩ := invalidate_spec hinv x
      exact ⟨fun hx => hin ⟨h, by simp, hx⟩, fun hx => hout (by simpa using hx)⟩
    · rw [if_neg hlt] at hs
      simp only [Except.ok.injEq, Prod.mk.injEq] at hs
      refine Or.inr ⟨fun ⟨_, m, hm, hml⟩ => ?_, hs.1.symm, hs.2.symm⟩
      rw [hn, Option.some.injEq] at hm
      omega

/-- One input: the preference may change hands, the counter moves on. -/
theorem bumpInput_cases {fuel : Nat} {l : Ledger C} {h : Hash} {score : Nat} {t t' : Tally C}
    {u : Utxo} (hb : bumpInput cfg fuel l h score t u = .ok t') :
    ∃ ct pref, t.conflictSets u = some ct ∧
      ((Overtakes l h score ct.pref ∧ pref = h ∧
          Invalidated l.txnDag h t.preferenceCache t'.preferenceCache) ∨
        (¬ Overtakes l h score ct.pref ∧ pref = ct.pref ∧
          t'.preferenceCache = t.preferenceCache)) ∧
      t'.conflictSets = Function.update t.conflictSets u
        (some ⟨ct.hasConflicts, pref, cfg.rule.bump h ct.ctr⟩) ∧
      t'.hasConflicts = (t.hasConflicts || ct.hasConflicts) ∧
      t'.count = cfg.rule.tally score (cfg.rule.bump h ct.ctr) t.count := by
  unfold bumpInput at hb
  rw [bind_eq_ok] at hb
  obtain ⟨ct, hct, hb⟩ := hb
  rw [bind_eq_ok] at hb
  obtain ⟨⟨ct', cache⟩, hsw, hb⟩ := hb
  rw [unwrap_eq_ok] at hct
  simp only [Except.ok.injEq] at hb
  subst hb
  rcases switchPref_cases hsw with ⟨ho, rfl, hinv⟩ | ⟨ho, rfl, rfl⟩
  · exact ⟨ct, h, hct, Or.inl ⟨ho, rfl, hinv⟩, rfl, rfl, rfl⟩
  · exact ⟨ct', ct'.pref, hct, Or.inr ⟨ho, rfl, rfl⟩, rfl, rfl, rfl⟩

/-- The state of the loop over the inputs once `us` are done. -/
structure Bumped (cfg : Config C) (l : Ledger C) (h : Hash) (score : Nat) (us : List Utxo)
    (t : Tally C) : Prop where
  off : ∀ u, u ∉ us → t.conflictSets u = l.conflictSets u
  on : ∀ u ∈ us, ∃ ct pref, l.conflictSets u = some ct ∧
    t.conflictSets u = some ⟨ct.hasConflicts, pref, (cfg.rule.bump h)^[us.count u] ct.ctr⟩ ∧
    (Overtakes l h score ct.pref → pref = h) ∧ (¬ Overtakes l h score ct.pref → pref = ct.pref)
  kept : (∀ u ∈ us, ∀ ct, l.conflictSets u = some ct → ¬ Overtakes l h score ct.pref) →
    t.preferenceCache = l.preferenceCache
  dropped : (∃ u ∈ us, ∃ ct, l.conflictSets u = some ct ∧ Overtakes l h score ct.pref) →
    Invalidated l.txnDag h l.preferenceCache t.preferenceCache
  conflicts : t.hasConflicts = true ↔
    ∃ u ∈ us, ∃ ct, l.conflictSets u = some ct ∧ ct.hasConflicts = true

/-- Invalidating twice is invalidating once. -/
theorem Invalidated.again {dag : TxnDag} {h : Hash} {c c₁ c₂ : PrefCache}
    (h₁ : Invalidated dag h c c₁) (h₂ : Invalidated dag h c₁ c₂) : Invalidated dag h c c₂ := by
  intro x
  exact ⟨(h₂ x).1, fun hx => by rw [(h₂ x).2 hx, (h₁ x).2 hx]⟩

theorem Bumped.start (cfg : Config C) (l : Ledger C) (h : Hash) (score : Nat) :
    Bumped cfg l h score []
      ⟨l.conflictSets, l.preferenceCache, false, cfg.rule.start score⟩ := by
  refine ⟨fun _ _ => rfl, fun u hu => absurd hu (by simp), fun _ => rfl, ?_, ?_⟩
  · rintro ⟨u, hu, -⟩
    exact absurd hu (by simp)
  · simp

/-- The conflict set the loop finds at an input is the one it started with, up
to what it has done there itself. -/
theorem Bumped.current {l : Ledger C} {h : Hash} {score : Nat} {us : List Utxo} {t : Tally C}
    (hb : Bumped cfg l h score us t) {u : Utxo} {cur : ConflictSet C}
    (hcur : t.conflictSets u = some cur) :
    ∃ ct, l.conflictSets u = some ct ∧ cur.hasConflicts = ct.hasConflicts ∧
      cur.ctr = (cfg.rule.bump h)^[us.count u] ct.ctr ∧
      (u ∉ us → cur = ct) ∧
      (u ∈ us → ¬ Overtakes l h score cur.pref ∧
        (Overtakes l h score ct.pref → cur.pref = h) ∧
        (¬ Overtakes l h score ct.pref → cur.pref = ct.pref)) := by
  by_cases hu : u ∈ us
  · obtain ⟨ct, pref, hct, ht, hyes, hno⟩ := hb.on u hu
    rw [hcur, Option.some.injEq] at ht
    subst ht
    refine ⟨ct, hct, rfl, rfl, fun h => absurd hu h, fun _ => ⟨?_, hyes, hno⟩⟩
    by_cases ho : Overtakes l h score ct.pref
    · rw [hyes ho]
      exact fun hh => hh.1 rfl
    · rw [hno ho]
      exact ho
  · rw [hb.off u hu] at hcur
    exact ⟨cur, hcur, rfl, by rw [List.count_eq_zero_of_not_mem hu]; rfl, fun _ => rfl,
      fun h => absurd h hu⟩

/-- One more input. -/
theorem Bumped.snoc {fuel : Nat} {l : Ledger C} {h : Hash} {score : Nat} {us : List Utxo}
    {t t' : Tally C} {u : Utxo} (hb : Bumped cfg l h score us t)
    (hstep : bumpInput cfg fuel l h score t u = .ok t') :
    Bumped cfg l h score (us ++ [u]) t' := by
  obtain ⟨cur, pref, hcur, hpref, hsets, hconf, -⟩ := bumpInput_cases hstep
  obtain ⟨ct, hct, hhas, hctr, hnew, hold⟩ := hb.current hcur
  refine ⟨?_, ?_, ?_, ?_, ?_⟩
  · intro v hv
    have hvu : v ≠ u := fun he => hv (by simp [he])
    rw [hsets, Function.update_of_ne hvu]
    exact hb.off v fun hv' => hv (List.mem_append_left _ hv')
  · intro v hv
    by_cases hvu : v = u
    · subst hvu
      refine ⟨ct, pref, hct, ?_, ?_⟩
      · rw [hsets, Function.update_self, List.count_append, List.count_singleton_self,
          Function.iterate_succ_apply', hhas, hctr]
      · by_cases hvs : v ∈ us
        · obtain ⟨hnot, hyes, hno⟩ := hold hvs
          rcases hpref with ⟨ho, -⟩ | ⟨-, rfl, -⟩
          · exact absurd ho hnot
          · exact ⟨hyes, hno⟩
        · rw [← hnew hvs]
          rcases hpref with ⟨ho, rfl, -⟩ | ⟨ho, rfl, -⟩
          · exact ⟨fun _ => rfl, fun hn => absurd ho hn⟩
          · exact ⟨fun hn => absurd hn ho, fun _ => rfl⟩
    · have hvs : v ∈ us := by simpa [hvu] using hv
      obtain ⟨ct', pref', hct', ht', himp⟩ := hb.on v hvs
      refine ⟨ct', pref', hct', ?_, himp⟩
      rw [hsets, Function.update_of_ne hvu, ht', List.count_append,
        List.count_singleton, if_neg (by simpa using Ne.symm hvu), Nat.add_zero]
  · intro hall
    have hus : t.preferenceCache = l.preferenceCache :=
      hb.kept fun v hv => hall v (List.mem_append_left _ hv)
    rcases hpref with ⟨ho, -⟩ | ⟨-, -, hcache⟩
    · exfalso
      by_cases hu : u ∈ us
      · exact (hold hu).1 ho
      · exact hall u (by simp) ct hct (hnew hu ▸ ho)
    · rw [hcache, hus]
  · rintro ⟨v, hv, ct', hct', ho'⟩
    by_cases hex : ∃ v ∈ us, ∃ ct, l.conflictSets v = some ct ∧ Overtakes l h score ct.pref
    · have hinv := hb.dropped hex
      rcases hpref with ⟨-, -, hinv'⟩ | ⟨-, -, hcache⟩
      · exact hinv.again hinv'
      · rw [hcache]
        exact hinv
    · -- this is the first input at which the preference changes hands
      have hus : t.preferenceCache = l.preferenceCache :=
        hb.kept fun w hw ct hct ho => hex ⟨w, hw, ct, hct, ho⟩
      have hvs : v ∉ us := fun hvs => hex ⟨v, hvs, ct', hct', ho'⟩
      have hvu : v = u := by simpa [hvs] using hv
      subst hvu
      rw [hct', Option.some.injEq] at hct
      subst hct
      rw [← hnew hvs] at ho'
      rcases hpref with ⟨-, -, hinv⟩ | ⟨ho, -, -⟩
      · rwa [hus] at hinv
      · exact absurd ho' ho
  · rw [hconf, Bool.or_eq_true, hb.conflicts]
    constructor
    · rintro (⟨v, hv, hc⟩ | hc)
      · exact ⟨v, List.mem_append_left _ hv, hc⟩
      · exact ⟨u, by simp, ct, hct, hhas ▸ hc⟩
    · rintro ⟨v, hv, ct', hct', hc⟩
      rcases List.mem_append.mp hv with hv | hv
      · exact Or.inl ⟨v, hv, ct', hct', hc⟩
      · rw [List.mem_singleton] at hv
        subst hv
        rw [hct', Option.some.injEq] at hct
        subst hct
        exact Or.inr (hhas ▸ hc)

/-- The ledger in which the inputs are looked at: the confidence has grown. -/
def raised (l : Ledger C) (h : Hash) (score : Nat) : Ledger C :=
  { l with confidence := Function.update l.confidence h (some score) }

theorem overtakes_raised {l : Ledger C} {h pref : Hash} {score : Nat} :
    Overtakes (raised l h score) h score pref ↔ Overtakes l h score pref := by
  have hconf : pref ≠ h → (raised l h score).confidence pref = l.confidence pref :=
    fun hne => Function.update_of_ne hne ..
  unfold Overtakes
  constructor
  · rintro ⟨hne, hn⟩
    exact ⟨hne, hconf hne ▸ hn⟩
  · rintro ⟨hne, hn⟩
    exact ⟨hne, (hconf hne).symm ▸ hn⟩

/-- **What a bump does.** -/
theorem bump_spec {slot : Slot} {fuel : Nat} {l l' : Ledger C} {h : Hash} {node : DagNode}
    {b : Bool} (hb : bump cfg slot fuel l h node = .ok (l', b)) :
    ∃ n txn t, l.confidence h = some n ∧ l.txnPool h = some txn ∧ txn ≠ .placeHolder ∧
      txn.utxos.foldlM (bumpInput cfg fuel (raised l h (n + 1)) h (n + 1))
        ⟨l.conflictSets, l.preferenceCache, false, cfg.rule.start (n + 1)⟩ = .ok t ∧
      Bumped cfg (raised l h (n + 1)) h (n + 1) txn.utxos t ∧
      l' = { raised l h (n + 1) with
        conflictSets := t.conflictSets
        preferenceCache := t.preferenceCache
        history := l.history ++ [.bump slot h b] } ∧
      b = if (node.parents.all fun p => (l.txnDag p).isNone) && !t.hasConflicts then
        cfg.rule.accepts cfg.beta1 (n + 1) t.count
      else cfg.rule.accepts cfg.beta2 (n + 1) t.count := by
  unfold bump at hb
  rw [bind_eq_ok] at hb
  obtain ⟨n, hn, hb⟩ := hb
  dsimp only at hb
  rw [bind_eq_ok] at hb
  obtain ⟨txn, htxn, hb⟩ := hb
  rw [unwrap_eq_ok] at hn htxn
  have hph : txn ≠ .placeHolder := by
    rintro rfl
    exact absurd hb (by simp)
  have hb' : (txn.utxos.foldlM (bumpInput cfg fuel (raised l h (n + 1)) h (n + 1))
      ⟨l.conflictSets, l.preferenceCache, false, cfg.rule.start (n + 1)⟩ >>= fun t =>
    let isAccepted :=
      if (node.parents.all fun p => (l.txnDag p).isNone) && !t.hasConflicts then
        cfg.rule.accepts cfg.beta1 (n + 1) t.count
      else cfg.rule.accepts cfg.beta2 (n + 1) t.count
    .ok (({ raised l h (n + 1) with
        conflictSets := t.conflictSets
        preferenceCache := t.preferenceCache
        history := l.history ++ [.bump slot h isAccepted] } : Ledger C), isAccepted)) =
      .ok (l', b) := by
    cases txn with
    | placeHolder => exact absurd rfl hph
    | send => exact hb
    | grant => exact hb
    | noop => exact hb
  rw [bind_eq_ok] at hb'
  obtain ⟨t, ht, hb'⟩ := hb'
  simp only [Except.ok.injEq, Prod.mk.injEq] at hb'
  obtain ⟨hl', hbb⟩ := hb'
  refine ⟨n, txn, t, hn, htxn, hph, ht, ?_, ?_, hbb.symm⟩
  · exact foldlM_prefix (Bumped cfg (raised l h (n + 1)) h (n + 1))
      (fun _ _ _ _ hd hs => hd.snoc hs) (Bumped.start cfg (raised l h (n + 1)) h (n + 1)) ht
  · rw [← hl', hbb]

/-! ## A failed query -/

theorem resetTxn_spec {reset : C → C} {slot : Slot} {l l' : Ledger C} {h : Hash}
    (hr : resetTxn reset slot l h = .ok l') :
    ∃ txn sets, l.txnPool h = some txn ∧
      l' = { l with conflictSets := sets, history := l.history ++ [.reset slot h] } ∧
      ∀ u, sets u = (l.conflictSets u).map fun ct =>
        { ct with ctr := reset^[txn.utxos.count u] ct.ctr } := by
  unfold resetTxn at hr
  rw [bind_eq_ok] at hr
  obtain ⟨txn, htxn, hr⟩ := hr
  rw [bind_eq_ok] at hr
  obtain ⟨sets, hsets, hr⟩ := hr
  rw [unwrap_eq_ok] at htxn
  rw [Except.ok.injEq] at hr
  refine ⟨txn, sets, htxn, hr.symm, ?_⟩
  refine foldlM_prefix (fun us sets => ∀ u, sets u = (l.conflictSets u).map fun ct =>
    { ct with ctr := reset^[us.count u] ct.ctr }) ?_ ?_ hsets
  · intro us sets v sets' hinv hstep u
    rw [bind_eq_ok] at hstep
    obtain ⟨ct, hct, hstep⟩ := hstep
    rw [unwrap_eq_ok] at hct
    rw [Except.ok.injEq] at hstep
    subst hstep
    by_cases hu : u = v
    · subst hu
      rw [hinv u] at hct
      obtain ⟨ct₀, hct₀, rfl⟩ := Option.map_eq_some_iff.mp hct
      simp [hct₀, List.count_append, Function.iterate_succ_apply']
    · rw [Function.update_of_ne hu, hinv u, List.count_append, List.count_singleton,
        if_neg (by simpa using Ne.symm hu), Nat.add_zero]
  · intro u
    cases hu : l.conflictSets u with
    | none => simp
    | some ct => simp

/-! ## Checking a preference -/

/-- What the check of one parent preserves, the loop over the parents
preserves. -/
theorem allParents_invariant {f : PrefCache → Hash → Res (PrefCache × Bool)}
    (P : PrefCache → Prop) (hf : ∀ c p c' b, P c → f c p = .ok (c', b) → P c') :
    ∀ {ps : List Hash} {c c' : PrefCache} {b : Bool},
      allParents f c ps = .ok (c', b) → P c → P c' := by
  intro ps
  induction ps with
  | nil =>
    intro c c' b h hc
    simp only [allParents, Except.ok.injEq, Prod.mk.injEq] at h
    exact h.1 ▸ hc
  | cons p ps ih =>
    intro c c' b h hc
    rw [allParents, bind_eq_ok] at h
    obtain ⟨⟨c₁, b₁⟩, h₁, h⟩ := h
    have hc₁ := hf c p c₁ b₁ hc h₁
    cases b₁ with
    | true => exact ih h hc₁
    | false =>
      simp only [Bool.false_eq_true, if_false, Except.ok.injEq, Prod.mk.injEq] at h
      exact h.1 ▸ hc₁

/-- The check answers at once for what has left the DAG and for what is cached.
Otherwise it looks at the transaction, then at its parents, and caches the
answer. -/
theorem stronglyPreferred_cases {l : Ledger C} {fuel : Nat} {c c' : PrefCache} {h : Hash}
    {b : Bool} (hs : stronglyPreferred l (fuel + 1) c h = .ok (c', b)) :
    (l.txnDag h = none ∧ c' = c ∧ b = true) ∨
    ∃ node, l.txnDag h = some node ∧ ((c h = some b ∧ c' = c) ∨
      ∃ preferred cache, isPreferred l h = .ok preferred ∧
        c' = Function.update cache h (some b) ∧
        ((preferred = true ∧
            allParents (stronglyPreferred l fuel) c node.parents = .ok (cache, b)) ∨
          (preferred = false ∧ cache = c ∧ b = false))) := by
  rw [stronglyPreferred] at hs
  cases hn : l.txnDag h with
  | none =>
    rw [hn] at hs
    simp only [Except.ok.injEq, Prod.mk.injEq] at hs
    exact Or.inl ⟨rfl, hs.1.symm, hs.2.symm⟩
  | some node =>
    refine Or.inr ⟨node, rfl, ?_⟩
    rw [hn] at hs
    dsimp only at hs
    cases hch : c h with
    | some b' =>
      rw [hch] at hs
      simp only [Except.ok.injEq, Prod.mk.injEq] at hs
      exact Or.inl ⟨congrArg some hs.2, hs.1.symm⟩
    | none =>
      rw [hch] at hs
      dsimp only at hs
      rw [bind_eq_ok] at hs
      obtain ⟨preferred, hp, hs⟩ := hs
      rw [bind_eq_ok] at hs
      obtain ⟨⟨cache, b₁⟩, h₁, hs⟩ := hs
      simp only [Except.ok.injEq, Prod.mk.injEq] at hs
      obtain ⟨rfl, rfl⟩ := hs
      refine Or.inr ⟨preferred, cache, hp, rfl, ?_⟩
      cases preferred with
      | true => exact Or.inl ⟨rfl, h₁⟩
      | false =>
        simp only [Bool.false_eq_true, if_false, Except.ok.injEq, Prod.mk.injEq] at h₁
        exact Or.inr ⟨rfl, h₁.1.symm, h₁.2.symm⟩

/-- Only what is in the DAG is cached. -/
theorem stronglyPreferred_cache {l : Ledger C} {x : Hash} (hx : l.txnDag x = none) :
    ∀ {fuel : Nat} {c c' : PrefCache} {h : Hash} {b : Bool},
      stronglyPreferred l fuel c h = .ok (c', b) → c x = none → c' x = none := by
  intro fuel
  induction fuel with
  | zero => intro c c' h b hs; exact absurd hs (by simp [stronglyPreferred])
  | succ fuel ih =>
    intro c c' h b hs hc
    obtain ⟨-, rfl, -⟩ | ⟨node, hn, ⟨-, rfl⟩ | ⟨preferred, cache, -, rfl, hcases⟩⟩ :=
      stronglyPreferred_cases hs
    · exact hc
    · exact hc
    · have hxh : x ≠ h := by
        rintro rfl
        rw [hx] at hn
        exact absurd hn (by simp)
      rw [Function.update_of_ne hxh]
      rcases hcases with ⟨-, hpar⟩ | ⟨-, rfl, -⟩
      · exact allParents_invariant (fun c => c x = none) (fun c p c' b hc hp => ih hp hc) hpar hc
      · exact hc

theorem isStronglyPreferred_cases {fuel : Nat} {l l' : Ledger C} {h : Hash} {b : Bool}
    (hs : isStronglyPreferred fuel l h = .ok (l', b)) :
    ∃ cache, stronglyPreferred l fuel l.preferenceCache h = .ok (cache, b) ∧
      l' = { l with preferenceCache := cache, history := l.history ++ [.check h] } := by
  unfold isStronglyPreferred at hs
  rw [bind_eq_ok] at hs
  obtain ⟨⟨cache, b'⟩, hc, hs⟩ := hs
  simp only [Except.ok.injEq, Prod.mk.injEq] at hs
  obtain ⟨rfl, rfl⟩ := hs
  exact ⟨cache, hc, rfl⟩

theorem isStronglyPreferred_eq {fuel : Nat} {l : Ledger C} {h : Hash} {cache : PrefCache}
    {b : Bool} (hs : stronglyPreferred l fuel l.preferenceCache h = .ok (cache, b)) :
    isStronglyPreferred fuel l h =
      .ok ({ l with preferenceCache := cache, history := l.history ++ [.check h] }, b) := by
  unfold isStronglyPreferred
  rw [hs]
  rfl

/-! ## The shape of the ledger -/

/-- The shape of the ledger: what is recorded is stored under its own id, in
the DAG with its parents, counted, and entered in its conflict sets; the
preferred transaction of a set is in it; only what is in the DAG is cached. -/
structure LedgerInv (ids : TxnIds) (l : Ledger C) : Prop where
  keyed : ∀ h txn, l.txnPool h = some txn → ids.txnId txn = h ∧ txn ≠ .placeHolder
  node : ∀ h node, l.txnDag h = some node → ∃ txn, l.txnPool h = some txn ∧
    node.parents = txn.parents ∧
    ∀ c ∈ node.children, ∃ txn', l.txnPool c = some txn' ∧ h ∈ txn'.parents
  counted : ∀ h txn, l.txnPool h = some txn → ∃ n, l.confidence h = some n
  entered : ∀ h txn, l.txnPool h = some txn → ∀ u ∈ txn.utxos, ∃ ct, l.conflictSets u = some ct
  pref : ∀ u ct, l.conflictSets u = some ct →
    ∃ txn, l.txnPool ct.pref = some txn ∧ u ∈ txn.utxos
  cached : ∀ h, l.txnDag h = none → l.preferenceCache h = none
  bounded : ∃ B, ∀ h txn, l.txnPool h = some txn → ids.rank h < B

theorem ledgerInv_new (ids : TxnIds) : LedgerInv ids (Ledger.new C) := by
  refine ⟨?_, ?_, ?_, ?_, ?_, fun _ _ => rfl, 0, ?_⟩
  all_goals
    intro h x hx
    exact absurd hx (by simp [Ledger.new])

/-- A child in the DAG is an old one, or the new transaction under one of its
parents. -/
theorem LedgerInv.record_node {l : Ledger C} (hinv : LedgerInv cfg.ids l) {txn : AvalancheTxn}
    (hnew : l.txnPool (cfg.ids.txnId txn) = none) {x : Hash} {node : DagNode}
    (hx : (recordTxn cfg l txn).txnDag x = some node) :
    ∃ t, (recordTxn cfg l txn).txnPool x = some t ∧ node.parents = t.parents ∧
      ∀ c ∈ node.children, ∃ t', (recordTxn cfg l txn).txnPool c = some t' ∧ x ∈ t'.parents := by
  rw [recordTxn_dag] at hx
  obtain ⟨node₀, hx₀, rfl⟩ := Option.map_eq_some_iff.mp hx
  have hchild : ∀ c ∈ List.replicate (txn.parents.count x) (cfg.ids.txnId txn),
      ∃ t', (recordTxn cfg l txn).txnPool c = some t' ∧ x ∈ t'.parents := by
    intro c hc
    obtain ⟨hne, rfl⟩ := List.mem_replicate.mp hc
    exact ⟨txn, recordTxn_pool_self .., List.count_pos_iff.mp (Nat.pos_of_ne_zero hne)⟩
  by_cases hxh : x = cfg.ids.txnId txn
  · subst hxh
    rw [Function.update_self, Option.some.injEq] at hx₀
    subst hx₀
    refine ⟨txn, recordTxn_pool_self .., rfl, fun c hc => ?_⟩
    rw [List.nil_append] at hc
    exact hchild c hc
  · rw [Function.update_of_ne hxh] at hx₀
    obtain ⟨t, ht, hpar, hch⟩ := hinv.node x node₀ hx₀
    refine ⟨t, recordTxn_pool_mono hnew ht, hpar, fun c hc => ?_⟩
    rcases List.mem_append.mp hc with hc | hc
    · obtain ⟨t', ht', hmem⟩ := hch c hc
      exact ⟨t', recordTxn_pool_mono hnew ht', hmem⟩
    · exact hchild c hc

/-- The conflict sets of the new transaction are opened, the others stay. -/
theorem LedgerInv.record_entered {l : Ledger C} (hinv : LedgerInv cfg.ids l)
    {txn t : AvalancheTxn} {x : Hash} (hx : (recordTxn cfg l txn).txnPool x = some t) {u : Utxo}
    (hu : u ∈ t.utxos) : ∃ ct, (recordTxn cfg l txn).conflictSets u = some ct := by
  rw [recordTxn_sets]
  by_cases hmem : u ∈ txn.utxos
  · rw [if_pos hmem]
    cases hs : l.conflictSets u with
    | none => exact ⟨_, rfl⟩
    | some ct => exact ⟨_, rfl⟩
  · rw [if_neg hmem]
    rcases recordTxn_pool_cases hx with ⟨-, rfl⟩ | ⟨-, hx⟩
    · exact absurd hu hmem
    · exact hinv.entered x t hx u hu

/-- A new conflict set prefers the transaction that opened it. -/
theorem LedgerInv.record_pref {l : Ledger C} (hinv : LedgerInv cfg.ids l) {txn : AvalancheTxn}
    (hnew : l.txnPool (cfg.ids.txnId txn) = none) {u : Utxo} {ct : ConflictSet C}
    (hct : (recordTxn cfg l txn).conflictSets u = some ct) :
    ∃ t, (recordTxn cfg l txn).txnPool ct.pref = some t ∧ u ∈ t.utxos := by
  have hold : ∀ ct₀, l.conflictSets u = some ct₀ →
      ∃ t, (recordTxn cfg l txn).txnPool ct₀.pref = some t ∧ u ∈ t.utxos := by
    intro ct₀ hs
    obtain ⟨t, ht, hut⟩ := hinv.pref u ct₀ hs
    exact ⟨t, recordTxn_pool_mono hnew ht, hut⟩
  rw [recordTxn_sets] at hct
  by_cases hmem : u ∈ txn.utxos
  · rw [if_pos hmem] at hct
    cases hs : l.conflictSets u with
    | none =>
      rw [hs, Option.some.injEq] at hct
      subst hct
      exact ⟨txn, recordTxn_pool_self .., hmem⟩
    | some ct₀ =>
      rw [hs, Option.some.injEq] at hct
      subst hct
      exact hold ct₀ hs
  · rw [if_neg hmem] at hct
    exact hold ct hct

/-- Recording a transaction. -/
theorem LedgerInv.record {l : Ledger C} (hinv : LedgerInv cfg.ids l) {txn : AvalancheTxn}
    (hnew : l.txnPool (cfg.ids.txnId txn) = none) (hph : txn ≠ .placeHolder) :
    LedgerInv cfg.ids (recordTxn cfg l txn) := by
  refine ⟨?_, fun x node hx => hinv.record_node hnew hx, ?_,
    fun x t hx u hu => hinv.record_entered hx hu, fun u ct hct => hinv.record_pref hnew hct, ?_, ?_⟩
  · intro x t hx
    rcases recordTxn_pool_cases hx with ⟨rfl, rfl⟩ | ⟨-, hx⟩
    · exact ⟨rfl, hph⟩
    · exact hinv.keyed x t hx
  · intro x t hx
    show ∃ n, Function.update l.confidence (cfg.ids.txnId txn) (some 0) x = some n
    rcases recordTxn_pool_cases hx with ⟨rfl, -⟩ | ⟨hxh, hx⟩
    · exact ⟨0, Function.update_self ..⟩
    · rw [Function.update_of_ne hxh]
      exact hinv.counted x t hx
  · intro x hx
    rw [recordTxn_dag, Option.map_eq_none_iff] at hx
    have hxh : x ≠ cfg.ids.txnId txn := by
      rintro rfl
      rw [Function.update_self] at hx
      exact absurd hx (by simp)
    rw [Function.update_of_ne hxh] at hx
    exact hinv.cached x hx
  · obtain ⟨B, hB⟩ := hinv.bounded
    refine ⟨max B (cfg.ids.rank (cfg.ids.txnId txn) + 1), fun x t hx => ?_⟩
    rcases recordTxn_pool_cases hx with ⟨rfl, -⟩ | ⟨-, hx⟩
    · omega
    · have := hB x t hx
      omega

/-- Changing the counters of the conflict sets, the confidence of what is
recorded, and the cache. -/
theorem LedgerInv.counters {l l' : Ledger C} {ids : TxnIds} (hinv : LedgerInv ids l)
    (hpool : l'.txnPool = l.txnPool) (hdag : l'.txnDag = l.txnDag)
    (hconf : ∀ x n, l.confidence x = some n → ∃ n', l'.confidence x = some n')
    (hsets : ∀ u ct, l.conflictSets u = some ct → ∃ ct', l'.conflictSets u = some ct')
    (hpref : ∀ u ct', l'.conflictSets u = some ct' →
      ∃ txn, l.txnPool ct'.pref = some txn ∧ u ∈ txn.utxos)
    (hcache : ∀ x, l.txnDag x = none → l.preferenceCache x = none →
      l'.preferenceCache x = none) : LedgerInv ids l' := by
  refine ⟨?_, ?_, ?_, ?_, ?_, ?_, ?_⟩
  · rw [hpool]
    exact hinv.keyed
  · rw [hpool, hdag]
    exact hinv.node
  · rw [hpool]
    intro h txn ht
    obtain ⟨n, hn⟩ := hinv.counted h txn ht
    exact hconf h n hn
  · rw [hpool]
    intro h txn ht u hu
    obtain ⟨ct, hct⟩ := hinv.entered h txn ht u hu
    exact hsets u ct hct
  · rw [hpool]
    exact hpref
  · rw [hdag]
    exact fun x hx => hcache x hx (hinv.cached x hx)
  · rw [hpool]
    exact hinv.bounded

/-- Bumping a transaction. -/
theorem LedgerInv.bump {slot : Slot} {fuel : Nat} {l l' : Ledger C} {h : Hash} {node : DagNode}
    {b : Bool} (hinv : LedgerInv cfg.ids l)
    (hb : Avalanche.bump cfg slot fuel l h node = .ok (l', b)) : LedgerInv cfg.ids l' := by
  obtain ⟨n, txn, t, hn, htxn, -, -, ht, rfl, -⟩ := bump_spec hb
  refine hinv.counters rfl rfl ?_ ?_ ?_ ?_
  · intro x m hm
    show ∃ n', Function.update l.confidence h (some (n + 1)) x = some n'
    by_cases hx : x = h
    · exact ⟨n + 1, by rw [hx, Function.update_self]⟩
    · exact ⟨m, by rw [Function.update_of_ne hx, hm]⟩
  · intro u ct hct
    by_cases hu : u ∈ txn.utxos
    · obtain ⟨_, _, _, ht', _⟩ := ht.on u hu
      exact ⟨_, ht'⟩
    · exact ⟨ct, (ht.off u hu).trans hct⟩
  · intro u ct' hct'
    by_cases hu : u ∈ txn.utxos
    · obtain ⟨ct, pref, hct, ht', hyes, hno⟩ := ht.on u hu
      have hct'' := ht'.symm.trans hct'
      rw [Option.some.injEq] at hct''
      subst hct''
      by_cases ho : Overtakes (raised l h (n + 1)) h (n + 1) ct.pref
      · exact ⟨txn, by rw [hyes ho]; exact htxn, hu⟩
      · rw [hno ho]
        exact hinv.pref u ct hct
    · exact hinv.pref u ct' ((ht.off u hu).symm.trans hct')
  · intro x hx hc
    show t.preferenceCache x = none
    by_cases hex : ∃ u ∈ txn.utxos, ∃ ct, l.conflictSets u = some ct ∧
        Overtakes (raised l h (n + 1)) h (n + 1) ct.pref
    · by_cases hr : Reach (down l.txnDag) h x
      · exact (ht.dropped hex x).1 hr
      · rw [(ht.dropped hex x).2 hr]
        exact hc
    · rw [ht.kept fun u hu ct hct ho => hex ⟨u, hu, ct, hct, ho⟩]
      exact hc

/-- Every operation keeps the shape. -/
theorem ledgerInv_op {l l' : Ledger C} {op : Op} (hinv : LedgerInv cfg.ids l)
    (h : OpStep cfg l op l') : LedgerInv cfg.ids l' := by
  cases h with
  | record hnew hph => exact hinv.record hnew hph
  | check hs =>
    obtain ⟨cache, hc, rfl⟩ := isStronglyPreferred_cases hs
    exact hinv.counters rfl rfl (fun _ n hn => ⟨n, hn⟩) (fun _ ct hct => ⟨ct, hct⟩) hinv.pref
      (fun x hx hcx => stronglyPreferred_cache hx hc hcx)
  | ask =>
    exact hinv.counters rfl rfl (fun _ n hn => ⟨n, hn⟩) (fun _ ct hct => ⟨ct, hct⟩) hinv.pref
      (fun _ _ hc => hc)
  | bump _ hb => exact hinv.bump hb
  | @accept _ h =>
    refine ⟨hinv.keyed, ?_, hinv.counted, hinv.entered, hinv.pref, ?_, hinv.bounded⟩
    · intro x node hx
      by_cases hxh : x = h
      · exact absurd hx (by simp [acceptTxn, hxh])
      · exact hinv.node x node (by simpa [acceptTxn, hxh] using hx)
    · intro x hx
      by_cases hxh : x = h
      · simp [acceptTxn, hxh]
      · have := hinv.cached x (by simpa [acceptTxn, hxh] using hx)
        simpa [acceptTxn, hxh] using this
  | reset _ _ hr =>
    obtain ⟨txn, sets, htxn, rfl, hsets⟩ := resetTxn_spec hr
    refine hinv.counters rfl rfl (fun _ n hn => ⟨n, hn⟩) ?_ ?_ (fun _ _ hc => hc)
    · intro u ct hct
      show ∃ ct', sets u = some ct'
      exact ⟨_, by rw [hsets, hct]; rfl⟩
    · intro u ct' hct'
      obtain ⟨ct, hct, rfl⟩ := Option.map_eq_some_iff.mp ((hsets u).symm.trans hct')
      exact hinv.pref u ct hct

theorem ledgerInv_ops {l l' : Ledger C} {ops : List Op} (h : Ops cfg l ops l')
    (hinv : LedgerInv cfg.ids l) : LedgerInv cfg.ids l' :=
  h.invariant (LedgerInv cfg.ids) (fun _ _ _ hl _ hs => ledgerInv_op hl hs) hinv

/-- The history lists the operations. -/
theorem history_op {l l' : Ledger C} {op : Op} (h : OpStep cfg l op l') :
    l'.history = l.history ++ [op] := by
  cases h with
  | record => rfl
  | check hs =>
    obtain ⟨cache, -, rfl⟩ := isStronglyPreferred_cases hs
    rfl
  | ask => rfl
  | bump _ hb =>
    obtain ⟨n, txn, t, -, -, -, -, -, rfl, -⟩ := bump_spec hb
    rfl
  | accept => rfl
  | reset _ _ hr =>
    obtain ⟨txn, sets, -, rfl, -⟩ := resetTxn_spec hr
    rfl

theorem history_ops {l l' : Ledger C} {ops : List Op} (h : Ops cfg l ops l') :
    l'.history = l.history ++ ops := by
  induction h with
  | nil => rw [List.append_nil]
  | snoc _ _ hs ih => rw [history_op hs, ih, List.append_assoc]

end Copycat.Avalanche
