import Copycat.Avalanche.Counters
import Copycat.Avalanche.Fuel

/-!
# The preference cache

`is_strongly_preferred` answers from `preference_cache` and fills it on the way.
`StronglyPreferred` is what it would answer without the cache, and `Coherent`
says that every cached answer is still right.

A cached answer can go wrong in three ways. When a conflict set changes its
preference, the source invalidates what is below the new preference twice: it
fills the frontier after `ct.pref` has been overwritten, so nothing below the
*old* preference is invalidated. The walk follows the children a transaction
has been told of, and a child recorded before its parent is not among them.
And a transaction that is recorded, or accepted, while others that depend on it
are cached may change what the right answer for those is. `Clean` is the
condition, on the ledger before an operation, that none of this happens;
`preference_cache_coherent` shows that it is enough, and `stale_preference` is
a run in which the first of the three makes the node answer wrongly.
-/

namespace Copycat.Avalanche

open Copycat.Lib

variable {C : Type} {cfg : Config C}

/-- The transaction is preferred in every one of its conflict sets. -/
def Preferred (l : Ledger C) (h : Hash) : Prop :=
  ∀ txn, l.txnPool h = some txn → ∀ u ∈ txn.utxos,
    ∃ ct, l.conflictSets u = some ct ∧ ct.pref = h

/-- `is_strongly_preferred` without the cache: the transaction is preferred,
and so, recursively, is every parent still in the DAG. -/
inductive StronglyPreferred (l : Ledger C) : Hash → Prop
  | intro {h : Hash} {node : DagNode} : l.txnDag h = some node → Preferred l h →
      (∀ p ∈ node.parents, l.txnDag p ≠ none → StronglyPreferred l p) → StronglyPreferred l h

/-- Every ancestor still in the DAG is preferred. -/
def AllPreferred (l : Ledger C) (h : Hash) : Prop :=
  ∀ x, Reach (up l.txnDag) h x → l.txnDag x ≠ none → Preferred l x

theorem LedgerInv.rank_up {ids : TxnIds} {l : Ledger C} (hinv : LedgerInv ids l) :
    ∀ a, ∀ b ∈ up l.txnDag a, ids.rank b < ids.rank a := by
  intro a b hb
  cases hn : l.txnDag a with
  | none => exact absurd hb (by simp [up, hn])
  | some node =>
    rw [up_some hn] at hb
    obtain ⟨txn, ht, hpar, -⟩ := hinv.node a node hn
    rw [← (hinv.keyed a txn ht).1]
    exact ids.rank_parent txn b (hpar ▸ hb)

theorem allPreferred_of_not_in_dag {l : Ledger C} {h : Hash} (hn : l.txnDag h = none) :
    AllPreferred l h := by
  intro x hx hdag
  rcases hx.head_cases with rfl | ⟨c, hc, -⟩
  · exact absurd hn hdag
  · exact absurd hc (by simp [up, hn])

/-- One level of the recursion. -/
theorem allPreferred_iff {l : Ledger C} {h : Hash} {node : DagNode} (hn : l.txnDag h = some node) :
    AllPreferred l h ↔ Preferred l h ∧ ∀ p ∈ node.parents, AllPreferred l p := by
  constructor
  · intro hall
    refine ⟨hall h (Reach.refl h) (by rw [hn]; simp), fun p hp x hx => ?_⟩
    exact hall x (Reach.head (by rwa [up_some hn]) hx)
  · rintro ⟨hpref, hpar⟩ x hx hdag
    rcases hx.head_cases with rfl | ⟨p, hp, hpx⟩
    · exact hpref
    · rw [up_some hn] at hp
      exact hpar p hp x hpx hdag

theorem stronglyPreferred_iff {ids : TxnIds} {l : Ledger C} (hinv : LedgerInv ids l) {h : Hash}
    (hdag : l.txnDag h ≠ none) : StronglyPreferred l h ↔ AllPreferred l h := by
  constructor
  · intro hs
    induction hs with
    | @intro h node hn hpref _ ih =>
      rw [allPreferred_iff hn]
      refine ⟨hpref, fun p hp => ?_⟩
      by_cases hpd : l.txnDag p = none
      · exact allPreferred_of_not_in_dag hpd
      · exact ih p hp hpd hpd
  · -- the recursion ends because parents have been made before their children
    induction hr : ids.rank h using Nat.strong_induction_on generalizing h with
    | _ r ih =>
      intro hall
      obtain ⟨node, hn⟩ := Option.ne_none_iff_exists'.mp hdag
      obtain ⟨hpref, hpar⟩ := (allPreferred_iff hn).mp hall
      refine .intro hn hpref fun p hp hpd => ?_
      have hlt := hinv.rank_up h p (by rwa [up_some hn])
      exact ih (ids.rank p) (hr ▸ hlt) hpd rfl (hpar p hp)

/-! ## Reading and filling the cache -/

/-- Every cached answer is right. -/
def Coherent (l : Ledger C) (cache : PrefCache) : Prop :=
  ∀ h b, l.txnDag h ≠ none → cache h = some b → (b = true ↔ AllPreferred l h)

/-- `is_preferred` on a recorded transaction. -/
theorem isPreferred_spec {ids : TxnIds} {l : Ledger C} (hinv : LedgerInv ids l) {h : Hash}
    {txn : AvalancheTxn} (ht : l.txnPool h = some txn) :
    ∃ b, isPreferred l h = .ok b ∧ (b = true ↔ Preferred l h) := by
  have hloop : ∀ us : List Utxo, (∀ u ∈ us, u ∈ txn.utxos) → ∀ b₀ : Bool,
      ∃ b, us.foldlM (fun preferred utxo =>
        unwrap (l.conflictSets utxo) >>= fun ct =>
        Except.ok (if ct.pref ≠ h then false else preferred)) b₀ = Except.ok b ∧
      (b = true ↔ b₀ = true ∧ ∀ u ∈ us, ∃ ct, l.conflictSets u = some ct ∧ ct.pref = h) := by
    intro us
    induction us with
    | nil => exact fun _ b₀ => ⟨b₀, rfl, by simp⟩
    | cons u us ih =>
      intro hsub b₀
      obtain ⟨ct, hct⟩ := hinv.entered h txn ht u (hsub u (by simp))
      obtain ⟨b, hb, hiff⟩ := ih (fun v hv => hsub v (by simp [hv]))
        (if ct.pref ≠ h then false else b₀)
      refine ⟨b, ?_, ?_⟩
      · rw [List.foldlM_cons, hct]
        exact hb
      · rw [hiff]
        by_cases hp : ct.pref = h
        · simp [hp, hct]
        · simp [hp, hct]
  obtain ⟨b, hb, hiff⟩ := hloop txn.utxos (fun u hu => hu) true
  refine ⟨b, ?_, ?_⟩
  · unfold isPreferred
    rw [ht]
    have hph := (hinv.keyed h txn ht).2
    cases txn with
    | placeHolder => exact absurd rfl hph
    | send => exact hb
    | grant => exact hb
    | noop => exact hb
  · rw [hiff]
    unfold Preferred
    constructor
    · rintro ⟨-, hall⟩ txn' ht'
      rw [ht, Option.some.injEq] at ht'
      exact ht' ▸ hall
    · exact fun hall => ⟨rfl, hall txn ht⟩

/-- The loop over the parents answers for all of them. -/
theorem allParents_spec {f : PrefCache → Hash → Res (PrefCache × Bool)} {P : PrefCache → Prop}
    {S : Hash → Prop}
    (hf : ∀ c p c' b, P c → f c p = .ok (c', b) → P c' ∧ (b = true ↔ S p)) :
    ∀ {ps : List Hash} {c c' : PrefCache} {b : Bool}, P c → allParents f c ps = .ok (c', b) →
      P c' ∧ (b = true ↔ ∀ p ∈ ps, S p) := by
  intro ps
  induction ps with
  | nil =>
    intro c c' b hc h
    simp only [allParents, Except.ok.injEq, Prod.mk.injEq] at h
    obtain ⟨rfl, rfl⟩ := h
    exact ⟨hc, by simp⟩
  | cons p ps ih =>
    intro c c' b hc h
    rw [allParents, bind_eq_ok] at h
    obtain ⟨⟨c₁, b₁⟩, h₁, h⟩ := h
    obtain ⟨hc₁, hb₁⟩ := hf c p c₁ b₁ hc h₁
    cases b₁ with
    | true =>
      obtain ⟨hc', hb⟩ := ih hc₁ h
      refine ⟨hc', ?_⟩
      rw [hb, List.forall_mem_cons]
      exact ⟨fun hall => ⟨hb₁.mp rfl, hall⟩, And.right⟩
    | false =>
      simp only [Bool.false_eq_true, if_false, Except.ok.injEq, Prod.mk.injEq] at h
      obtain ⟨rfl, rfl⟩ := h
      refine ⟨hc₁, ?_⟩
      rw [List.forall_mem_cons]
      exact ⟨fun hh => absurd hh (by simp), fun hh => hb₁.mpr hh.1⟩

/-- On a coherent cache the answer is right, and the cache stays coherent. -/
theorem stronglyPreferred_spec {ids : TxnIds} {l : Ledger C} (hinv : LedgerInv ids l) :
    ∀ {fuel : Nat} {c c' : PrefCache} {h : Hash} {b : Bool}, Coherent l c →
      stronglyPreferred l fuel c h = .ok (c', b) →
        Coherent l c' ∧ (b = true ↔ AllPreferred l h) := by
  intro fuel
  induction fuel with
  | zero => intro c c' h b _ hs; exact absurd hs (by simp [stronglyPreferred])
  | succ fuel ih =>
    intro c c' h b hc hs
    obtain ⟨hn, rfl, rfl⟩ | ⟨node, hn, ⟨hch, rfl⟩ | ⟨preferred, cache, hp, rfl, hcases⟩⟩ :=
      stronglyPreferred_cases hs
    · exact ⟨hc, fun _ => allPreferred_of_not_in_dag hn, fun _ => rfl⟩
    · exact ⟨hc, hc h b (by rw [hn]; simp) hch⟩
    · obtain ⟨txn, ht, -⟩ := hinv.node h node hn
      obtain ⟨p, hp', hiff⟩ := isPreferred_spec hinv ht
      rw [hp, Except.ok.injEq] at hp'
      subst hp'
      have hres : Coherent l cache ∧ (b = true ↔ AllPreferred l h) := by
        rw [allPreferred_iff hn]
        rcases hcases with ⟨rfl, hpar⟩ | ⟨rfl, rfl, rfl⟩
        · obtain ⟨hcache, hb⟩ := allParents_spec (fun _ _ _ _ hc hf => ih hc hf) hc hpar
          exact ⟨hcache, hb.trans ⟨fun hall => ⟨hiff.mp rfl, hall⟩, And.right⟩⟩
        · exact ⟨hc, fun hh => absurd hh (by simp), fun hh => hiff.mpr hh.1⟩
      refine ⟨?_, hres.2⟩
      intro x b' hdag hx
      by_cases hxh : x = h
      · subst hxh
        rw [Function.update_self, Option.some.injEq] at hx
        exact hx ▸ hres.2
      · rw [Function.update_of_ne hxh] at hx
        exact hres.1 x b' hdag hx

/-- The recursion returns. -/
theorem stronglyPreferred_returns {ids : TxnIds} {l : Ledger C} (hinv : LedgerInv ids l) :
    ∀ {fuel : Nat} (c : PrefCache) {h : Hash}, ids.rank h < fuel →
      ∃ r, stronglyPreferred l fuel c h = .ok r := by
  intro fuel
  induction fuel with
  | zero => intro c h hr; exact absurd hr (Nat.not_lt_zero _)
  | succ fuel ih =>
    intro c h hr
    rw [stronglyPreferred]
    cases hn : l.txnDag h with
    | none => exact ⟨_, rfl⟩
    | some node =>
      dsimp only
      cases hch : c h with
      | some b => exact ⟨_, rfl⟩
      | none =>
        dsimp only
        obtain ⟨txn, ht, -⟩ := hinv.node h node hn
        obtain ⟨p, hp, -⟩ := isPreferred_spec hinv ht
        rw [hp]
        have hpar : ∀ ps : List Hash, (∀ q ∈ ps, q ∈ node.parents) → ∀ c,
            ∃ r, allParents (stronglyPreferred l fuel) c ps = .ok r := by
          intro ps
          induction ps with
          | nil => exact fun _ c => ⟨_, rfl⟩
          | cons q ps ihp =>
            intro hsub c
            have hlt := hinv.rank_up h q (by rw [up_some hn]; exact hsub q (by simp))
            obtain ⟨⟨c₁, b₁⟩, h₁⟩ := ih c (h := q) (by omega)
            rw [allParents, h₁]
            cases b₁ with
            | true => exact ihp (fun q hq => hsub q (by simp [hq])) c₁
            | false => exact ⟨_, rfl⟩
        cases p with
        | true =>
          obtain ⟨⟨c₁, b₁⟩, h₁⟩ := hpar node.parents (fun q hq => hq) c
          refine ⟨(Function.update c₁ h (some b₁), b₁), ?_⟩
          show (allParents (stronglyPreferred l fuel) c node.parents >>= _) = _
          rw [h₁]
          rfl
        | false => exact ⟨_, rfl⟩

/-! ## When the operations keep the cache coherent -/

/-- The condition, on the ledger before the operation, under which no cached
answer goes stale. Recording: if something cached as strongly preferred depends
on the transaction, then the transaction is strongly preferred when it comes.
Bumping: when a conflict set goes over from `ct.pref` to `h`, what is cached
outside the invalidated part does not depend on `ct.pref` if it is cached as
strongly preferred, nor on `h` if it is not. Accepting: the transaction is
strongly preferred, or nothing cached as not strongly preferred depends on
it. -/
def Clean (cfg : Config C) (l : Ledger C) : Op → Prop
  | .record txn =>
    (∃ x, l.preferenceCache x = some true ∧ Reach (up l.txnDag) x (cfg.ids.txnId txn)) →
      (∀ u ∈ txn.utxos, l.conflictSets u = none) ∧
      ∀ p ∈ txn.parents, l.txnDag p ≠ none → StronglyPreferred l p
  | .bump _ h _ =>
    ∀ n txn, l.confidence h = some n → l.txnPool h = some txn →
      ∀ u ∈ txn.utxos, ∀ ct, l.conflictSets u = some ct → Overtakes l h (n + 1) ct.pref →
        ∀ x, ¬ Reach (down l.txnDag) h x →
          (l.preferenceCache x = some true → l.txnDag ct.pref ≠ none →
            ¬ Reach (up l.txnDag) x ct.pref) ∧
          (l.preferenceCache x = some false → ¬ Reach (up l.txnDag) x h)
  | .accept h =>
    StronglyPreferred l h ∨
      ∀ x, x ≠ h → l.preferenceCache x = some false → ¬ Reach (up l.txnDag) x h
  | _ => True

/-- Recording a transaction gives every old one the parents it had. -/
theorem up_recordTxn {l : Ledger C} {txn : AvalancheTxn} {x : Hash}
    (hx : x ≠ cfg.ids.txnId txn) : up (recordTxn cfg l txn).txnDag x = up l.txnDag x := by
  unfold up
  rw [recordTxn_dag, Function.update_of_ne hx]
  cases l.txnDag x <;> rfl

theorem dag_recordTxn {l : Ledger C} {txn : AvalancheTxn} {x : Hash}
    (hx : x ≠ cfg.ids.txnId txn) :
    (recordTxn cfg l txn).txnDag x ≠ none ↔ l.txnDag x ≠ none := by
  rw [recordTxn_dag, Function.update_of_ne hx]
  cases l.txnDag x <;> simp

/-- Recording a transaction changes no preference of an old one. -/
theorem preferred_recordTxn {l : Ledger C} (hinv : LedgerInv cfg.ids l) {txn : AvalancheTxn}
    {x : Hash} (hx : x ≠ cfg.ids.txnId txn) :
    Preferred (recordTxn cfg l txn) x ↔ Preferred l x := by
  -- an old transaction is in its conflict sets, and these keep their preference
  have hsets : ∀ t, l.txnPool x = some t → ∀ u ∈ t.utxos,
      ((∃ ct, (recordTxn cfg l txn).conflictSets u = some ct ∧ ct.pref = x) ↔
        ∃ ct, l.conflictSets u = some ct ∧ ct.pref = x) := by
    intro t ht u hu
    obtain ⟨ct, hct⟩ := hinv.entered x t ht u hu
    rw [recordTxn_sets, hct]
    split
    · simp
    · rfl
  unfold Preferred
  rw [recordTxn_pool_ne l hx]
  exact forall_congr' fun t => forall_congr' fun ht =>
    forall_congr' fun u => forall_congr' fun hu => hsets t ht u hu

/-- A transaction whose conflict sets are all new is preferred. -/
theorem preferred_recordTxn_self {l : Ledger C} {txn : AvalancheTxn}
    (hsets : ∀ u ∈ txn.utxos, l.conflictSets u = none) :
    Preferred (recordTxn cfg l txn) (cfg.ids.txnId txn) := by
  intro t ht u hu
  rw [recordTxn_pool_self, Option.some.injEq] at ht
  subst ht
  rw [recordTxn_sets, if_pos hu, hsets u hu]
  exact ⟨_, rfl, rfl⟩

theorem Coherent.record {l : Ledger C} (hinv : LedgerInv cfg.ids l) {txn : AvalancheTxn}
    (hnew : l.txnPool (cfg.ids.txnId txn) = none) (hph : txn ≠ .placeHolder)
    (hc : Coherent l l.preferenceCache) (hclean : Clean cfg l (.record txn)) :
    Coherent (recordTxn cfg l txn) (recordTxn cfg l txn).preferenceCache := by
  set h := cfg.ids.txnId txn with hh
  have hdagh : l.txnDag h = none := by
    cases hn : l.txnDag h with
    | none => rfl
    | some node =>
      obtain ⟨t, ht, -⟩ := hinv.node h node hn
      rw [hnew] at ht
      exact absurd ht (by simp)
  have hinv' := hinv.record hnew hph
  have hold : ∀ {x y : Hash}, Reach (up (recordTxn cfg l txn).txnDag) x y →
      Reach (up l.txnDag) x y ∨
        (Reach (up l.txnDag) x h ∧ Reach (up (recordTxn cfg l txn).txnDag) h y) :=
    fun hxy => hxy.detour fun a ha b hb => by rwa [up_recordTxn ha] at hb
  have hext : ∀ {x y : Hash}, Reach (up l.txnDag) x y →
      Reach (up (recordTxn cfg l txn).txnDag) x y := by
    intro x y hxy
    refine hxy.mono fun a b hb => ?_
    by_cases ha : a = h
    · exact absurd hb (by simp [up, ha, hdagh])
    · rwa [up_recordTxn ha]
  intro x b hdag hx
  replace hx : l.preferenceCache x = some b := hx
  have hxh : x ≠ h := by
    rintro rfl
    rw [hinv.cached h hdagh] at hx
    exact absurd hx (by simp)
  have hright := hc x b ((dag_recordTxn hxh).mp hdag) hx
  constructor
  · intro hb y hy hydag
    have hall := hright.mp hb
    rcases hold hy with hxy | ⟨hxh', hhy⟩
    · by_cases hyh : y = h
      · -- the new transaction itself
        subst hyh
        exact preferred_recordTxn_self (hclean ⟨x, hb ▸ hx, hxy⟩).1
      · exact (preferred_recordTxn hinv hyh).mpr (hall y hxy ((dag_recordTxn hyh).mp hydag))
    · -- through the new transaction, to itself or to one of its parents
      obtain ⟨hsets, hpar⟩ := hclean ⟨x, hb ▸ hx, hxh'⟩
      rcases hhy.head_cases with rfl | ⟨p, hp, hpy⟩
      · exact preferred_recordTxn_self hsets
      · have hpmem : p ∈ txn.parents := by
          simpa [up, recordTxn_dag, ← hh] using hp
        have hle := hpy.measure_le hinv'.rank_up
        have hlt : cfg.ids.rank p < cfg.ids.rank h := cfg.ids.rank_parent txn p hpmem
        have hyh : y ≠ h := by
          rintro rfl
          exact absurd hle (by omega)
        have hpy' : Reach (up l.txnDag) p y := by
          rcases hold hpy with hpy' | ⟨hph', -⟩
          · exact hpy'
          · have := hph'.measure_le hinv.rank_up
            exact absurd this (by omega)
        have hpd : l.txnDag p ≠ none := by
          intro hnone
          rcases hpy'.head_cases with rfl | ⟨q, hq, -⟩
          · exact absurd hnone ((dag_recordTxn hyh).mp hydag)
          · exact absurd hq (by simp [up, hnone])
        have hsp := (stronglyPreferred_iff hinv hpd).mp (hpar p hpmem hpd)
        exact (preferred_recordTxn hinv hyh).mpr (hsp y hpy' ((dag_recordTxn hyh).mp hydag))
  · intro hall
    refine hright.mpr fun y hxy hydag => ?_
    have hyh : y ≠ h := by
      rintro rfl
      exact hydag hdagh
    exact (preferred_recordTxn hinv hyh).mp (hall y (hext hxy) ((dag_recordTxn hyh).mpr hydag))

theorem Coherent.accept {l : Ledger C} {h : Hash} (hinv : LedgerInv cfg.ids l)
    (hdagh : l.txnDag h ≠ none) (hc : Coherent l l.preferenceCache)
    (hclean : Clean cfg l (.accept h)) :
    Coherent (acceptTxn l h) (acceptTxn l h).preferenceCache := by
  have hdag : ∀ {y : Hash}, y ≠ h → (acceptTxn l h).txnDag y = l.txnDag y :=
    fun hy => Function.update_of_ne hy ..
  have hsub : ∀ {x y : Hash}, Reach (up (acceptTxn l h).txnDag) x y → Reach (up l.txnDag) x y := by
    intro x y hxy
    refine hxy.mono fun a b hb => ?_
    by_cases ha : a = h
    · exact absurd hb (by simp [up, acceptTxn, ha])
    · unfold up at hb ⊢
      rwa [hdag ha] at hb
  have hdet : ∀ {x y : Hash}, Reach (up l.txnDag) x y →
      Reach (up (acceptTxn l h).txnDag) x y ∨
        (Reach (up (acceptTxn l h).txnDag) x h ∧ Reach (up l.txnDag) h y) := by
    intro x y hxy
    refine hxy.detour fun a ha b hb => ?_
    unfold up at hb ⊢
    rwa [hdag ha]
  intro x b hxdag hx
  have hxh : x ≠ h := by
    rintro rfl
    exact hxdag (Function.update_self ..)
  rw [hdag hxh] at hxdag
  have hx' : l.preferenceCache x = some b := by
    rwa [show (acceptTxn l h).preferenceCache x = l.preferenceCache x from
      Function.update_of_ne hxh ..] at hx
  have hright := hc x b hxdag hx'
  constructor
  · intro hb y hy hydag
    have hyh : y ≠ h := by
      rintro rfl
      exact hydag (Function.update_self ..)
    exact hright.mp hb y (hsub hy) (by rwa [hdag hyh] at hydag)
  · intro hall
    cases b with
    | true => rfl
    | false =>
      -- a cached `false`: something `x` reaches is not preferred, and still counts
      refine hright.mpr fun y hxy hydag => ?_
      rcases hclean with hsp | hnone
      · have hsp' := (stronglyPreferred_iff hinv hdagh).mp hsp
        rcases hdet hxy with hxy' | ⟨-, hhy⟩
        · by_cases hyh : y = h
          · subst hyh
            exact hsp' y (Reach.refl y) hydag
          · exact hall y hxy' (by rwa [hdag hyh])
        · exact hsp' y hhy hydag
      · have hno := hnone x hxh hx'
        rcases hdet hxy with hxy' | ⟨hxh', -⟩
        · have hyh : y ≠ h := by
            rintro rfl
            exact hno hxy
          exact hall y hxy' (by rwa [hdag hyh])
        · exact absurd (hsub hxh') hno

theorem Coherent.bump {slot : Slot} {fuel : Nat} {l l' : Ledger C} {h : Hash} {node : DagNode}
    {b : Bool} (hb : Avalanche.bump cfg slot fuel l h node = .ok (l', b))
    (hc : Coherent l l.preferenceCache) (hclean : Clean cfg l (.bump slot h b)) :
    Coherent l' l'.preferenceCache := by
  obtain ⟨n, txn, t, hn, htxn, -, -, ht, rfl, -⟩ := bump_spec hb
  replace hclean := hclean n txn hn htxn
  -- what the bump does to a preference
  have hback : ∀ {y : Hash}, y ≠ h → ∀ {u : Utxo} {ct' : ConflictSet C},
      t.conflictSets u = some ct' → ct'.pref = y →
      ∃ ct, l.conflictSets u = some ct ∧ ct.pref = y := by
    intro y hyh u ct' hct' hpref
    by_cases hu : u ∈ txn.utxos
    · obtain ⟨ct, pref, hct, ht', hyes, hno⟩ := ht.on u hu
      rw [ht', Option.some.injEq] at hct'
      subst hct'
      by_cases ho : Overtakes (raised l h (n + 1)) h (n + 1) ct.pref
      · exact absurd ((hyes ho).symm.trans hpref) (Ne.symm hyh)
      · exact ⟨ct, hct, (hno ho).symm.trans hpref⟩
    · exact ⟨ct', (ht.off u hu).symm.trans hct', hpref⟩
  have hforth : ∀ {y : Hash} {u : Utxo} {ct : ConflictSet C}, l.conflictSets u = some ct →
      ct.pref = y → (u ∈ txn.utxos → ¬ Overtakes l h (n + 1) ct.pref) →
      ∃ ct', t.conflictSets u = some ct' ∧ ct'.pref = y := by
    intro y u ct hct hpref hov
    by_cases hu : u ∈ txn.utxos
    · obtain ⟨ct₀, pref, hct₀, ht', -, hno⟩ := ht.on u hu
      have he : ct₀ = ct := Option.some.inj (hct₀.symm.trans hct)
      subst he
      exact ⟨_, ht', (hno fun ho => hov hu (overtakes_raised.mp ho)).trans hpref⟩
    · exact ⟨ct, (ht.off u hu).trans hct, hpref⟩
  by_cases hex : ∃ u ∈ txn.utxos, ∃ ct, l.conflictSets u = some ct ∧
      Overtakes l h (n + 1) ct.pref
  · obtain ⟨u₀, hu₀, ct₀, hct₀, ho₀⟩ := hex
    have hinval := ht.dropped ⟨u₀, hu₀, ct₀, hct₀, overtakes_raised.mpr ho₀⟩
    have hnoth : ¬ Preferred l h := by
      intro hp
      obtain ⟨ct, hct, hpref⟩ := hp txn htxn u₀ hu₀
      rw [hct₀, Option.some.injEq] at hct
      exact ho₀.1 (hct ▸ hpref)
    intro x b' hdag hx
    replace hx : t.preferenceCache x = some b' := hx
    have hout : ¬ Reach (down l.txnDag) h x := by
      intro hr
      rw [(hinval x).1 hr] at hx
      exact absurd hx (by simp)
    replace hx : l.preferenceCache x = some b' := ((hinval x).2 hout).symm.trans hx
    have hright := hc x b' hdag hx
    cases b' with
    | true =>
      refine ⟨fun _ y hy hydag => ?_, fun _ => rfl⟩
      have hypref := hright.mp rfl y hy hydag
      have hyh : y ≠ h := fun he => hnoth (he ▸ hypref)
      intro ty hty u hu
      obtain ⟨ct, hct, hpref⟩ := hypref ty hty u hu
      refine hforth hct hpref fun hut ho => ?_
      exact (hclean u hut ct hct ho x hout).1 hx (hpref ▸ hydag) (hpref ▸ hy)
    | false =>
      refine ⟨fun hh => absurd hh (by simp), fun hall => ?_⟩
      refine hright.mpr fun y hy hydag => ?_
      have hyh : y ≠ h := by
        rintro rfl
        exact (hclean u₀ hu₀ ct₀ hct₀ ho₀ x hout).2 hx hy
      intro ty hty u hu
      obtain ⟨ct', hct', hpref⟩ := hall y hy hydag ty hty u hu
      exact hback hyh hct' hpref
  · -- no preference changes hands
    have hkept : t.preferenceCache = l.preferenceCache :=
      ht.kept fun u hu ct hct ho => hex ⟨u, hu, ct, hct, overtakes_raised.mp ho⟩
    intro x b' hdag hx
    replace hx : l.preferenceCache x = some b' := by rwa [← hkept]
    rw [hc x b' hdag hx]
    refine forall_congr' fun y => forall_congr' fun _ => forall_congr' fun _ =>
      forall_congr' fun ty => forall_congr' fun hty => forall_congr' fun u =>
      forall_congr' fun hu => ?_
    constructor
    · rintro ⟨ct, hct, hpref⟩
      exact hforth hct hpref fun hut ho => hex ⟨u, hut, ct, hct, ho⟩
    · rintro ⟨ct', hct', hpref⟩
      by_cases hut : u ∈ txn.utxos
      · obtain ⟨ct, pref, hct, ht', -, hno⟩ := ht.on u hut
        rw [show t.conflictSets u = some ct' from hct', Option.some.injEq] at ht'
        subst ht'
        refine ⟨ct, hct, ?_⟩
        rw [← hno fun ho => hex ⟨u, hut, ct, hct, overtakes_raised.mp ho⟩]
        exact hpref
      · exact ⟨ct', (ht.off u hut).symm.trans hct', hpref⟩

/-- A clean operation keeps the cache coherent. -/
theorem coherent_op {l l' : Ledger C} {op : Op} (hinv : LedgerInv cfg.ids l)
    (hc : Coherent l l.preferenceCache) (hclean : Clean cfg l op) (h : OpStep cfg l op l') :
    Coherent l' l'.preferenceCache := by
  cases h with
  | record hnew hph => exact hc.record hinv hnew hph hclean
  | check hs =>
    obtain ⟨cache, hcache, rfl⟩ := isStronglyPreferred_cases hs
    exact (stronglyPreferred_spec hinv hc hcache).1
  | ask => exact hc
  | bump _ hb => exact hc.bump hb hclean
  | accept hdag _ => exact hc.accept hinv hdag hclean
  | reset _ _ hr =>
    obtain ⟨txn, sets, -, rfl, hsets⟩ := resetTxn_spec hr
    intro x b hdag hx
    rw [hc x b hdag hx]
    refine forall_congr' fun y => forall_congr' fun _ => forall_congr' fun _ =>
      forall_congr' fun ty => forall_congr' fun hty => forall_congr' fun u =>
      forall_congr' fun hu => ?_
    show (∃ ct, l.conflictSets u = some ct ∧ ct.pref = y) ↔ ∃ ct, sets u = some ct ∧ ct.pref = y
    rw [hsets]
    cases l.conflictSets u <;> simp

/-- Every operation of the history met `Clean` when it was made. -/
def CleanHistory (cfg : Config C) (l : Ledger C) : Prop :=
  (ledger cfg).Run (Clean cfg) l.history l

/-- **The preference cache is coherent in every clean run.** For every
transaction in the DAG, `is_strongly_preferred` returns, and it returns what
`StronglyPreferred` says. -/
theorem preference_cache_coherent (cfg : Config C) {tr : List Call} {s : Decision C}
    (h : Run cfg tr s) (hclean : CleanHistory cfg s.toLedger) {t : Hash}
    (ht : s.txnDag t ≠ none) :
    ∃ N, ∀ fuel, N < fuel → ∃ l b, isStronglyPreferred fuel s.toLedger t = .ok (l, b) ∧
      (b = true ↔ StronglyPreferred s.toLedger t) := by
  have hinv : LedgerInv cfg.ids s.toLedger := (runInv_run h).hist.run.inv
  have hc : Coherent s.toLedger s.preferenceCache := by
    refine (Machine.Run.invariant
        (fun l => LedgerInv cfg.ids l ∧ Coherent l l.preferenceCache) ?_ ?_
      hclean).2
    · refine ⟨ledgerInv_new cfg.ids, fun h b hdag => absurd rfl hdag⟩
    · rintro l op l' ⟨hl, hcl⟩ hop hs
      exact ⟨ledgerInv_op hl hs, coherent_op hl hcl hop hs⟩
  refine ⟨cfg.ids.rank t, fun fuel hfuel => ?_⟩
  obtain ⟨⟨cache, b⟩, hs⟩ := stronglyPreferred_returns hinv s.preferenceCache hfuel
  exact ⟨_, b, isStronglyPreferred_eq hs, (stronglyPreferred_spec hinv hc hs).2.trans
    (stronglyPreferred_iff hinv ht).symm⟩

/-! ## Checking a run -/

/-- The transactions recorded so far. -/
def recordedIds (cfg : Config C) (l : Ledger C) : List Hash :=
  l.history.filterMap fun op =>
    match op with
    | .record txn => some (cfg.ids.txnId txn)
    | _ => none

/-- What is cached has been recorded. -/
theorem LedgerRun.mem_recordedIds {ops : List Op} {l : Ledger C} (h : LedgerRun cfg ops l)
    {x : Hash} {b : Bool} (hx : l.preferenceCache x = some b) : x ∈ recordedIds cfg l := by
  have hdag : l.txnDag x ≠ none := by
    intro hn
    rw [h.inv.cached x hn] at hx
    exact absurd hx (by simp)
  obtain ⟨node, hn⟩ := Option.ne_none_iff_exists'.mp hdag
  obtain ⟨txn, ht, -⟩ := h.inv.node x node hn
  obtain ⟨hop, hid⟩ := (h.recorded x txn).mp ht
  rw [← h.history] at hop
  exact List.mem_filterMap.mpr ⟨.record txn, hop, congrArg some hid⟩

/-- Enough for `Clean`, and looked up in the ledger: nothing cached as strongly
preferred depends on a transaction that comes, and nothing cached as not strongly
preferred on one that is accepted. No rank is above `n`. -/
def cleanCheck (cfg : Config C) (n : Nat) (l : Ledger C) (op : Op) : Bool :=
  let ids := recordedIds cfg l
  let dependsOn := fun x y => decide (y ∈ reached (up l.txnDag) n x)
  ids.all (fun x => cfg.ids.rank x ≤ n) &&
    match op with
    | .record txn =>
      ids.all fun x => !(l.preferenceCache x = some true && dependsOn x (cfg.ids.txnId txn))
    | .bump _ h _ =>
      (l.confidence h).all fun c => (l.txnPool h).all fun txn =>
        txn.utxos.all fun u => (l.conflictSets u).all fun ct =>
          ct.pref = h || !((l.confidence ct.pref).any fun c' => c' < c + 1) ||
          ids.all fun x => x ∈ reached (down l.txnDag) n h ||
            (!(l.preferenceCache x = some true && (l.txnDag ct.pref).isSome &&
                dependsOn x ct.pref) &&
              !(l.preferenceCache x = some false && dependsOn x h))
    | .accept h =>
      ids.all fun x => x = h || !(l.preferenceCache x = some false && dependsOn x h)
    | _ => true

theorem clean_of_check {ops : List Op} {l : Ledger C} (hrun : LedgerRun cfg ops l) {n : Nat}
    {op : Op} (h : cleanCheck cfg n l op = true) : Clean cfg l op := by
  obtain ⟨hrank, h⟩ := Bool.and_eq_true_iff.mp h
  have hdep : ∀ {x y : Hash} {b : Bool}, l.preferenceCache x = some b → Reach (up l.txnDag) x y →
      x ∈ recordedIds cfg l ∧ y ∈ reached (up l.txnDag) n x := by
    intro x y b hx hxy
    have hmem := hrun.mem_recordedIds hx
    have hle := of_decide_eq_true (List.all_eq_true.mp hrank x hmem)
    exact ⟨hmem, hxy.mem_reached hrun.inv.rank_up hle⟩
  cases op with
  | record txn =>
    intro hcached
    obtain ⟨x, hx, hxy⟩ := hcached
    obtain ⟨hmem, hy⟩ := hdep hx hxy
    have := List.all_eq_true.mp h x hmem
    exact absurd this (by simp [hx, hy])
  | bump slot x b =>
    intro c txn hc htxn u hu ct hct hover y hdown
    obtain ⟨hne, c', hc', hlt⟩ := hover
    simp only [hc, Option.all_some, htxn] at h
    have hset := List.all_eq_true.mp h u hu
    rw [hct] at hset
    simp only [Option.all_some, hc', Option.any_some, hne, hlt, decide_false, decide_true,
      Bool.not_true, Bool.or_false, Bool.false_or] at hset
    have hnot : y ∉ reached (down l.txnDag) n x := fun hmem => hdown (reach_of_mem_reached hmem)
    constructor
    · intro hy hdag hreach
      obtain ⟨hmem, hp⟩ := hdep hy hreach
      have := List.all_eq_true.mp hset y hmem
      exact absurd this (by simp [hnot, hy, hp, Option.isSome_iff_ne_none.mpr hdag])
    · intro hy hreach
      obtain ⟨hmem, hp⟩ := hdep hy hreach
      have := List.all_eq_true.mp hset y hmem
      exact absurd this (by simp [hnot, hy, hp])
  | accept x =>
    refine Or.inr fun y hyx hy hreach => ?_
    obtain ⟨hmem, hp⟩ := hdep hy hreach
    have := List.all_eq_true.mp h y hmem
    exact absurd this (by simp [hyx, hy, hp])
  | check => trivial
  | ask => trivial
  | reset => trivial

/-- The history of a run is clean if the check passes at every operation. -/
theorem cleanHistory_of_check {tr : List Call} {s : Decision C} (h : Run cfg tr s) (fuel n : Nat)
    (hcheck : (Machine.evaluate (makeOp cfg fuel) (cleanCheck cfg n) s.history
      (Ledger.new C)).any (fun r => r.1 = s.history) = true) : CleanHistory cfg s.toLedger := by
  obtain ⟨ops, l, hrun, hops⟩ := Machine.exists_run (M := ledger cfg) (makeOp cfg fuel)
    (fun _ _ _ _ => makeOp_step) (cleanCheck cfg n) s.history (fun r => r.1 = s.history) hcheck
  have hops := of_decide_eq_true hops
  subst hops
  -- the operations made are those of the stage, and lead to its ledger
  have hl : l = s.toLedger :=
    LedgerRun.unique (hrun.mono fun _ _ _ _ => trivial) (runInv_run h).hist.run
  subst hl
  refine hrun.strengthen fun pre op suf l _ hpre hop => ?_
  exact clean_of_check (hpre.mono fun _ _ _ _ => trivial) hop

/-- A run with a takeover. The node queries `demoSend 1`; a rival of it and a
`Send` that depends on the rival come from a peer, and are cached as not strongly
preferred. The two queries for a rival of the latter succeed. -/
def takeover : List Call :=
  [demoBlock 1 [demoSend 1], .newTail 1 [⟨1, 1, 0, [demoSend 2]⟩],
    .newTail 1 [⟨1, 2, 0, [.send [3] [8, 6] [4] 1 0 []]⟩],
    demoVote 2, demoBlock 2 [.send [3] [6] [4] 3 0 []], demoVote 3,
    demoBlock 3 [.send [3] [6] [4] 3 0 []]]

/-- The takeover is clean: the preferred transaction that is overtaken was cached
as not strongly preferred, since one of its parents is not. That is still the
answer after the new one has been accepted. -/
theorem preference_cache_coherent_demo :
    ∃ s, Run (demo avalancheRule 2 2) takeover s ∧
      CleanHistory (demo avalancheRule 2 2) s.toLedger ∧
      s.history.drop 10 = [.ask (2, 0) 10 1, .bump (2, 0) 10 false, .check 10, .ask (3, 0) 10 2,
        .bump (3, 0) 10 true, .accept 10] ∧
      (s.conflictSets (6, [3])).map ConflictSet.pref = some 10 ∧ s.preferenceCache 16 = some false ∧
      ∃ N, ∀ fuel, N < fuel → ∃ l b, isStronglyPreferred fuel s.toLedger 16 = .ok (l, b) ∧
        (b = true ↔ StronglyPreferred s.toLedger 16) := by
  have hcheck : returns (runCalls (demo avalancheRule 2 2) 20 takeover) (fun s =>
      (Machine.evaluate (makeOp (demo avalancheRule 2 2) 20)
        (cleanCheck (demo avalancheRule 2 2) 16) s.history (Ledger.new Streak)).any
          (fun r => r.1 = s.history) &&
      s.history.drop 10 = [.ask (2, 0) 10 1, .bump (2, 0) 10 false, .check 10, .ask (3, 0) 10 2,
        .bump (3, 0) 10 true, .accept 10] &&
      (s.conflictSets (6, [3])).map ConflictSet.pref = some 10 &&
      s.preferenceCache 16 = some false && (s.txnDag 16).isSome) = true := by
    decide +kernel
  obtain ⟨s, hs, hcheck⟩ := returns_iff.mp hcheck
  simp only [Bool.and_eq_true, decide_eq_true_eq] at hcheck
  obtain ⟨⟨⟨⟨hclean, hhist⟩, hpref⟩, hcached⟩, hdag⟩ := hcheck
  have hrun := run_of_runCalls hs
  have hclean := cleanHistory_of_check hrun 20 16 hclean
  exact ⟨s, hrun, hclean, hhist, hpref, hcached,
    preference_cache_coherent _ hrun hclean (Option.isSome_iff_ne_none.mp hdag)⟩

/-- **A stale answer.** The node queries one `Send` and caches that it is
strongly preferred; two queries for a conflicting one succeed, and the conflict
set goes over to it. The first `Send` is preferred no longer, but
`is_strongly_preferred` still answers that it is. -/
theorem stale_preference :
    ∃ s, Run (demo avalancheRule 10 10)
      [demoBlock 1 [demoSend 1], demoVote 2, demoBlock 2 [demoSend 2], demoVote 3,
        demoBlock 3 [demoSend 2]] s ∧
      s.txnDag 7 ≠ none ∧ (∃ l, isStronglyPreferred 20 s.toLedger 7 = .ok (l, true)) ∧
      ¬ StronglyPreferred s.toLedger 7 := by
  have hcheck : returns (runCalls (demo avalancheRule 10 10) 20
      [demoBlock 1 [demoSend 1], demoVote 2, demoBlock 2 [demoSend 2], demoVote 3,
        demoBlock 3 [demoSend 2]]) (fun s =>
        (s.txnDag 7).isSome && s.txnPool 7 = some (demoSend 1) &&
        (s.conflictSets (5, [1])).map ConflictSet.pref = some 8 &&
        returns (isStronglyPreferred 20 s.toLedger 7) (fun r => r.2)) = true := by
    decide +kernel
  obtain ⟨s, hs, hcheck⟩ := returns_iff.mp hcheck
  simp only [Bool.and_eq_true, decide_eq_true_eq] at hcheck
  obtain ⟨⟨⟨hdag, hpool⟩, hpref⟩, hans⟩ := hcheck
  obtain ⟨⟨l, b⟩, hl, rfl⟩ := returns_iff.mp hans
  refine ⟨s, run_of_runCalls hs, Option.isSome_iff_ne_none.mp hdag, ⟨l, hl⟩, ?_⟩
  rintro ⟨-, hp, -⟩
  obtain ⟨ct, hct, hp⟩ := hp _ hpool (5, [1]) (by decide)
  rw [hct, Option.map_some, Option.some.injEq, hp] at hpref
  exact absurd hpref (by decide)

end Copycat.Avalanche
