import Copycat.Avalanche.Management

/-!
# What `validate_block` does to the positions of a block

A peer block is gone through twice. The first pass (`filterTxn`) settles a
position if it can: the transaction is in the pool, or it is not one for the
pool, or it fails the value check and a placeholder is put in its place. What
misses parents is left for the second pass (`recheckTxn`), which is made once
the proposer has sent these, level by level, deepest first.

`Rejected` says which transactions end up as placeholders, in terms of what
the node knew when the block arrived: those that fail the value check and
those that descend from one through transactions the node did not know.
`Parked` is the invariant of a level: every position is settled or waits for
parents that are known or asked for. After the second pass over a level whose
missing parents are `Resolved`, all of it is settled (`recheckLoop_spec`),
and so the level is resolved for the one above it.
-/

namespace Copycat.Avalanche

open Copycat.Lib

variable {ids : UniqueIds}

/-- The transaction fails the value check against its parents. -/
def FailsCheck (ids : UniqueIds) (t : AvalancheTxn) : Prop :=
  ∃ parents, parents.map ids.txnId = (avalancheKind ids).deps t ∧
    (avalancheKind ids).check t parents = .ok false

/-- The transaction passes it. -/
def PassesCheck (ids : UniqueIds) (t : AvalancheTxn) : Prop :=
  ∃ parents, parents.map ids.txnId = (avalancheKind ids).deps t ∧
    (avalancheKind ids).check t parents = .ok true

/-- A transaction that fails, or an ancestor of it does, with no known
transaction from the one to the other. -/
inductive Rejected (ids : UniqueIds) (known : Set AvalancheTxn) : AvalancheTxn → Prop
  | fails {t : AvalancheTxn} : t ∉ known → FailsCheck ids t → Rejected ids known t
  | parent {t p : AvalancheTxn} : t ∉ known → ids.txnId p ∈ (avalancheKind ids).deps t →
      Rejected ids known p → Rejected ids known t

theorem Rejected.unknown {known : Set AvalancheTxn} {t : AvalancheTxn} (h : Rejected ids known t) :
    t ∉ known := by
  cases h with
  | fails ht _ => exact ht
  | parent ht _ _ => exact ht

/-- Whoever knows more rejects less. -/
theorem Rejected.anti {known known' : Set AvalancheTxn} (hsub : known ⊆ known') {t : AvalancheTxn}
    (h : Rejected ids known' t) : Rejected ids known t := by
  induction h with
  | fails ht hfails => exact .fails (fun hin => ht (hsub hin)) hfails
  | parent ht hp _ ih => exact .parent (fun hin => ht (hsub hin)) hp ih

/-- The parents of a transaction are determined by their ids, so it cannot both
pass and fail. -/
theorem PassesCheck.not_fails {t : AvalancheTxn} (h : PassesCheck ids t) : ¬ FailsCheck ids t := by
  intro hfails
  obtain ⟨parents, hids, hcheck⟩ := h
  obtain ⟨parents', hids', hcheck'⟩ := hfails
  have he : parents = parents' :=
    List.map_injective_iff.mpr ids.txnId_inj (hids.trans hids'.symm)
  rw [he, hcheck'] at hcheck
  exact absurd hcheck (by simp)

/-- Protocol-made transactions are not rejected. -/
theorem Rejected.fromClient {known : Set AvalancheTxn} {t : AvalancheTxn}
    (h : Rejected ids known t) : t.fromClient := by
  have hdeps : ∀ {h}, h ∈ (avalancheKind ids).deps t → t.fromClient := by
    intro h hh
    cases t with
    | send => rfl
    | grant => rfl
    | noop => exact absurd hh (by simp [avalancheKind])
    | placeHolder => exact absurd hh (by simp [avalancheKind])
  cases h with
  | parent _ hp _ => exact hdeps hp
  | fails _ hfails =>
    obtain ⟨parents, -, hcheck⟩ := hfails
    cases t with
    | send => rfl
    | grant => rfl
    | noop => exact absurd hcheck (by simp [avalancheKind])
    | placeHolder => exact absurd hcheck (by simp [avalancheKind])

/-! ## The pool -/

/-- The pool holds Grants and Sends, under their ids. -/
def FiledPool (ids : UniqueIds) (pool : Hash → Option AvalancheTxn) : Prop :=
  ∀ h t, pool h = some t → ids.txnId t = h ∧ t.fromClient

/-- The transactions of a pool. -/
def knownIn (ids : UniqueIds) (pool : Hash → Option AvalancheTxn) : Set AvalancheTxn :=
  fun t => pool (ids.txnId t) = some t

theorem FiledPool.mem {pool : Hash → Option AvalancheTxn} (h : FiledPool ids pool)
    {t : AvalancheTxn} (ht : (pool (ids.txnId t)).isSome) : t ∈ knownIn ids pool := by
  obtain ⟨t', ht'⟩ := Option.isSome_iff_exists.mp ht
  have he : t' = t := ids.txnId_inj (h _ _ ht').1
  show pool (ids.txnId t) = some t
  rw [ht', he]

/-- What `validate_txn` says about a transaction. -/
inductive Verdict (ids : UniqueIds) (pool : Hash → Option AvalancheTxn) (t : AvalancheTxn) :
    Except (List Hash) Bool → Prop
  | valid : (∀ h ∈ (avalancheKind ids).deps t, (pool h).isSome) → PassesCheck ids t →
      Verdict ids pool t (.ok true)
  | invalid : FailsCheck ids t → Verdict ids pool t (.ok false)
  | missing {missing : List Hash} : missing ≠ [] →
      (∀ h, h ∈ missing ↔ h ∈ (avalancheKind ids).deps t ∧ (pool h).isNone) →
      Verdict ids pool t (.error missing)

theorem FiledPool.validator {pool : Hash → Option AvalancheTxn} (h : FiledPool ids pool) :
    Validator.Filed (avalancheKind ids) ⟨pool, fun _ => none⟩ where
  pool x t ht := (h x t ht).1
  entries d l hl := absurd hl (by simp)

theorem validateTxn_spec {pool : Hash → Option AvalancheTxn} (hpool : FiledPool ids pool)
    {t : AvalancheTxn} (ht : t.fromClient) :
    ∃ res, BlockManagement.validateTxn pool t = .ok res ∧ Verdict ids pool t res := by
  cases t with
  | noop => exact absurd ht (by simp [AvalancheTxn.fromClient])
  | placeHolder => exact absurd ht (by simp [AvalancheTxn.fromClient])
  | grant outUtxo receiver nonce =>
    exact ⟨_, rfl, .valid (fun h hh => absurd hh (by simp [avalancheKind])) ⟨[], rfl, rfl⟩⟩
  | send sender inUtxo receiver outUtxo remainder signature =>
    rw [BlockManagement.validateTxn]
    have hmem : ∀ h, h ∈ inUtxo.filter (fun h => (pool h).isNone) ↔
        h ∈ inUtxo ∧ (pool h).isNone := fun h => List.mem_filter
    split
    · rename_i hlen
      exact ⟨_, rfl, .missing (List.ne_nil_of_length_pos hlen) hmem⟩
    · rename_i hlen
      have hall : ∀ h ∈ inUtxo, (pool h).isSome := by
        intro h hh
        by_contra hno
        have := List.length_pos_of_mem ((hmem h).mpr ⟨hh, by simpa using hno⟩)
        omega
      have hparents : (inUtxo.filterMap pool).map ids.txnId = inUtxo :=
        hpool.validator.parents hall
      have hclients : ∀ p ∈ inUtxo.filterMap pool, p.fromClient := by
        intro p hp
        obtain ⟨h, -, hp⟩ := List.mem_filterMap.mp hp
        exact (hpool h p hp).2
      obtain ⟨v, hv⟩ := AvalancheTxn.parentsValue_returns sender 0 hclients
      refine ⟨_, bind_eq_ok.mpr ⟨v, hv, rfl⟩, ?_⟩
      have hcheck : (avalancheKind ids).check
          (.send sender inUtxo receiver outUtxo remainder signature) (inUtxo.filterMap pool) =
          .ok (v = some (outUtxo + remainder)) := bind_eq_ok.mpr ⟨v, hv, rfl⟩
      cases hb : decide (v = some (outUtxo + remainder)) with
      | true => exact .valid hall ⟨_, hparents, by rw [hcheck, hb]⟩
      | false => exact .invalid ⟨_, hparents, by rw [hcheck, hb]⟩

/-- Nothing is taken out of the pool, or replaced. -/
def Grows (pool pool' : Hash → Option AvalancheTxn) : Prop :=
  ∀ h t, pool h = some t → pool' h = some t

theorem Grows.isSome {pool pool' : Hash → Option AvalancheTxn} (h : Grows pool pool') {x : Hash}
    (hx : (pool x).isSome) : (pool' x).isSome := by
  obtain ⟨t, ht⟩ := Option.isSome_iff_exists.mp hx
  rw [h x t ht]
  rfl

theorem grows_insert {pool : Hash → Option AvalancheTxn} {x : Hash} (hnew : (pool x).isNone)
    (t : AvalancheTxn) : Grows pool (Function.update pool x (some t)) := by
  intro y t' ht'
  rw [Function.update_of_ne, ht']
  rintro rfl
  rw [ht'] at hnew
  exact absurd hnew (by simp)

/-- How a pool that was `pool₀` has grown: it holds nothing that is rejected by
someone who knows `known`. -/
structure PoolInv (ids : UniqueIds) (known : Set AvalancheTxn)
    (pool₀ pool : Hash → Option AvalancheTxn) : Prop where
  grows : Grows pool₀ pool
  filed : FiledPool ids pool
  sound : ∀ h t, pool h = some t → ¬ Rejected ids known t

theorem poolInv_refl {pool : Hash → Option AvalancheTxn} (h : FiledPool ids pool) :
    PoolInv ids (knownIn ids pool) pool pool where
  grows _ _ ht := ht
  filed := h
  sound x t ht hrej := hrej.unknown (by
    show pool (ids.txnId t) = some t
    rw [(h x t ht).1, ht])

theorem PoolInv.mono {known known' : Set AvalancheTxn} {pool₀ pool : Hash → Option AvalancheTxn}
    (h : PoolInv ids known pool₀ pool) (hsub : known ⊆ known') :
    PoolInv ids known' pool₀ pool where
  grows := h.grows
  filed := h.filed
  sound x t ht hrej := h.sound x t ht (hrej.anti hsub)

/-- A new transaction that is not rejected. -/
theorem PoolInv.insert {known : Set AvalancheTxn} {pool₀ pool : Hash → Option AvalancheTxn}
    (h : PoolInv ids known pool₀ pool) {t : AvalancheTxn} (hnew : (pool (ids.txnId t)).isNone)
    (hclient : t.fromClient) (hsound : ¬ Rejected ids known t) :
    PoolInv ids known pool₀ (Function.update pool (ids.txnId t) (some t)) where
  grows x t' ht' := grows_insert hnew t x t' (h.grows x t' ht')
  filed x t' ht' := by
    by_cases hx : x = ids.txnId t
    · rw [hx, Function.update_self, Option.some.injEq] at ht'
      rw [← ht', hx]
      exact ⟨rfl, hclient⟩
    · rw [Function.update_of_ne hx] at ht'
      exact h.filed x t' ht'
  sound x t' ht' := by
    by_cases hx : x = ids.txnId t
    · rw [hx, Function.update_self, Option.some.injEq] at ht'
      rw [← ht']
      exact hsound
    · rw [Function.update_of_ne hx] at ht'
      exact h.sound x t' ht'

/-- A transaction that passes and has its parents in the pool is not
rejected. -/
theorem PoolInv.not_rejected {known : Set AvalancheTxn} {pool₀ pool : Hash → Option AvalancheTxn}
    (h : PoolInv ids known pool₀ pool) {t : AvalancheTxn}
    (hall : ∀ x ∈ (avalancheKind ids).deps t, (pool x).isSome) (hpass : PassesCheck ids t) :
    ¬ Rejected ids known t := by
  intro hrej
  cases hrej with
  | fails _ hfails => exact hpass.not_fails hfails
  | @parent _ p _ hp hrej => exact h.sound _ p (h.filed.mem (hall _ hp)) hrej

/-! ## Positions -/

/-- What has become of a position that is dealt with: it holds the original,
which is in the pool or none for the pool, or a placeholder for a rejected
one. -/
inductive Settled (ids : UniqueIds) (known : Set AvalancheTxn) (pool : Hash → Option AvalancheTxn)
    (t : AvalancheTxn) : AvalancheTxn → Prop
  | kept : t.fromClient = false → Settled ids known pool t t
  | pooled : t ∈ knownIn ids pool → Settled ids known pool t t
  | rejected : Rejected ids known t → Settled ids known pool t .placeHolder

/-- The transaction misses parents, all of which are asked for. -/
def Waits (ids : UniqueIds) (pool : Hash → Option AvalancheTxn) (asked : List Hash)
    (t : AvalancheTxn) : Prop :=
  (avalancheKind ids).deps t ≠ [] ∧
    ∀ h ∈ (avalancheKind ids).deps t, (pool h).isSome ∨ h ∈ asked

/-- The positions of a block, with those in `todo` still to be rechecked. -/
structure Parked (ids : UniqueIds) (known : Set AvalancheTxn) (pool : Hash → Option AvalancheTxn)
    (orig : List AvalancheTxn) (asked : List Hash) (txns : List AvalancheTxn) (todo : List Nat) :
    Prop where
  length : txns.length = orig.length
  bound : ∀ i ∈ todo, i < orig.length
  position : ∀ i t out, orig[i]? = some t → txns[i]? = some out →
    Settled ids known pool t out ∨ (i ∈ todo ∧ out = t ∧ Waits ids pool asked t)

theorem Settled.mono {known : Set AvalancheTxn} {pool pool' : Hash → Option AvalancheTxn}
    (hgrow : Grows pool pool') {t out : AvalancheTxn} (h : Settled ids known pool t out) :
    Settled ids known pool' t out := by
  cases h with
  | kept ht => exact .kept ht
  | pooled ht => exact .pooled (hgrow _ _ ht)
  | rejected ht => exact .rejected ht

theorem Waits.mono {pool pool' : Hash → Option AvalancheTxn} (hgrow : Grows pool pool')
    {asked asked' : List Hash} (hsub : ∀ h ∈ asked, h ∈ asked') {t : AvalancheTxn}
    (h : Waits ids pool asked t) : Waits ids pool' asked' t := by
  refine ⟨h.1, fun x hx => ?_⟩
  rcases h.2 x hx with hin | hin
  · exact Or.inl (hgrow.isSome hin)
  · exact Or.inr (hsub x hin)

theorem Parked.mono {known : Set AvalancheTxn} {pool pool' : Hash → Option AvalancheTxn}
    (hgrow : Grows pool pool') {orig txns : List AvalancheTxn} {asked : List Hash} {todo : List Nat}
    (h : Parked ids known pool orig asked txns todo) :
    Parked ids known pool' orig asked txns todo where
  length := h.length
  bound := h.bound
  position i t out ht hout := by
    rcases h.position i t out ht hout with hs | ⟨hi, ho, hw⟩
    · exact Or.inl (hs.mono hgrow)
    · exact Or.inr ⟨hi, ho, hw.mono hgrow fun _ h => h⟩

/-- With nothing left to recheck, all positions are settled. -/
theorem Parked.settled {known : Set AvalancheTxn} {pool : Hash → Option AvalancheTxn}
    {orig txns : List AvalancheTxn} {asked : List Hash}
    (h : Parked ids known pool orig asked txns [])
    {i : Nat} {t out : AvalancheTxn} (ht : orig[i]? = some t) (hout : txns[i]? = some out) :
    Settled ids known pool t out := by
  rcases h.position i t out ht hout with hs | ⟨hi, -, -⟩
  · exact hs
  · exact absurd hi (by simp)

/-- The transactions of a settled block: known by now, or rejected. -/
def Resolved (ids : UniqueIds) (known : Set AvalancheTxn) (pool : Hash → Option AvalancheTxn)
    (orig : List AvalancheTxn) : Prop :=
  ∀ t ∈ orig, t.fromClient → t ∈ knownIn ids pool ∨ Rejected ids known t

theorem Parked.resolved {known : Set AvalancheTxn} {pool : Hash → Option AvalancheTxn}
    {orig txns : List AvalancheTxn} {asked : List Hash}
    (h : Parked ids known pool orig asked txns []) : Resolved ids known pool orig := by
  intro t ht hclient
  obtain ⟨i, hi⟩ := List.mem_iff_getElem?.mp ht
  obtain ⟨hlt, -⟩ := List.getElem?_eq_some_iff.mp hi
  obtain ⟨out, hout⟩ : ∃ out, txns[i]? = some out :=
    ⟨_, List.getElem?_eq_getElem (h.length ▸ hlt)⟩
  cases h.settled hi hout with
  | kept hkept => rw [hclient] at hkept; exact absurd hkept (by simp)
  | pooled hin => exact Or.inl hin
  | rejected hrej => exact Or.inr hrej

/-! ## The first pass -/

/-- After the first pass over `done`. -/
structure FilterInv (ids : UniqueIds) (known : Set AvalancheTxn)
    (pool₀ : Hash → Option AvalancheTxn) (done : List AvalancheTxn)
    (f : BlockManagement.Filtered) : Prop where
  pool : PoolInv ids known pool₀ f.dag.1.txnPool
  parked : Parked ids (knownIn ids pool₀) f.dag.1.txnPool done f.missingDeps f.txns f.recheckIdx
  missing : ∀ h ∈ f.missingDeps, ∃ t ∈ done, h ∈ (avalancheKind ids).deps t
  asks : f.recheckIdx ≠ [] → f.missingDeps ≠ []

/-- One more position. -/
theorem Parked.snoc {known : Set AvalancheTxn} {pool pool' : Hash → Option AvalancheTxn}
    {done txns : List AvalancheTxn} {asked asked' : List Hash} {todo todo' : List Nat}
    (h : Parked ids known pool done asked txns todo) (hgrow : Grows pool pool')
    (hasked : ∀ x ∈ asked, x ∈ asked') (hsub : ∀ i ∈ todo, i ∈ todo')
    (htodo : ∀ i ∈ todo', i ∈ todo ∨ i = done.length) {t out : AvalancheTxn}
    (hpos : Settled ids known pool' t out ∨
      (done.length ∈ todo' ∧ out = t ∧ Waits ids pool' asked' t)) :
    Parked ids known pool' (done ++ [t]) asked' (txns ++ [out]) todo' where
  length := by rw [List.length_append, List.length_append, h.length]; rfl
  bound i hi := by
    rw [List.length_append]
    rcases htodo i hi with hi | rfl
    · exact Nat.lt_add_right _ (h.bound i hi)
    · exact Nat.lt_succ_self _
  position i t' out' ht' hout' := by
    rcases Nat.lt_trichotomy i done.length with hlt | rfl | hgt
    · rw [List.getElem?_append_left hlt] at ht'
      rw [List.getElem?_append_left (h.length ▸ hlt)] at hout'
      rcases h.position i t' out' ht' hout' with hs | ⟨hi, ho, hw⟩
      · exact Or.inl (hs.mono hgrow)
      · exact Or.inr ⟨hsub i hi, ho, hw.mono hgrow hasked⟩
    · rw [List.getElem?_concat_length, Option.some.injEq] at ht'
      rw [← h.length, List.getElem?_concat_length, Option.some.injEq] at hout'
      exact ht' ▸ hout' ▸ hpos
    · rw [List.getElem?_eq_none (by simp; omega)] at ht'
      exact absurd ht' (by simp)

/-- A position that is settled on the spot. -/
theorem FilterInv.settle {known : Set AvalancheTxn} {pool₀ : Hash → Option AvalancheTxn}
    {done : List AvalancheTxn} {f : BlockManagement.Filtered}
    (h : FilterInv ids known pool₀ done f) (dag : ProposalDag × List Hash)
    (hpool : PoolInv ids known pool₀ dag.1.txnPool) (hgrow : Grows f.dag.1.txnPool dag.1.txnPool)
    {t out : AvalancheTxn} (hout : Settled ids (knownIn ids pool₀) dag.1.txnPool t out) :
    FilterInv ids known pool₀ (done ++ [t])
      { f with dag := dag, txns := f.txns ++ [out] } where
  pool := hpool
  parked := h.parked.snoc hgrow (fun _ h => h) (fun _ h => h) (fun _ h => Or.inl h) (Or.inl hout)
  missing x hx := by
    obtain ⟨p, hp, hdep⟩ := h.missing x hx
    exact ⟨p, List.mem_append_left _ hp, hdep⟩
  asks := h.asks

/-- A position that has to wait. -/
theorem FilterInv.wait {known : Set AvalancheTxn} {pool₀ : Hash → Option AvalancheTxn}
    {done : List AvalancheTxn} {f : BlockManagement.Filtered}
    (h : FilterInv ids known pool₀ done f) {t : AvalancheTxn} {missing : List Hash}
    (hne : missing ≠ [])
    (hmissing : ∀ x, x ∈ missing ↔ x ∈ (avalancheKind ids).deps t ∧ (f.dag.1.txnPool x).isNone) :
    FilterInv ids known pool₀ (done ++ [t])
      { f with
        txns := f.txns ++ [t]
        missingDeps := f.missingDeps ++ missing
        recheckIdx := f.recheckIdx ++ [done.length] } where
  pool := h.pool
  parked := by
    refine h.parked.snoc (fun _ _ h => h) (fun _ h => List.mem_append_left _ h)
      (fun _ h => List.mem_append_left _ h) (fun i hi => ?_)
      (Or.inr ⟨List.mem_append_right _ (List.mem_singleton.mpr rfl), rfl, ?_, fun x hx => ?_⟩)
    · rcases List.mem_append.mp hi with hi | hi
      · exact Or.inl hi
      · exact Or.inr (List.mem_singleton.mp hi)
    · obtain ⟨x, hx⟩ := List.exists_mem_of_ne_nil _ hne
      exact List.ne_nil_of_mem ((hmissing x).mp hx).1
    · cases hpool : f.dag.1.txnPool x with
      | some p => exact Or.inl rfl
      | none => exact Or.inr (List.mem_append_right _ ((hmissing x).mpr ⟨hx, by rw [hpool]; rfl⟩))
  missing x hx := by
    rcases List.mem_append.mp hx with hx | hx
    · obtain ⟨p, hp, hdep⟩ := h.missing x hx
      exact ⟨p, List.mem_append_left _ hp, hdep⟩
    · exact ⟨t, List.mem_append_right _ (List.mem_singleton.mpr rfl), ((hmissing x).mp hx).1⟩
  asks _ := by
    obtain ⟨x, hx⟩ := List.exists_mem_of_ne_nil _ hne
    exact List.ne_nil_of_mem (List.mem_append_right _ hx)

/-- A transaction outside the pool was not in it at the start either. -/
theorem PoolInv.not_known {known : Set AvalancheTxn} {pool₀ pool : Hash → Option AvalancheTxn}
    (h : PoolInv ids known pool₀ pool) {t : AvalancheTxn} (hnew : (pool (ids.txnId t)).isNone) :
    t ∉ knownIn ids pool₀ := by
  intro hin
  rw [h.grows _ _ hin] at hnew
  exact absurd hnew (by simp)

/-- Adding a transaction that passes. -/
theorem PoolInv.addTxn {known : Set AvalancheTxn} {pool₀ : Hash → Option AvalancheTxn}
    {dag : ProposalDag × List Hash} (h : PoolInv ids known pool₀ dag.1.txnPool) {t : AvalancheTxn}
    (hnew : (dag.1.txnPool (ids.txnId t)).isNone) (hclient : t.fromClient)
    (hall : ∀ x ∈ (avalancheKind ids).deps t, (dag.1.txnPool x).isSome)
    (hpass : PassesCheck ids t) :
    PoolInv ids known pool₀ (BlockManagement.addTxn ids dag t).1.txnPool ∧
      Grows dag.1.txnPool (BlockManagement.addTxn ids dag t).1.txnPool ∧
      t ∈ knownIn ids (BlockManagement.addTxn ids dag t).1.txnPool :=
  ⟨h.insert hnew hclient (h.not_rejected hall hpass), grows_insert hnew t, Function.update_self ..⟩

/-- One position of the first pass. -/
theorem filterTxn_spec {known : Set AvalancheTxn} {pool₀ : Hash → Option AvalancheTxn}
    {done : List AvalancheTxn} {f : BlockManagement.Filtered}
    (h : FilterInv ids known pool₀ done f) (t : AvalancheTxn) :
    ∃ f', BlockManagement.filterTxn ids f (t, done.length) = .ok f' ∧
      FilterInv ids known pool₀ (done ++ [t]) f' := by
  unfold BlockManagement.filterTxn
  dsimp only
  split
  · rename_i hin
    have hset : Settled ids (knownIn ids pool₀) f.dag.1.txnPool t t :=
      .pooled (h.pool.filed.mem hin)
    have hsettle := fun frontier => h.settle (f.dag.1, frontier) h.pool (fun _ _ h => h) hset
    exact ⟨_, rfl, hsettle _⟩
  · rename_i hnew
    have hnew : (f.dag.1.txnPool (ids.txnId t)).isNone := by simpa using hnew
    have hunknown := h.pool.not_known hnew
    have hadd : (∀ x ∈ (avalancheKind ids).deps t, (f.dag.1.txnPool x).isSome) →
        PassesCheck ids t → t.fromClient → FilterInv ids known pool₀ (done ++ [t])
          { f with dag := BlockManagement.addTxn ids f.dag t, txns := f.txns ++ [t] } := by
      intro hall hpass hclient
      obtain ⟨hpool, hgrow, hin⟩ := h.pool.addTxn hnew hclient hall hpass
      exact h.settle _ hpool hgrow (.pooled hin)
    cases t with
    | noop parents => exact ⟨_, rfl, h.settle f.dag h.pool (fun _ _ h => h) (.kept rfl)⟩
    | placeHolder => exact ⟨_, rfl, h.settle f.dag h.pool (fun _ _ h => h) (.kept rfl)⟩
    | grant outUtxo receiver nonce =>
      exact ⟨_, rfl, hadd (fun x hx => absurd hx (by simp [avalancheKind])) ⟨[], rfl, rfl⟩ rfl⟩
    | send sender inUtxo receiver outUtxo remainder signature =>
      obtain ⟨res, hres, hverdict⟩ := validateTxn_spec h.pool.filed
        (t := .send sender inUtxo receiver outUtxo remainder signature) rfl
      dsimp only
      rw [hres]
      cases hverdict with
      | valid hall hpass => exact ⟨_, rfl, hadd hall hpass rfl⟩
      | invalid hfails =>
        exact ⟨_, rfl, h.settle f.dag h.pool (fun _ _ h => h) (.rejected (.fails hunknown hfails))⟩
      | missing hne hmissing => exact ⟨_, rfl, h.wait hne hmissing⟩

/-- The first pass. -/
theorem filterLoop_spec {known : Set AvalancheTxn} {pool₀ : Hash → Option AvalancheTxn}
    (txns : List AvalancheTxn) :
    ∀ {done : List AvalancheTxn} {f : BlockManagement.Filtered}, FilterInv ids known pool₀ done f →
      ∃ f', (txns.zipIdx done.length).foldlM (BlockManagement.filterTxn ids) f = .ok f' ∧
        FilterInv ids known pool₀ (done ++ txns) f' := by
  induction txns with
  | nil =>
    intro done f h
    exact ⟨f, rfl, by rwa [List.append_nil]⟩
  | cons t txns ih =>
    intro done f h
    obtain ⟨f₁, hf₁, h₁⟩ := filterTxn_spec h t
    obtain ⟨f', hf', h'⟩ := ih h₁
    refine ⟨f', ?_, by rwa [List.append_assoc] at h'⟩
    rw [List.zipIdx_cons, List.foldlM_cons, bind_eq_ok]
    rw [List.length_append] at hf'
    exact ⟨f₁, hf₁, hf'⟩

theorem filterInv_nil {known : Set AvalancheTxn} {pool₀ : Hash → Option AvalancheTxn}
    (dag : ProposalDag × List Hash) (h : PoolInv ids known pool₀ dag.1.txnPool) :
    FilterInv ids known pool₀ [] ⟨dag, [], [], []⟩ where
  pool := h
  parked :=
    { length := rfl
      bound := by simp
      position := by simp }
  missing := by simp
  asks h := absurd rfl h

/-! ## The second pass -/

/-- The next position is dealt with, and holds `out` now. -/
theorem Parked.settle {known : Set AvalancheTxn} {pool pool' : Hash → Option AvalancheTxn}
    {orig txns : List AvalancheTxn} {asked : List Hash} {i : Nat} {todo : List Nat}
    (h : Parked ids known pool orig asked txns (i :: todo)) (hgrow : Grows pool pool')
    {t out : AvalancheTxn} (ht : orig[i]? = some t) (hset : Settled ids known pool' t out) :
    Parked ids known pool' orig asked (txns.set i out) todo where
  length := by rw [List.length_set, h.length]
  bound j hj := h.bound j (List.mem_cons_of_mem _ hj)
  position j t' out' ht' hout' := by
    have hlt := h.bound i (List.mem_cons_self ..)
    by_cases hj : j = i
    · subst hj
      rw [ht, Option.some.injEq] at ht'
      rw [List.getElem?_set_self (h.length.symm ▸ hlt), Option.some.injEq] at hout'
      exact Or.inl (ht' ▸ hout' ▸ hset)
    · rw [List.getElem?_set_ne (fun e => hj e.symm)] at hout'
      rcases h.position j t' out' ht' hout' with hs | ⟨hmem, ho, hw⟩
      · exact Or.inl (hs.mono hgrow)
      · exact Or.inr ⟨(List.mem_cons.mp hmem).resolve_left hj, ho, hw.mono hgrow fun _ h => h⟩

/-- The next position keeps what it holds. -/
theorem Parked.keep {known : Set AvalancheTxn} {pool pool' : Hash → Option AvalancheTxn}
    {orig txns : List AvalancheTxn} {asked : List Hash} {i : Nat} {todo : List Nat}
    (h : Parked ids known pool orig asked txns (i :: todo)) (hgrow : Grows pool pool')
    {t out : AvalancheTxn} (ht : orig[i]? = some t) (hout : txns[i]? = some out)
    (hset : Settled ids known pool' t out) : Parked ids known pool' orig asked txns todo := by
  obtain ⟨hlt, rfl⟩ := List.getElem?_eq_some_iff.mp hout
  have hkept := h.settle hgrow ht hset
  rwa [List.set_getElem_self] at hkept

/-- With the parents that were asked for resolved, one that is still missing
has been rejected, and so is the transaction. -/
theorem Waits.rejected {known : Set AvalancheTxn} {pool : Hash → Option AvalancheTxn}
    {asked : List Hash} {t : AvalancheTxn} (h : Waits ids pool asked t)
    (hasked : ∀ x ∈ asked, (pool x).isSome ∨ ∃ p, ids.txnId p = x ∧ Rejected ids known p)
    (hunknown : t ∉ known) {x : Hash} (hdep : x ∈ (avalancheKind ids).deps t)
    (hnone : (pool x).isNone) : Rejected ids known t := by
  have hno : ¬ (pool x).isSome := by simpa using hnone
  rcases hasked x ((h.2 x hdep).resolve_left hno) with hin | ⟨p, rfl, hrej⟩
  · exact absurd hin hno
  · exact .parent hunknown hdep hrej

/-- One position of the second pass, with the missing parents resolved. -/
theorem recheckTxn_spec {known : Set AvalancheTxn} {pool₀ : Hash → Option AvalancheTxn}
    {dag : ProposalDag × List Hash} {orig txns : List AvalancheTxn} {asked : List Hash} {i : Nat}
    {todo : List Nat} (hpool : PoolInv ids known pool₀ dag.1.txnPool)
    (h : Parked ids (knownIn ids pool₀) dag.1.txnPool orig asked txns (i :: todo))
    (hasked : ∀ x ∈ asked, (dag.1.txnPool x).isSome ∨
      ∃ p, ids.txnId p = x ∧ Rejected ids (knownIn ids pool₀) p) :
    ∃ r, BlockManagement.recheckTxn ids (dag, txns) i = .ok r ∧
      PoolInv ids known pool₀ r.1.1.txnPool ∧ Grows dag.1.txnPool r.1.1.txnPool ∧
      Parked ids (knownIn ids pool₀) r.1.1.txnPool orig asked r.2 todo := by
  have hlt := h.bound i (List.mem_cons_self ..)
  obtain ⟨t, ht⟩ : ∃ t, orig[i]? = some t := ⟨_, List.getElem?_eq_getElem hlt⟩
  obtain ⟨out, hout⟩ : ∃ out, txns[i]? = some out :=
    ⟨_, List.getElem?_eq_getElem (h.length.symm ▸ hlt)⟩
  have hsame : Settled ids (knownIn ids pool₀) dag.1.txnPool t out →
      PoolInv ids known pool₀ dag.1.txnPool ∧ Grows dag.1.txnPool dag.1.txnPool ∧
      Parked ids (knownIn ids pool₀) dag.1.txnPool orig asked txns todo :=
    fun hset => ⟨hpool, fun _ _ h => h, h.keep (fun _ _ h => h) ht hout hset⟩
  unfold BlockManagement.recheckTxn
  dsimp only
  rw [hout]
  show ∃ r, (if (dag.1.txnPool (ids.txnId out)).isSome = true then _ else _) = _ ∧ _
  rcases h.position i t out ht hout with hset | ⟨-, rfl, hwaits⟩
  · -- it was settled before
    split
    · exact ⟨_, rfl, hsame hset⟩
    · rename_i hnew
      cases hset with
      | kept hkept =>
        cases t with
        | send => exact absurd hkept (by simp [AvalancheTxn.fromClient])
        | grant => exact absurd hkept (by simp [AvalancheTxn.fromClient])
        | noop => exact ⟨_, rfl, hsame (.kept rfl)⟩
        | placeHolder => exact ⟨_, rfl, hsame (.kept rfl)⟩
      | pooled hin => exact absurd (by rw [show dag.1.txnPool _ = some t from hin]; rfl) hnew
      | rejected hrej => exact ⟨_, rfl, hsame (.rejected hrej)⟩
  · split
    · rename_i hin
      exact ⟨_, rfl, hsame (.pooled (hpool.filed.mem hin))⟩
    · rename_i hnew
      have hnew : (dag.1.txnPool (ids.txnId out)).isNone := by simpa using hnew
      have hunknown := hpool.not_known hnew
      have hreplace : Rejected ids (knownIn ids pool₀) out →
          Parked ids (knownIn ids pool₀) dag.1.txnPool orig asked (txns.set i .placeHolder) todo :=
        fun hrej => h.settle (fun _ _ h => h) ht (.rejected hrej)
      cases out with
      | grant => exact absurd rfl hwaits.1
      | noop => exact absurd rfl hwaits.1
      | placeHolder => exact absurd rfl hwaits.1
      | send sender inUtxo receiver outUtxo remainder signature =>
        obtain ⟨res, hres, hverdict⟩ := validateTxn_spec hpool.filed
          (t := .send sender inUtxo receiver outUtxo remainder signature) rfl
        dsimp only
        rw [hres]
        cases hverdict with
        | valid hall hpass =>
          obtain ⟨hpool', hgrow, hin⟩ := hpool.addTxn hnew rfl hall hpass
          exact ⟨_, rfl, hpool', hgrow, h.keep hgrow ht hout (.pooled hin)⟩
        | invalid hfails =>
          exact ⟨_, rfl, hpool, fun _ _ h => h, hreplace (.fails hunknown hfails)⟩
        | @missing missing hne hmissing =>
          refine ⟨_, rfl, hpool, fun _ _ h => h, hreplace ?_⟩
          obtain ⟨x, hx⟩ := List.exists_mem_of_ne_nil _ hne
          obtain ⟨hdep, hnone⟩ := (hmissing x).mp hx
          exact hwaits.rejected hasked hunknown hdep hnone

/-- The second pass over a level. -/
theorem recheckLoop_spec {known : Set AvalancheTxn} {pool₀ : Hash → Option AvalancheTxn}
    {orig : List AvalancheTxn} {asked : List Hash} (todo : List Nat) :
    ∀ {dag : ProposalDag × List Hash} {txns : List AvalancheTxn},
      PoolInv ids known pool₀ dag.1.txnPool →
      Parked ids (knownIn ids pool₀) dag.1.txnPool orig asked txns todo →
      (∀ x ∈ asked, (dag.1.txnPool x).isSome ∨
        ∃ p, ids.txnId p = x ∧ Rejected ids (knownIn ids pool₀) p) →
      ∃ r, todo.foldlM (BlockManagement.recheckTxn ids) (dag, txns) = .ok r ∧
        PoolInv ids known pool₀ r.1.1.txnPool ∧ Grows dag.1.txnPool r.1.1.txnPool ∧
        Parked ids (knownIn ids pool₀) r.1.1.txnPool orig asked r.2 [] := by
  induction todo with
  | nil =>
    intro dag txns hpool h _
    exact ⟨_, rfl, hpool, fun _ _ h => h, h⟩
  | cons i todo ih =>
    intro dag txns hpool h hasked
    obtain ⟨r₁, hr₁, hpool₁, hgrow₁, h₁⟩ := recheckTxn_spec hpool h hasked
    obtain ⟨r, hr, hpool', hgrow', h'⟩ := ih hpool₁ h₁ fun x hx => by
      rcases hasked x hx with hin | hrej
      · exact Or.inl (hgrow₁.isSome hin)
      · exact Or.inr hrej
    refine ⟨r, ?_, hpool', fun x t ht => hgrow' x t (hgrow₁ x t ht), h'⟩
    rw [List.foldlM_cons, bind_eq_ok]
    exact ⟨r₁, hr₁, hr⟩

end Copycat.Avalanche
