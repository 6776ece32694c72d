import Copycat.Protocol

/-!
# The shared map `txns_seen`

`Node::init` makes one map and hands it to two stages. The transaction stage
(`txn_validation/mod.rs`) looks up whether a transaction has been handled and
skips it; the block stage (`block_management/mod.rs`) looks up whether its
signature has been verified. Both enter the result of `Txn::validate` when they
find nothing.

The two loops are generic in the transactions. `validate` is `Txn::validate`:
`.ok none` stands for its `Err`, and `.error` for the `unreachable!` of the
protocol-generated kinds, which ends the task.
-/

namespace Copycat

variable {τ : Type}

/-- `txns_seen`. -/
abbrev SeenMap := Hash → Option Bool

/-- The task of `block_management_thread` that checks the signatures of a peer
block, and whether the block goes on to `validate_block`. -/
def preCheck (txnId : τ → Hash) (validate : τ → Res (Option Bool)) :
    SeenMap → List τ → SeenMap × Bool
  | seen, [] => (seen, true)
  | seen, txn :: txns =>
    match seen (txnId txn) with
    | some valid => if valid then preCheck txnId validate seen txns else (seen, false)
    | none =>
      match validate txn with
      | .error _ => (seen, false)
      | .ok none => preCheck txnId validate seen txns
      | .ok (some valid) =>
        let seen := Function.update seen (txnId txn) (some valid)
        if valid then preCheck txnId validate seen txns else (seen, false)

/-- Where all signatures are valid and nothing else has been entered, the
pre-check lets the block through and enters nothing else. -/
theorem preCheck_of_valid (txnId : τ → Hash) {validate : τ → Res (Option Bool)} {txns : List τ}
    (hvalid : ∀ t ∈ txns, validate t = .ok (some true)) :
    ∀ {seen : SeenMap}, (∀ h, seen h ≠ some false) →
      (preCheck txnId validate seen txns).2 = true ∧
        ∀ h, (preCheck txnId validate seen txns).1 h ≠ some false := by
  induction txns with
  | nil =>
    intro seen hseen
    exact ⟨rfl, hseen⟩
  | cons t txns ih =>
    intro seen hseen
    have ih' := @ih fun t' ht' => hvalid t' (List.mem_cons_of_mem _ ht')
    rw [preCheck]
    cases hs : seen (txnId t) with
    | some valid =>
      cases valid with
      | false => exact absurd hs (hseen _)
      | true => exact ih' hseen
    | none =>
      rw [hvalid t (List.mem_cons_self ..)]
      refine ih' fun h => ?_
      by_cases hh : h = txnId t
      · rw [hh, Function.update_self]
        simp
      · rw [Function.update_of_ne hh]
        exact hseen h

/-- The task of `txn_validation_thread` over a batch it has drained; `none` is a
panic on the way, after which nothing is sent on. -/
def checkBatch (txnId : τ → Hash) (validate : τ → Res (Option Bool)) :
    SeenMap → List (NodeId × τ) → SeenMap × Option (List (NodeId × τ))
  | seen, [] => (seen, some [])
  | seen, (src, txn) :: batch =>
    match seen (txnId txn) with
    | some _ => checkBatch txnId validate seen batch -- ignore duplicates
    | none =>
      match validate txn with
      | .error _ => (seen, none)
      | .ok none => checkBatch txnId validate seen batch
      | .ok (some valid) =>
        let r := checkBatch txnId validate (Function.update seen (txnId txn) (some valid)) batch
        (r.1, r.2.map fun correct => if valid then (src, txn) :: correct else correct)

/-- The transactions of a block that its pre-check gets to: those up to the
first invalid one. -/
def reached (validate : τ → Res (Option Bool)) : List τ → List τ
  | [] => []
  | txn :: txns =>
    match validate txn with
    | .error _ => []
    | .ok none => reached validate txns
    | .ok (some valid) => txn :: if valid then reached validate txns else []

/-- Every result in the map is that of `Txn::validate`. -/
def Coherent (txnId : τ → Hash) (validate : τ → Res (Option Bool)) (seen : SeenMap) : Prop :=
  ∀ t v, seen (txnId t) = some v → validate t = .ok (some v)

theorem seen_insert {txnId : τ → Hash} (hinj : Function.Injective txnId)
    {validate : τ → Res (Option Bool)} {seen : SeenMap} {txn : τ} {valid : Bool}
    (hv : validate txn = .ok (some valid)) (t : τ) (v : Bool) :
    Function.update seen (txnId txn) (some valid) (txnId t) = some v ↔
      (t = txn ∧ validate t = .ok (some v)) ∨ (t ≠ txn ∧ seen (txnId t) = some v) := by
  by_cases ht : t = txn
  · simp [ht, hv]
  · have hne : txnId t ≠ txnId txn := fun e => ht (hinj e)
    simp [ht, hne]

theorem Coherent.insert {txnId : τ → Hash} (hinj : Function.Injective txnId)
    {validate : τ → Res (Option Bool)} {seen : SeenMap} (h : Coherent txnId validate seen) {txn : τ}
    {valid : Bool} (hv : validate txn = .ok (some valid)) :
    Coherent txnId validate (Function.update seen (txnId txn) (some valid)) := by
  intro t v ht
  rcases (seen_insert hinj hv t v).mp ht with ⟨-, ht⟩ | ⟨-, ht⟩
  · exact ht
  · exact h t v ht

/-- What a pre-check enters. -/
theorem preCheck_seen {txnId : τ → Hash} (hinj : Function.Injective txnId)
    {validate : τ → Res (Option Bool)} (txns : List τ) :
    ∀ {seen : SeenMap}, Coherent txnId validate seen → ∀ t v,
      (preCheck txnId validate seen txns).1 (txnId t) = some v ↔
        seen (txnId t) = some v ∨ (t ∈ reached validate txns ∧ validate t = .ok (some v)) := by
  induction txns with
  | nil => simp [preCheck, reached]
  | cons txn txns ih =>
    intro seen hseen t v
    -- the result for the head, looked up or computed, is in the map afterwards
    have hhead : ∀ {seen' : SeenMap} {valid : Bool}, Coherent txnId validate seen' →
        validate txn = .ok (some valid) →
        (∀ t v, seen' (txnId t) = some v ↔
          seen (txnId t) = some v ∨ (t = txn ∧ validate t = .ok (some v))) →
        ((if valid then preCheck txnId validate seen' txns else (seen', false)).1 (txnId t) = some v
          ↔ seen (txnId t) = some v ∨
            (t ∈ txn :: (if valid then reached validate txns else []) ∧
              validate t = .ok (some v))) := by
      intro seen' valid hcoh hv hsame
      cases valid with
      | false =>
        rw [if_neg (by simp), if_neg (by simp), hsame, List.mem_singleton]
      | true =>
        rw [if_pos rfl, if_pos rfl, ih hcoh, hsame, List.mem_cons, or_assoc, ← or_and_right]
    rw [preCheck, reached]
    cases hs : seen (txnId txn) with
    | some valid =>
      have hv := hseen txn valid hs
      rw [hv]
      refine hhead hseen hv fun t v => ⟨Or.inl, fun h => ?_⟩
      rcases h with h | ⟨rfl, h⟩
      · exact h
      · rw [hv] at h
        rw [hs, Option.some.inj (Except.ok.inj h)]
    | none =>
      cases hv : validate txn with
      | error fault => simp
      | ok result =>
        cases result with
        | none => exact ih hseen t v
        | some valid =>
          refine hhead (hseen.insert hinj hv) hv fun t v => ?_
          rw [seen_insert hinj hv]
          constructor
          · intro h
            rcases h with h | ⟨-, h⟩
            · exact Or.inr h
            · exact Or.inl h
          · intro h
            rcases h with h | h
            · exact Or.inr ⟨fun e => by rw [e, hs] at h; exact absurd h (by simp), h⟩
            · exact Or.inl h

/-- `seen'` is the map after a batch, `correct` what is sent on of it. -/
structure Checked (txnId : τ → Hash) (validate : τ → Res (Option Bool)) (seen : SeenMap)
    (batch : List (NodeId × τ)) (seen' : SeenMap) (correct : List (NodeId × τ)) : Prop where
  entered : ∀ t v, seen' (txnId t) = some v ↔
    seen (txnId t) = some v ∨ (t ∈ batch.map Prod.snd ∧ validate t = .ok (some v))
  subset : ∀ x ∈ correct, x ∈ batch
  sent : ∀ t, t ∈ correct.map Prod.snd ↔
    t ∈ batch.map Prod.snd ∧ seen (txnId t) = none ∧ validate t = .ok (some true)

/-- A transaction that is skipped, known already or without a result, adds
nothing. -/
theorem Checked.skip {txnId : τ → Hash} {validate : τ → Res (Option Bool)} {seen seen' : SeenMap}
    {batch correct : List (NodeId × τ)} (h : Checked txnId validate seen batch seen' correct)
    (src : NodeId) {txn : τ}
    (hknown : ∀ v, validate txn = .ok (some v) → seen (txnId txn) = some v) :
    Checked txnId validate seen ((src, txn) :: batch) seen' correct where
  entered t v := by
    rw [h.entered, List.map_cons, List.mem_cons]
    constructor
    · intro h
      rcases h with h | ⟨h, h'⟩
      · exact Or.inl h
      · exact Or.inr ⟨Or.inr h, h'⟩
    · intro h
      rcases h with h | ⟨rfl | h, h'⟩
      · exact Or.inl h
      · exact Or.inl (hknown v h')
      · exact Or.inr ⟨h, h'⟩
  subset x hx := List.mem_cons_of_mem _ (h.subset x hx)
  sent t := by
    rw [h.sent, List.map_cons, List.mem_cons]
    constructor
    · exact fun h => ⟨Or.inr h.1, h.2⟩
    · intro h
      obtain ⟨rfl | h, hnone, hval⟩ := h
      · rw [hknown true hval] at hnone
        exact absurd hnone (by simp)
      · exact ⟨h, hnone, hval⟩

/-- A new transaction is entered with its result, and sent on if it is valid. -/
theorem Checked.enter {txnId : τ → Hash} (hinj : Function.Injective txnId)
    {validate : τ → Res (Option Bool)} {seen seen' : SeenMap} {batch correct : List (NodeId × τ)}
    {txn : τ} {valid : Bool} (hs : seen (txnId txn) = none) (hv : validate txn = .ok (some valid))
    (h : Checked txnId validate (Function.update seen (txnId txn) (some valid)) batch seen' correct)
    (src : NodeId) :
    Checked txnId validate seen ((src, txn) :: batch) seen'
      (if valid then (src, txn) :: correct else correct) where
  entered t v := by
    rw [h.entered, seen_insert hinj hv, List.map_cons, List.mem_cons]
    by_cases ht : t = txn
    · subst ht
      simp [hs]
    · simp [ht]
  subset x hx := by
    cases valid with
    | false => exact List.mem_cons_of_mem _ (h.subset x hx)
    | true =>
      rcases List.mem_cons.mp hx with rfl | hx
      · exact List.mem_cons_self ..
      · exact List.mem_cons_of_mem _ (h.subset x hx)
  sent t := by
    have hrest : t ∈ correct.map Prod.snd ↔ t ∈ batch.map Prod.snd ∧ t ≠ txn ∧
        seen (txnId t) = none ∧ validate t = .ok (some true) := by
      rw [h.sent]
      by_cases ht : t = txn
      · simp [ht]
      · have hne : txnId t ≠ txnId txn := fun e => ht (hinj e)
        simp [ht, hne]
    by_cases ht : t = txn
    · subst ht
      cases valid with
      | false => simp [hrest, hv]
      | true => simp [hs, hv]
    · cases valid with
      | false => simp [hrest, ht]
      | true => simp [hrest, ht]

/-- What a batch that can be checked enters, and what it sends on. -/
theorem checkBatch_seen {txnId : τ → Hash} (hinj : Function.Injective txnId)
    {validate : τ → Res (Option Bool)} (batch : List (NodeId × τ)) :
    ∀ {seen : SeenMap}, Coherent txnId validate seen →
      (∀ x ∈ batch, ∃ r, validate x.2 = .ok r) →
      ∃ correct, (checkBatch txnId validate seen batch).2 = some correct ∧
        Checked txnId validate seen batch (checkBatch txnId validate seen batch).1 correct := by
  induction batch with
  | nil =>
    intro seen _ _
    exact ⟨[], rfl, by simp [checkBatch], by simp, by simp⟩
  | cons x batch ih =>
    intro seen hseen hret
    obtain ⟨src, txn⟩ := x
    obtain ⟨result, hv⟩ := hret (src, txn) (List.mem_cons_self ..)
    have hv : validate txn = .ok result := hv
    have hrest : ∀ x ∈ batch, ∃ r, validate x.2 = .ok r :=
      fun x hx => hret x (List.mem_cons_of_mem _ hx)
    rw [checkBatch]
    cases hs : seen (txnId txn) with
    | some valid =>
      obtain ⟨correct, hcorrect, h⟩ := ih hseen hrest
      refine ⟨correct, hcorrect, h.skip src fun v hval => ?_⟩
      rw [hseen txn valid hs] at hval
      rw [hs, Option.some.inj (Except.ok.inj hval)]
    | none =>
      rw [hv]
      cases result with
      | none =>
        obtain ⟨correct, hcorrect, h⟩ := ih hseen hrest
        exact ⟨correct, hcorrect, h.skip src fun v hval => absurd (hv.symm.trans hval) (by simp)⟩
      | some valid =>
        obtain ⟨correct, hcorrect, h⟩ := ih (hseen.insert hinj hv) hrest
        dsimp only
        rw [hcorrect]
        exact ⟨_, rfl, h.enter hinj hs hv src⟩

end Copycat
