import Copycat.Bitcoin.Mempool

/-!
# What a rejected block leaves behind

`validate_block` stores every transaction that passes before it looks at the next
one, since the next one may spend it. When one fails, the call returns at once and
those stored before it stay in `txn_pool`. `record_new_txn` then takes them for
duplicates. So a rejected block leaves no trace if and only if `txn_pool` has had
everything that stands before the first failing transaction (`noTrace_iff`).
-/

namespace Copycat.Bitcoin

variable {ids : IdScheme}

/-- `validate_block` rejects the block for its nonce or for one of its
transactions. -/
def Rejects (ids : IdScheme) (s : BlockManagement) (block : Block) : Prop :=
  s.blockPool (ids.blkId block.header) = none ∧
    (block.header.nonce ≠ 1 ∨
      ∃ txnPool, validateTxns ids s.txnPool block.txns = .ok (txnPool, false))

/-- The state is as before, and so is what `record_new_txn` does with the
transactions of the block. -/
structure NoTrace (ids : IdScheme) (s : BlockManagement) (block : Block) (v : Validated) :
    Prop where
  state : v.state = s
  record : ∀ t ∈ block.txns, recordNewTxn ids v.state t = recordNewTxn ids s t

/-- Everything before the first transaction that fails is in `txn_pool`. -/
def StoredUpToFailure (ids : IdScheme) (txnPool : Hash → Option BitcoinTxn)
    (txns : List BitcoinTxn) : Prop :=
  ∃ before failing after, txns = before ++ failing :: after ∧
    (∀ t ∈ before, (txnPool (ids.txnId t)).isSome) ∧
    txnPool (ids.txnId failing) = none ∧ validateTxn txnPool failing = .ok false

theorem StoredUpToFailure.cons {txnPool : Hash → Option BitcoinTxn} {t : BitcoinTxn}
    {txns : List BitcoinTxn} (hknown : (txnPool (ids.txnId t)).isSome)
    (h : StoredUpToFailure ids txnPool txns) : StoredUpToFailure ids txnPool (t :: txns) := by
  obtain ⟨before, failing, after, rfl, hbefore, hfailing⟩ := h
  exact ⟨t :: before, failing, after, rfl, List.forall_mem_cons.mpr ⟨hknown, hbefore⟩, hfailing⟩

/-- Then the transaction loop stores nothing. -/
theorem validateTxns_of_stored {txnPool : Hash → Option BitcoinTxn} {txns : List BitcoinTxn}
    (h : StoredUpToFailure ids txnPool txns) :
    validateTxns ids txnPool txns = .ok (txnPool, false) := by
  obtain ⟨before, failing, after, rfl, hbefore, hnew, hfails⟩ := h
  induction before with
  | nil =>
    rw [List.nil_append, validateTxns, if_neg (by simp [hnew]), hfails]
    rfl
  | cons t before ih =>
    obtain ⟨ht, hbefore⟩ := List.forall_mem_cons.mp hbefore
    rw [List.cons_append, validateTxns, if_pos ht]
    exact ih hbefore

/-- If the loop fails and has stored nothing, nothing was there to be stored. -/
theorem stored_of_validateTxns {txnPool : Hash → Option BitcoinTxn} {txns : List BitcoinTxn}
    (h : validateTxns ids txnPool txns = .ok (txnPool, false)) :
    StoredUpToFailure ids txnPool txns := by
  induction txns with
  | nil => exact absurd h (by simp [validateTxns])
  | cons t txns ih =>
    rw [validateTxns] at h
    by_cases hknown : (txnPool (ids.txnId t)).isSome
    · rw [if_pos hknown] at h
      exact (ih h).cons hknown
    · rw [if_neg hknown, bind_eq_ok] at h
      have hnew : txnPool (ids.txnId t) = none := Option.not_isSome_iff_eq_none.mp hknown
      obtain ⟨valid, hvalid, h⟩ := h
      cases valid with
      | false => exact ⟨[], t, txns, rfl, fun _ h => absurd h List.not_mem_nil, hnew, hvalid⟩
      | true =>
        -- the transaction was stored, and the loop forgets nothing
        rw [if_pos rfl] at h
        have hstored := validateTxns_grows h (ids.txnId t) t (Function.update_self ..)
        exact absurd (hnew.symm.trans hstored) (by simp)

/-- A call that rejects the block returns, with what the transaction loop left. -/
theorem validateBlock_rejects (ord : HashOrder) (fuel : Nat) {s : BlockManagement} {block : Block}
    (h : Rejects ids s block) :
    ∃ v, validateBlock ids ord fuel s block = .ok v ∧
      (v.state = s ↔ block.header.nonce ≠ 1 ∨ StoredUpToFailure ids s.txnPool block.txns) := by
  obtain ⟨hfresh, hwhy⟩ := h
  unfold validateBlock
  rw [if_neg (by simp [hfresh])]
  by_cases hnonce : block.header.nonce ≠ 1
  · rw [if_pos hnonce]
    exact ⟨_, rfl, iff_of_true rfl (Or.inl hnonce)⟩
  · obtain ⟨txnPool, htx⟩ := hwhy.resolve_left hnonce
    rw [if_neg hnonce, htx]
    refine ⟨_, rfl, ?_⟩
    constructor
    · intro hstate
      have hpool : txnPool = s.txnPool := congrArg BlockManagement.txnPool hstate
      exact Or.inr (stored_of_validateTxns (hpool ▸ htx))
    · rintro (hwrong | hstored)
      · exact absurd hwrong hnonce
      · rw [validateTxns_of_stored hstored] at htx
        have hpool := congrArg Prod.fst (Except.ok.inj htx)
        exact congrArg (fun pool => { s with txnPool := pool }) hpool.symm

/-- A rejected block leaves no trace if and only if its nonce is wrong, or `txn_pool`
has everything that stands before the first transaction that fails. -/
theorem noTrace_iff (ord : HashOrder) (fuel : Nat) {s : BlockManagement} {block : Block}
    (h : Rejects ids s block) :
    ∃ v, validateBlock ids ord fuel s block = .ok v ∧
      (NoTrace ids s block v ↔
        block.header.nonce ≠ 1 ∨ StoredUpToFailure ids s.txnPool block.txns) := by
  obtain ⟨v, hv, hstate⟩ := validateBlock_rejects ord fuel h
  refine ⟨v, hv, ?_⟩
  rw [← hstate]
  exact ⟨NoTrace.state, fun heq => ⟨heq, fun t _ => by rw [heq]⟩⟩

/-- A `Send` with an input nobody has made. -/
def demoUnfunded : BitcoinTxn := .send
  { sender := [1], inUtxo := [9], receiver := [2], outUtxo := 4, remainder := 6,
    senderSignature := [], scriptBytes := 0, scriptRuntime := 0, scriptSucceed := true }

noncomputable def demoIds : IdScheme := .ofTable [demoGrant, demoUnfunded]

/-- A new node rejects a block of a grant and an unfunded spend, and takes the grant
for a duplicate when it comes again. -/
theorem rejected_block_remains :
    Rejects demoIds .new (demoBlock [demoGrant, demoUnfunded]) ∧
      ∃ v, validateBlock demoIds .sorted 5 .new (demoBlock [demoGrant, demoUnfunded]) = .ok v ∧
        (recordNewTxn demoIds .new demoGrant).2 = true ∧
        (recordNewTxn demoIds v.state demoGrant).2 = false ∧
        ¬ NoTrace demoIds .new (demoBlock [demoGrant, demoUnfunded]) v := by
  have hreject : returns (validateTxns demoIds (fun _ => none) [demoGrant, demoUnfunded])
      (fun r => !r.2) = true := by
    decide +kernel
  obtain ⟨⟨txnPool, valid⟩, htx, hvalid⟩ := returns_iff.mp hreject
  have hvalid : valid = false := by simpa using hvalid
  subst hvalid
  have hcheck : returns
      (validateBlock demoIds .sorted 5 .new (demoBlock [demoGrant, demoUnfunded])) (fun v =>
        !(recordNewTxn demoIds v.state demoGrant).2) = true := by
    decide +kernel
  obtain ⟨v, hv, hdup⟩ := returns_iff.mp hcheck
  have hdup : (recordNewTxn demoIds v.state demoGrant).2 = false := by simpa using hdup
  refine ⟨⟨rfl, Or.inr ⟨txnPool, htx⟩⟩, v, hv, rfl, hdup, fun h => ?_⟩
  rw [h.state] at hdup
  exact absurd hdup (by simp [recordNewTxn, BlockManagement.new])

/-- A node that has had the grant rejects the same block, and is as before. -/
theorem noTrace_demo :
    ∃ v, validateBlock demoIds .sorted 5 (recordNewTxn demoIds .new demoGrant).1
        (demoBlock [demoGrant, demoUnfunded]) = .ok v ∧
      StoredUpToFailure demoIds (recordNewTxn demoIds .new demoGrant).1.txnPool
        [demoGrant, demoUnfunded] ∧
      NoTrace demoIds (recordNewTxn demoIds .new demoGrant).1
        (demoBlock [demoGrant, demoUnfunded]) v := by
  have hstored : StoredUpToFailure demoIds (recordNewTxn demoIds .new demoGrant).1.txnPool
      [demoGrant, demoUnfunded] := by
    refine ⟨[demoGrant], demoUnfunded, [], rfl, ?_, by decide +kernel, by decide +kernel⟩
    intro t ht
    rw [List.mem_singleton.mp ht]
    decide +kernel
  obtain ⟨v, hv, hiff⟩ := noTrace_iff .sorted 5
    (show Rejects demoIds (recordNewTxn demoIds .new demoGrant).1
      (demoBlock [demoGrant, demoUnfunded]) from
      ⟨by decide +kernel, Or.inr ⟨_, validateTxns_of_stored hstored⟩⟩)
  exact ⟨v, hv, hstored, hiff.mpr (Or.inr hstored)⟩

end Copycat.Bitcoin
