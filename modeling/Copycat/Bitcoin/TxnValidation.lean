import Copycat.Bitcoin.Management
import Copycat.Bitcoin.Replay
import Copycat.Validation

/-!
# `BitcoinTxnValidation`

The stage in front of block management
(`src/stage/txn_validation/bitcoin/basic.rs`). It checks that the inputs of a
`Send` pay for its outputs, which needs the parents; a transaction with a
missing parent waits in `pending_txns` under every parent it misses and is
looked at again when one of them is accepted. Whether an input is spent, or
spent twice, is not checked here, and neither are scripts.

`Balanced` is what the check comes to. It does not mention a pool: a hash
determines its parent, so two pools that have the parents give the same
answer. An accepted transaction is balanced (`balanced_of_accepted`), and
`validate_txn` of the block-management stage says yes to a balanced one whose
parents it has (`validateTxn_of_balanced`).
-/

namespace Copycat.Bitcoin

open Copycat.Lib

variable {ids : IdScheme}

/-- The entry of a waiting transaction. -/
abbrev Waiting := Copycat.Waiting BitcoinTxn

/-- An iteration order for the entries of the maps in `pending_txns`. -/
abbrev EntryOrder := Copycat.EntryOrder BitcoinTxn

/-- `BitcoinTxnValidation`. -/
abbrev TxnValidation := Validator BitcoinTxn

namespace TxnValidation

/-- `BitcoinTxnValidation::new`. -/
def new : TxnValidation where
  txnPool := fun _ => none
  pendingTxns := fun _ => none

/-- The loop of `validate_txn` over the parents; `none` is its early
`return Ok(false)`. -/
def parentsValue (sender : PubKey) : List BitcoinTxn → UInt64 → Option UInt64
  | [], inputValue => some inputValue
  | utxo :: rest, inputValue =>
    match utxo.ownedValue sender with
    | none => none
    | some value => parentsValue sender rest (inputValue + value)

/-- `validate_txn`; the error is the list of missing parents. -/
def validateTxn (txnPool : Hash → Option BitcoinTxn) :
    BitcoinTxn → Res (Except (List Hash) Bool)
  | .send t =>
    let missingDeps := t.inUtxo.filter (fun h => (txnPool h).isNone)
    if missingDeps.length > 0 then .ok (.error missingDeps)
    else
      .ok (.ok (parentsValue t.sender (t.inUtxo.filterMap txnPool) 0
        = some (t.outUtxo + t.remainder)))
  | .grant .. => .ok (.ok true)
  | .incentive .. => .error .panic

/-- Wait for one missing parent, unless already waiting for it. -/
def park (entry : Waiting) (pendingTxns : Hash → Option (List Waiting)) (missingDep : Hash) :
    Hash → Option (List Waiting) :=
  let siblings := (pendingTxns missingDep).getD []
  Function.update pendingTxns missingDep
    (some (if siblings.any (fun e => e.txnHash = entry.txnHash) then siblings
      else siblings ++ [entry]))

/-- `validate_inner`. -/
def validateInner (ids : IdScheme) (ord : EntryOrder) :
    Nat → TxnValidation → NodeId → BitcoinTxn → Res (TxnValidation × List (NodeId × BitcoinTxn))
  | 0, _, _, _ => .error .diverge
  | fuel + 1, s, src, txn =>
    let txnHash := ids.txnId txn
    if (s.txnPool txnHash).isSome then .ok (s, [])
    else
      validateTxn s.txnPool txn >>= fun res =>
      match res with
      | .ok false => .ok (s, [])
      | .error missingDeps =>
        -- do not enqueue the txn yet since it might be invalid
        .ok ({ s with
          pendingTxns := missingDeps.foldl (park ⟨txnHash, txn, src⟩) s.pendingTxns }, [])
      | .ok true =>
        let txnPool := Function.update s.txnPool txnHash (some txn)
        match s.pendingTxns txnHash with
        | none => .ok ({ s with txnPool := txnPool }, [(src, txn)])
        | some children =>
          (ord.iter txnHash children).foldlM
            (fun (acc : TxnValidation × List (NodeId × BitcoinTxn)) child =>
              validateInner ids ord fuel acc.1 child.src child.txn >>= fun r =>
              .ok (r.1, acc.2 ++ r.2))
            (⟨txnPool, Function.update s.pendingTxns txnHash none⟩, [(src, txn)])

/-- `validate`, on one batch. -/
def validate (ids : IdScheme) (ord : EntryOrder) (fuel : Nat) (s : TxnValidation)
    (txnBatch : List (NodeId × BitcoinTxn)) : Res (TxnValidation × List (NodeId × BitcoinTxn)) :=
  txnBatch.foldlM
    (fun (acc : TxnValidation × List (NodeId × BitcoinTxn)) x =>
      validateInner ids ord fuel acc.1 x.1 x.2 >>= fun r => .ok (r.1, acc.2 ++ r.2))
    (s, [])

/-- The stage as a machine; the label is a batch and what comes out. -/
def stage (ids : IdScheme) :
    Machine TxnValidation (List (NodeId × BitcoinTxn) × List (NodeId × BitcoinTxn)) where
  start := new
  step s l s' := ∃ ord fuel, validate ids ord fuel s l.1 = .ok (s', l.2)

end TxnValidation

/-- Some run of the validation stage accepts the transaction. -/
def Accepted (ids : IdScheme) (t : BitcoinTxn) : Prop :=
  ∃ tr s, (TxnValidation.stage ids).Run (fun _ _ => True) tr s ∧
    ∃ l ∈ tr, ∃ src, (src, t) ∈ l.2

/-! ## What acceptance means -/

/-- Every transaction is stored under its id and satisfies `Q`. -/
def Stored (ids : IdScheme) (Q : BitcoinTxn → Prop) (pool : Hash → Option BitcoinTxn) : Prop :=
  ∀ h t, pool h = some t → ids.txnId t = h ∧ Q t

theorem stored_insert {Q : BitcoinTxn → Prop} {pool : Hash → Option BitcoinTxn}
    (h : Stored ids Q pool) {t : BitcoinTxn} (ht : Q t) :
    Stored ids Q (Function.update pool (ids.txnId t) (some t)) := by
  intro h' t' ht'
  by_cases he : h' = ids.txnId t
  · subst he
    have : t = t' := by simpa using ht'
    exact ⟨by rw [this], this ▸ ht⟩
  · exact h h' t' (by simpa [he] using ht')

/-- The transactions an input list names give their owner what the outputs
cost. -/
def Balanced (ids : IdScheme) : BitcoinTxn → Prop
  | .send t => ∃ parents, txnIds ids parents = t.inUtxo ∧
      TxnValidation.parentsValue t.sender parents 0 = some (t.outUtxo + t.remainder)
  | .grant .. => True
  | .incentive .. => False

theorem Balanced.plain {t : BitcoinTxn} (h : Balanced ids t) : t.isIncentive = false := by
  cases t with
  | incentive o r => exact absurd h (by simp [Balanced])
  | send t => rfl
  | grant o r => rfl

/-- The parents found in a pool are the ones the hashes name. -/
theorem filterMap_stored {Q : BitcoinTxn → Prop} {pool : Hash → Option BitcoinTxn}
    (hs : Stored ids Q pool) :
    ∀ {inUtxo : List Hash}, (∀ h ∈ inUtxo, (pool h).isSome) →
      txnIds ids (inUtxo.filterMap pool) = inUtxo := by
  intro inUtxo
  induction inUtxo with
  | nil => intro _; rfl
  | cons h rest ih =>
    intro hall
    obtain ⟨t, ht⟩ := Option.isSome_iff_exists.mp (hall h (List.mem_cons_self ..))
    rw [List.filterMap_cons_some ht]
    show ids.txnId t :: txnIds ids (rest.filterMap pool) = h :: rest
    rw [(hs h t ht).1, ih (fun x hx => hall x (List.mem_cons_of_mem _ hx))]

/-- The input loop of the block-management stage, on a pool that has all
parents, is the loop over the parents. -/
theorem inputValue_eq {pool : Hash → Option BitcoinTxn} {sender : PubKey} :
    ∀ {inUtxo : List Hash} {value : UInt64}, (∀ h ∈ inUtxo, (pool h).isSome) →
      inputValue pool sender inUtxo value =
        TxnValidation.parentsValue sender (inUtxo.filterMap pool) value := by
  intro inUtxo
  induction inUtxo with
  | nil => intro value _; rfl
  | cons h rest ih =>
    intro value hall
    obtain ⟨t, ht⟩ := Option.isSome_iff_exists.mp (hall h (List.mem_cons_self ..))
    have ih' := fun v => @ih v (fun x hx => hall x (List.mem_cons_of_mem _ hx))
    rw [List.filterMap_cons_some ht, inputValue, ht, TxnValidation.parentsValue]
    dsimp only
    cases t.ownedValue sender with
    | none => rfl
    | some v => exact ih' (value + v)

/-- The input loop needs every parent. -/
theorem isSome_of_inputValue {pool : Hash → Option BitcoinTxn} {sender : PubKey} :
    ∀ {inUtxo : List Hash} {value v : UInt64}, inputValue pool sender inUtxo value = some v →
      ∀ h ∈ inUtxo, (pool h).isSome := by
  intro inUtxo
  induction inUtxo with
  | nil => intro _ _ _ h hh; exact absurd hh (by simp)
  | cons x rest ih =>
    intro value v hv h hh
    rw [inputValue] at hv
    cases hx : pool x with
    | none => rw [hx] at hv; exact absurd hv (by simp)
    | some t =>
      rw [hx] at hv
      dsimp only at hv
      rcases List.mem_cons.mp hh with rfl | hh
      · rw [hx]
        rfl
      · cases ho : t.ownedValue sender with
        | none => rw [ho] at hv; exact absurd hv (by simp)
        | some w => rw [ho] at hv; exact ih hv h hh

/-- What passes the check of the block-management stage is balanced. -/
theorem balanced_of_validateTxn {Q : BitcoinTxn → Prop} {pool : Hash → Option BitcoinTxn}
    (hs : Stored ids Q pool) {t : BitcoinTxn} (h : validateTxn pool t = .ok true) :
    Balanced ids t := by
  cases t with
  | incentive o r => exact absurd h (by simp [validateTxn])
  | grant o r => trivial
  | send t =>
    have hv : inputValue pool t.sender t.inUtxo 0 = some (t.outUtxo + t.remainder) := by
      simpa [validateTxn] using h
    have hall := isSome_of_inputValue hv
    rw [inputValue_eq hall] at hv
    exact ⟨_, filterMap_stored hs hall, hv⟩

/-- A balanced transaction passes on every pool that has its parents. -/
theorem validateTxn_of_balanced {Q : BitcoinTxn → Prop} {pool : Hash → Option BitcoinTxn}
    (hs : Stored ids Q pool) {t : BitcoinTxn} (hb : Balanced ids t)
    (hall : ∀ k ∈ t.inputs, (pool k.1).isSome) : validateTxn pool t = .ok true := by
  cases t with
  | incentive o r => exact absurd hb (by simp [Balanced])
  | grant o r => rfl
  | send t =>
    obtain ⟨parents, hids, hval⟩ := hb
    have hall' : ∀ h ∈ t.inUtxo, (pool h).isSome := fun h hh =>
      hall (h, t.sender) (List.mem_map.mpr ⟨h, hh, rfl⟩)
    have hpar : t.inUtxo.filterMap pool = parents := by
      apply List.map_injective_iff.mpr ids.txnId_inj
      show txnIds ids (t.inUtxo.filterMap pool) = txnIds ids parents
      rw [filterMap_stored hs hall', hids]
    have hv : inputValue pool t.sender t.inUtxo 0 = some (t.outUtxo + t.remainder) := by
      rw [inputValue_eq hall', hpar, hval]
    simp [validateTxn, hv]

namespace TxnValidation

/-- What passes the check of this stage is balanced. -/
theorem balanced_of_valid {Q : BitcoinTxn → Prop} {pool : Hash → Option BitcoinTxn}
    (hs : Stored ids Q pool) {t : BitcoinTxn} (h : validateTxn pool t = .ok (.ok true)) :
    Balanced ids t := by
  cases t with
  | incentive o r => exact absurd h (by simp [validateTxn])
  | grant o r => trivial
  | send t =>
    simp only [validateTxn] at h
    split at h
    · exact absurd h (by simp)
    · rename_i hmiss
      have hnil : t.inUtxo.filter (fun h => (pool h).isNone) = [] :=
        List.eq_nil_of_length_eq_zero (by omega)
      have hall : ∀ h ∈ t.inUtxo, (pool h).isSome := by
        intro x hx
        have := List.filter_eq_nil_iff.mp hnil x hx
        simpa [Option.isSome_iff_ne_none] using this
      have hv : parentsValue t.sender (t.inUtxo.filterMap pool) 0
          = some (t.outUtxo + t.remainder) := by
        simpa using h
      exact ⟨_, filterMap_stored hs hall, hv⟩

/-- The stored transactions and those let through so far are balanced. -/
def AllBalanced (ids : IdScheme) (acc : TxnValidation × List (NodeId × BitcoinTxn)) : Prop :=
  Stored ids (Balanced ids) acc.1.txnPool ∧ ∀ x ∈ acc.2, Balanced ids x.2

theorem AllBalanced.append {acc r : TxnValidation × List (NodeId × BitcoinTxn)}
    (h : AllBalanced ids acc) (hr : AllBalanced ids r) : AllBalanced ids (r.1, acc.2 ++ r.2) := by
  refine ⟨hr.1, fun x hx => ?_⟩
  rcases List.mem_append.mp hx with hx | hx
  · exact h.2 x hx
  · exact hr.2 x hx

/-- What `validate_inner` lets through, and what it stores, is balanced. -/
theorem validateInner_balanced {ord : EntryOrder} :
    ∀ {fuel : Nat} {s : TxnValidation} {src : NodeId} {txn : BitcoinTxn}
      {r : TxnValidation × List (NodeId × BitcoinTxn)}, Stored ids (Balanced ids) s.txnPool →
      validateInner ids ord fuel s src txn = .ok r → AllBalanced ids r := by
  intro fuel
  induction fuel with
  | zero => intro s src txn r _ h; exact absurd h (by simp [validateInner])
  | succ fuel ih =>
    intro s src txn r hs h
    rw [validateInner] at h
    dsimp only at h
    split at h
    · rw [← Except.ok.inj h]
      exact ⟨hs, by simp⟩
    · rw [bind_eq_ok] at h
      obtain ⟨res, hres, h⟩ := h
      cases res with
      | error missingDeps =>
        rw [← Except.ok.inj h]
        exact ⟨hs, by simp⟩
      | ok valid =>
        cases valid with
        | false =>
          rw [← Except.ok.inj h]
          exact ⟨hs, by simp⟩
        | true =>
          have hb := balanced_of_valid hs hres
          have hstart : ∀ pendingTxns, AllBalanced ids
              (⟨Function.update s.txnPool (ids.txnId txn) (some txn), pendingTxns⟩,
                [(src, txn)]) := by
            intro pendingTxns
            refine ⟨stored_insert hs hb, fun x hx => ?_⟩
            rw [List.mem_singleton.mp hx]
            exact hb
          dsimp only at h
          split at h
          · rw [← Except.ok.inj h]
            exact hstart _
          · -- the children, one after the other
            refine foldlM_invariant (AllBalanced ids) ?_ (hstart _) h
            intro acc child acc' hacc hchild
            rw [bind_eq_ok] at hchild
            obtain ⟨r, hr, hchild⟩ := hchild
            rw [← Except.ok.inj hchild]
            exact hacc.append (ih hacc.1 hr)

theorem validate_balanced {ord : EntryOrder} {fuel : Nat} {s : TxnValidation}
    {batch : List (NodeId × BitcoinTxn)} {r : TxnValidation × List (NodeId × BitcoinTxn)}
    (hs : Stored ids (Balanced ids) s.txnPool) (h : validate ids ord fuel s batch = .ok r) :
    AllBalanced ids r := by
  refine foldlM_invariant (AllBalanced ids) ?_ ⟨hs, by simp⟩ h
  intro acc x acc' hacc hx
  rw [bind_eq_ok] at hx
  obtain ⟨r, hr, hx⟩ := hx
  rw [← Except.ok.inj hx]
  exact hacc.append (validateInner_balanced hacc.1 hr)

end TxnValidation

/-- **What the validation stage accepts is balanced.** -/
theorem balanced_of_accepted {t : BitcoinTxn} (h : Accepted ids t) : Balanced ids t := by
  obtain ⟨tr, s, hrun, l, hl, src, ht⟩ := h
  have hinv : Stored ids (Balanced ids) s.txnPool ∧ ∀ l ∈ tr, ∀ x ∈ l.2, Balanced ids x.2 := by
    refine hrun.invariant_trace
      (fun tr s => Stored ids (Balanced ids) s.txnPool ∧
        ∀ l ∈ tr, ∀ x ∈ l.2, Balanced ids x.2) ?_ ?_
    · refine ⟨fun h t ht => ?_, by simp⟩
      exact absurd ht (by simp [TxnValidation.stage, TxnValidation.new])
    · intro tr s l s' hinv _ hcall
      obtain ⟨ord, fuel, hstep⟩ := hcall
      obtain ⟨h1, h2⟩ := TxnValidation.validate_balanced hinv.1 hstep
      refine ⟨h1, fun l' hl' => ?_⟩
      rcases List.mem_append.mp hl' with h3 | h3
      · exact hinv.2 l' h3
      · rw [List.mem_singleton.mp h3]
        exact h2
  exact hinv.2 l hl _ ht

/-! ## The shared stage, at Bitcoin's transactions -/

/-- What `BitcoinTxnValidation` brings to the shared stage. -/
def bitcoinKind (ids : IdScheme) : TxnKind BitcoinTxn where
  txnId := ids.txnId
  txnId_inj := ids.txnId_inj
  deps
    | .send t => t.inUtxo
    | _ => []
  check
    | .send t, parents => .ok (TxnValidation.parentsValue t.sender parents 0
        = some (t.outUtxo + t.remainder))
    | .grant .., _ => .ok true
    | .incentive .., _ => .error .panic

theorem check_returns (ids : IdScheme) (t : BitcoinTxn) (parents : List BitcoinTxn)
    (ht : t.isIncentive = false) : ∃ b, (bitcoinKind ids).check t parents = .ok b := by
  cases t with
  | send t => exact ⟨_, rfl⟩
  | grant outUtxo receiver => exact ⟨true, rfl⟩
  | incentive outUtxo receiver => exact absurd ht (by simp [BitcoinTxn.isIncentive])

namespace TxnValidation

theorem validateTxn_eq (ids : IdScheme) (pool : Hash → Option BitcoinTxn) (txn : BitcoinTxn) :
    validateTxn pool txn = Validator.validateTxn (bitcoinKind ids) pool txn := by
  cases txn with
  | incentive o r => rfl
  | grant o r => rfl
  | send t =>
    unfold validateTxn Validator.validateTxn
    dsimp only [bitcoinKind]
    split
    · rfl
    · rfl

theorem validateInner_eq (ord : EntryOrder) :
    ∀ (fuel : Nat) (s : TxnValidation) (src : NodeId) (txn : BitcoinTxn),
      validateInner ids ord fuel s src txn =
        Validator.validateInner (bitcoinKind ids) ord fuel s src txn := by
  intro fuel
  induction fuel with
  | zero => exact fun _ _ _ => rfl
  | succ fuel ih =>
    intro s src txn
    rw [validateInner, Validator.validateInner]
    simp only [ih, validateTxn_eq ids]
    rw [show (bitcoinKind ids).txnId txn = ids.txnId txn from rfl]
    split
    · rfl
    · cases Validator.validateTxn (bitcoinKind ids) s.txnPool txn with
      | error fault => rfl
      | ok res =>
        cases res with
        | error missingDeps => rfl
        | ok valid =>
          cases valid with
          | false => rfl
          | true =>
            simp only [bind, Except.bind]
            cases s.pendingTxns (ids.txnId txn) with
            | none => rfl
            | some children => rfl

/-- `BitcoinTxnValidation::validate` is the shared stage. -/
theorem validate_eq (ord : EntryOrder) (fuel : Nat) (s : TxnValidation)
    (batch : List (NodeId × BitcoinTxn)) :
    validate ids ord fuel s batch = Validator.validate (bitcoinKind ids) ord fuel s batch := by
  unfold validate Validator.validate
  simp only [validateInner_eq]

end TxnValidation

end Copycat.Bitcoin
