import Copycat.Avalanche.Ledger
import Copycat.Validation

/-!
# `AvalancheTxnValidation`

The stage in front of block management
(`src/stage/txn_validation/avalanche/basic.rs`): the shared stage of
`Copycat.Validation` at Avalanche's transactions. The check that the inputs of
a `Send` pay for its outputs is the one `AvalancheBlockManagement` makes, too.
-/

namespace Copycat.Avalanche

/-- Ids that tell the transactions apart. -/
structure UniqueIds extends TxnIds where
  txnId_inj : Function.Injective txnId

namespace AvalancheTxn

/-- `AvalancheTxn::validate`, over the `verify` of the crypto scheme. -/
def validate (verify : PubKey → List Hash → Signature → Option Bool) :
    AvalancheTxn → Res (Option Bool)
  | send sender inUtxo _ _ _ senderSignature => .ok (verify sender inUtxo senderSignature)
  | grant .. => .ok (some true)
  | noop _ | placeHolder => .error .panic

/-- Whether clients make transactions of this kind. -/
def fromClient : AvalancheTxn → Bool
  | send .. | grant .. => true
  | noop _ | placeHolder => false

/-- The value the transaction assigns to `owner`, if any: the receiver is
looked at first. -/
def ownedValue (owner : PubKey) : AvalancheTxn → Res (Option UInt64)
  | grant outUtxo receiver _ => .ok (if receiver = owner then some outUtxo else none)
  | send sender _ receiver outUtxo remainder _ =>
    .ok (if receiver = owner then some outUtxo
      else if sender = owner then some remainder
      else none)
  | noop _ | placeHolder => .error .panic

/-- The loop of `validate_txn` over the parents; `none` is its early return. -/
def parentsValue (sender : PubKey) : List AvalancheTxn → UInt64 → Res (Option UInt64)
  | [], inputValue => .ok (some inputValue)
  | utxo :: rest, inputValue =>
    utxo.ownedValue sender >>= fun value =>
    match value with
    | none => .ok none
    | some value => parentsValue sender rest (inputValue + value)

theorem parentsValue_returns (sender : PubKey) :
    ∀ {parents : List AvalancheTxn} (inputValue : UInt64), (∀ p ∈ parents, p.fromClient) →
      ∃ v, parentsValue sender parents inputValue = .ok v := by
  intro parents
  induction parents with
  | nil => exact fun _ _ => ⟨_, rfl⟩
  | cons p parents ih =>
    intro inputValue h
    have hp := h p (List.mem_cons_self ..)
    obtain ⟨o, ho⟩ : ∃ o, p.ownedValue sender = .ok o := by
      cases p with
      | send => exact ⟨_, rfl⟩
      | grant => exact ⟨_, rfl⟩
      | noop => exact absurd hp (by simp [fromClient])
      | placeHolder => exact absurd hp (by simp [fromClient])
    rw [parentsValue, ho]
    cases o with
    | none => exact ⟨_, rfl⟩
    | some value => exact ih _ fun q hq => h q (List.mem_cons_of_mem _ hq)

end AvalancheTxn

/-- What `AvalancheTxnValidation` brings to the shared stage. -/
def avalancheKind (ids : UniqueIds) : TxnKind AvalancheTxn where
  txnId := ids.txnId
  txnId_inj := ids.txnId_inj
  deps
    | .send _ inUtxo .. => inUtxo
    | _ => []
  check
    | .send sender _ _ outUtxo remainder _, parents =>
      AvalancheTxn.parentsValue sender parents 0 >>= fun inputValue =>
      .ok (inputValue = some (outUtxo + remainder))
    | .grant .., _ => .ok true
    | .noop _, _ | .placeHolder, _ => .error .panic

/-- `AvalancheTxnValidation`. -/
abbrev TxnValidation := Validator AvalancheTxn

/-- `AvalancheTxnValidation::validate`, on one batch. -/
def TxnValidation.validate (ids : UniqueIds) (ord : EntryOrder AvalancheTxn) (fuel : Nat)
    (s : TxnValidation) (txnBatch : List (NodeId × AvalancheTxn)) :
    Res (TxnValidation × List (NodeId × AvalancheTxn)) :=
  Validator.validate (avalancheKind ids) ord fuel s txnBatch

theorem check_returns (ids : UniqueIds) (t : AvalancheTxn) (parents : List AvalancheTxn)
    (ht : t.fromClient) (hparents : ∀ p ∈ parents, p.fromClient) :
    ∃ b, (avalancheKind ids).check t parents = .ok b := by
  cases t with
  | send sender inUtxo receiver outUtxo remainder signature =>
    obtain ⟨v, hv⟩ := AvalancheTxn.parentsValue_returns sender 0 hparents
    exact ⟨_, bind_eq_ok.mpr ⟨v, hv, rfl⟩⟩
  | grant => exact ⟨true, rfl⟩
  | noop => exact absurd ht (by simp [AvalancheTxn.fromClient])
  | placeHolder => exact absurd ht (by simp [AvalancheTxn.fromClient])

/-! ## Ids that can be computed

The interface `UniqueIds` can be met: a transaction is numbered by an encoding
of its fields, which is larger than every hash it lists. As in the source, the
id of the placeholder is zero. -/

theorem lt_encode_of_mem {p : Nat} {l : List Nat} (h : p ∈ l) : p < Encodable.encode l := by
  induction l with
  | nil => exact absurd h (by simp)
  | cons x l ih =>
    rw [Encodable.encode_list_cons]
    rcases List.mem_cons.mp h with rfl | h
    · exact Nat.lt_succ_of_le (Nat.left_le_pair _ _)
    · exact Nat.lt_succ_of_lt (Nat.lt_of_lt_of_le (ih h) (Nat.right_le_pair _ _))

/-- The code of a byte string. -/
def codeBytes (bytes : List UInt8) : Nat := Encodable.encode (bytes.map UInt8.toNat)

theorem codeBytes_inj : Function.Injective codeBytes := by
  intro bytes bytes' h
  exact List.map_injective_iff.mpr (fun _ _ => UInt8.toNat_inj.mp) (Encodable.encode_injective h)

/-- The kind of a transaction, and its fields as numbers. -/
def fields : AvalancheTxn → Nat × List Nat
  | .send sender inUtxo receiver outUtxo remainder senderSignature =>
    (1, [Encodable.encode inUtxo, codeBytes sender, codeBytes receiver, outUtxo.toNat,
      remainder.toNat, codeBytes senderSignature])
  | .grant outUtxo receiver nonce => (2, [outUtxo.toNat, codeBytes receiver, nonce.toNat])
  | .noop parents => (3, parents)
  | .placeHolder => (0, [])

theorem fields_lt (t : AvalancheTxn) : (fields t).1 < 4 := by
  cases t <;> simp [fields]

theorem fields_inj : Function.Injective fields := by
  intro t t' h
  cases t with
  | send =>
    cases t' with
    | send =>
      simp only [fields, Prod.mk.injEq, List.cons.injEq, true_and, and_true] at h
      obtain ⟨h₁, h₂, h₃, h₄, h₅, h₆⟩ := h
      rw [Encodable.encode_injective h₁, codeBytes_inj h₂, codeBytes_inj h₃, UInt64.toNat_inj.mp h₄,
        UInt64.toNat_inj.mp h₅, codeBytes_inj h₆]
    | grant => simp [fields] at h
    | noop => simp [fields] at h
    | placeHolder => simp [fields] at h
  | grant =>
    cases t' with
    | grant =>
      simp only [fields, Prod.mk.injEq, List.cons.injEq, true_and, and_true] at h
      obtain ⟨h₁, h₂, h₃⟩ := h
      rw [UInt64.toNat_inj.mp h₁, codeBytes_inj h₂, UInt64.toNat_inj.mp h₃]
    | send => simp [fields] at h
    | noop => simp [fields] at h
    | placeHolder => simp [fields] at h
  | noop => cases t' <;> simp_all [fields]
  | placeHolder => cases t' <;> simp_all [fields]

/-- The code of a transaction. -/
def codeTxn (t : AvalancheTxn) : Nat := 4 * Encodable.encode (fields t).2 + (fields t).1

theorem codeTxn_inj : Function.Injective codeTxn := by
  intro t t' h
  unfold codeTxn at h
  have hlt := fields_lt t
  have hlt' := fields_lt t'
  refine fields_inj (Prod.ext (by omega) (Encodable.encode_injective (by omega)))

def UniqueIds.coded : UniqueIds where
  txnId := codeTxn
  rank := id
  rank_parent txn p hp := by
    show p < 4 * Encodable.encode (fields txn).2 + (fields txn).1
    have hlt : p < Encodable.encode (fields txn).2 := by
      cases txn with
      | send sender inUtxo receiver outUtxo remainder signature =>
        have hp := lt_encode_of_mem (show p ∈ inUtxo from hp)
        exact hp.trans (lt_encode_of_mem (List.mem_cons_self ..))
      | noop parents => exact lt_encode_of_mem hp
      | grant => exact absurd hp (by simp [AvalancheTxn.parents])
      | placeHolder => exact absurd hp (by simp [AvalancheTxn.parents])
    exact Nat.lt_of_lt_of_le hlt
      (Nat.le_add_right_of_le (Nat.le_mul_of_pos_left _ (Nat.zero_lt_succ 3)))
  txnId_inj := codeTxn_inj

end Copycat.Avalanche
