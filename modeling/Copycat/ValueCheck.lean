import Copycat.Avalanche.Management
import Copycat.Bitcoin.TxnValidation
import Copycat.Lib.Passes

/-!
# The value check and its copies

That the inputs of a `Send` are its sender's and pay for what it pays out is
checked in four places: by `validate_txn` of the block management and of the
transaction validation, each for Bitcoin and for Avalanche. Elsewhere in this
development the four share what a parent is worth to the sender; here each is
written out with the arms it has in the source, and `value_checks_agree` says
that they have not drifted apart. `validateTxn_eq` of each copy is the link to
the model of its stage.

Bitcoin's block management makes one pass over the inputs and stops at the first
that is unknown or foreign. The others make two, and report the unknown inputs
before they look at an owner. Unsigned arithmetic wraps.
-/

namespace Copycat.ValueCheck

open Copycat.Lib
open Copycat.Avalanche (AvalancheTxn UniqueIds avalancheKind)

/-- The first loop of the two-pass copies: what is found and what is missing. -/
def collectLoop {τ : Type} (txnPool : Hash → Option τ) :
    List Hash → List τ × List Hash → List τ × List Hash
  | [], acc => acc
  | inUtxoHash :: inUtxo, (inUtxoTxns, missingDeps) =>
    match txnPool inUtxoHash with
    | some txn => collectLoop txnPool inUtxo (inUtxoTxns ++ [txn], missingDeps)
    | none => collectLoop txnPool inUtxo (inUtxoTxns, missingDeps ++ [inUtxoHash])

theorem collectLoop_eq {τ : Type} (txnPool : Hash → Option τ) (inUtxo : List Hash) :
    ∀ acc, collectLoop txnPool inUtxo acc =
      (acc.1 ++ inUtxo.filterMap txnPool, acc.2 ++ absent txnPool inUtxo) := by
  induction inUtxo with
  | nil => exact fun acc => by simp [collectLoop, absent]
  | cons inUtxoHash inUtxo ih =>
    rintro ⟨inUtxoTxns, missingDeps⟩
    rw [collectLoop]
    cases h : txnPool inUtxoHash with
    | some txn =>
      dsimp only
      rw [ih, absent_cons_found h, List.filterMap_cons_some h, List.append_assoc]
      rfl
    | none =>
      dsimp only
      rw [ih, List.filterMap_cons_none h, List.append_assoc, absent, absent,
        List.filter_cons_of_pos (by simp [h])]
      rfl

/-- Add what a parent is worth, unless it is foreign. -/
def addWorth {τ : Type} (worth : τ → Option UInt64) (inputValue : UInt64) (utxo : τ) :
    Option UInt64 :=
  (worth utxo).map (inputValue + ·)

/-- Whether the input value is there and matches the output value. -/
def pays (outputs : UInt64) (inputValue : Option UInt64) : Bool :=
  decide (inputValue = some outputs)

/-- The last step of the two-pass copies. -/
theorem judge_eq (outputs : UInt64) (inputValue : Option UInt64) :
    (match inputValue with
      | none => .ok (.ok false)
      | some inputValue => if inputValue ≠ outputs then .ok (.ok false) else .ok (.ok true)) =
    (.ok (.ok (pays outputs inputValue)) : Res (Except (List Hash) Bool)) := by
  cases inputValue with
  | none => rfl
  | some inputValue =>
    by_cases h : inputValue = outputs
    · simp [pays, h]
    · simp [pays, h]

/-! ## Bitcoin, in one pass -/

namespace BitcoinBlockManagement

/-- The `value` of an input; `none` is an early `return Ok(false)`. -/
def utxoValue (txnSender : PubKey) : BitcoinTxn → Option UInt64
  | .incentive outUtxo receiver => if receiver = txnSender then some outUtxo else none
  | .grant outUtxo receiver => if receiver = txnSender then some outUtxo else none
  | .send utxo =>
    if utxo.receiver = txnSender then some utxo.outUtxo
    else if utxo.sender = txnSender then some utxo.remainder
    else none

/-- The loop over the inputs. -/
def inputLoop (txnPool : Hash → Option BitcoinTxn) (txnSender : PubKey) :
    List Hash → UInt64 → Option UInt64
  | [], inputValue => some inputValue
  | inUtxoHash :: txnInUtxo, inputValue =>
    match txnPool inUtxoHash with
    | none => none
    | some utxo =>
      match utxoValue txnSender utxo with
      | none => none
      | some value => inputLoop txnPool txnSender txnInUtxo (inputValue + value)

/-- `validate_txn`. -/
def validateTxn (txnPool : Hash → Option BitcoinTxn) : BitcoinTxn → Res Bool
  | .send txn =>
    match inputLoop txnPool txn.sender txn.inUtxo 0 with
    | none => .ok false
    | some inputValue =>
      if inputValue ≠ txn.outUtxo + txn.remainder then .ok false else .ok true
  | .grant .. => .ok true
  | .incentive .. => .error .panic

theorem utxoValue_eq (txnSender : PubKey) (utxo : BitcoinTxn) :
    utxoValue txnSender utxo = utxo.ownedValue txnSender := by
  cases utxo <;> rfl

theorem inputLoop_eq (txnPool : Hash → Option BitcoinTxn) (txnSender : PubKey)
    (txnInUtxo : List Hash) : ∀ inputValue, inputLoop txnPool txnSender txnInUtxo inputValue =
      onePass txnPool (addWorth (utxoValue txnSender)) txnInUtxo inputValue := by
  induction txnInUtxo with
  | nil => exact fun _ => rfl
  | cons inUtxoHash txnInUtxo ih =>
    intro inputValue
    rw [inputLoop, onePass]
    cases txnPool inUtxoHash with
    | none => rfl
    | some utxo =>
      show _ = (addWorth (utxoValue txnSender) inputValue utxo).bind _
      unfold addWorth
      dsimp only
      cases utxoValue txnSender utxo with
      | none => rfl
      | some value => exact ih _

theorem validateTxn_send (txnPool : Hash → Option BitcoinTxn) (txn : Send) :
    validateTxn txnPool (.send txn) = .ok (pays (txn.outUtxo + txn.remainder)
      (onePass txnPool (addWorth (utxoValue txn.sender)) txn.inUtxo 0)) := by
  rw [validateTxn, inputLoop_eq]
  cases onePass txnPool (addWorth (utxoValue txn.sender)) txn.inUtxo 0 with
  | none => rfl
  | some inputValue =>
    by_cases h : inputValue = txn.outUtxo + txn.remainder
    · simp [pays, h]
    · simp [pays, h]

/-- The copy is the check of `Bitcoin.BlockManagement`. -/
theorem validateTxn_eq (txnPool : Hash → Option BitcoinTxn) (txn : BitcoinTxn) :
    validateTxn txnPool txn = Bitcoin.validateTxn txnPool txn := by
  cases txn with
  | send txn =>
    have hloop : ∀ inUtxo inputValue, inputLoop txnPool txn.sender inUtxo inputValue =
        Bitcoin.inputValue txnPool txn.sender inUtxo inputValue := by
      intro inUtxo
      induction inUtxo with
      | nil => exact fun _ => rfl
      | cons inUtxoHash inUtxo ih =>
        intro inputValue
        rw [inputLoop, Bitcoin.inputValue]
        cases txnPool inUtxoHash with
        | none => rfl
        | some utxo =>
          dsimp only
          rw [utxoValue_eq]
          cases utxo.ownedValue txn.sender with
          | none => rfl
          | some value => exact ih _
    rw [validateTxn_send, ← inputLoop_eq, hloop]
    rfl
  | grant => rfl
  | incentive => rfl

end BitcoinBlockManagement

/-! ## Bitcoin, in two passes -/

namespace BitcoinTxnValidation

/-- The `value` of a parent; `none` is an early `return Ok(false)`. -/
def utxoValue (sender : PubKey) : BitcoinTxn → Option UInt64
  | .grant outUtxo receiver => if receiver = sender then some outUtxo else none
  | .incentive outUtxo receiver => if receiver = sender then some outUtxo else none
  | .send parentTxn =>
    if parentTxn.receiver = sender then some parentTxn.outUtxo
    else if parentTxn.sender = sender then some parentTxn.remainder
    else none

/-- The loop over the parents. -/
def valueLoop (sender : PubKey) : List BitcoinTxn → UInt64 → Option UInt64
  | [], inputValue => some inputValue
  | utxo :: inUtxoTxns, inputValue =>
    match utxoValue sender utxo with
    | none => none
    | some value => valueLoop sender inUtxoTxns (inputValue + value)

/-- `validate_txn`. -/
def validateTxn (txnPool : Hash → Option BitcoinTxn) :
    BitcoinTxn → Res (Except (List Hash) Bool)
  | .send txn =>
    let (inUtxoTxns, missingDeps) := collectLoop txnPool txn.inUtxo ([], [])
    if missingDeps.length > 0 then .ok (.error missingDeps)
    else
      match valueLoop txn.sender inUtxoTxns 0 with
      | none => .ok (.ok false)
      | some inputValue =>
        if inputValue ≠ txn.outUtxo + txn.remainder then .ok (.ok false) else .ok (.ok true)
  | .grant .. => .ok (.ok true)
  | .incentive .. => .error .panic

theorem utxoValue_eq (sender : PubKey) (utxo : BitcoinTxn) :
    utxoValue sender utxo = utxo.ownedValue sender := by
  cases utxo <;> rfl

theorem valueLoop_eq (sender : PubKey) (inUtxoTxns : List BitcoinTxn) :
    ∀ inputValue, valueLoop sender inUtxoTxns inputValue =
      inUtxoTxns.foldlM (addWorth (utxoValue sender)) inputValue := by
  induction inUtxoTxns with
  | nil => exact fun _ => rfl
  | cons utxo inUtxoTxns ih =>
    intro inputValue
    rw [valueLoop, List.foldlM_cons]
    show _ = (addWorth (utxoValue sender) inputValue utxo).bind _
    unfold addWorth
    cases utxoValue sender utxo with
    | none => rfl
    | some value => exact ih _

theorem validateTxn_send (txnPool : Hash → Option BitcoinTxn) (txn : Send) :
    validateTxn txnPool (.send txn) =
      .ok ((twoPass txnPool (addWorth (utxoValue txn.sender)) txn.inUtxo 0).map
        (pays (txn.outUtxo + txn.remainder))) := by
  rw [validateTxn, collectLoop_eq, twoPass]
  dsimp only
  rw [List.nil_append, List.nil_append, valueLoop_eq]
  by_cases hmiss : absent txnPool txn.inUtxo = []
  · rw [if_pos hmiss, if_neg (by simp [hmiss])]
    exact judge_eq _ _
  · rw [if_neg hmiss, if_pos (List.length_pos_of_ne_nil hmiss)]
    rfl

/-- The copy is the check of `Bitcoin.TxnValidation`. -/
theorem validateTxn_eq (txnPool : Hash → Option BitcoinTxn) (txn : BitcoinTxn) :
    validateTxn txnPool txn = Bitcoin.TxnValidation.validateTxn txnPool txn := by
  cases txn with
  | send txn =>
    have hloop : ∀ inUtxoTxns inputValue, valueLoop txn.sender inUtxoTxns inputValue =
        Bitcoin.TxnValidation.parentsValue txn.sender inUtxoTxns inputValue := by
      intro inUtxoTxns
      induction inUtxoTxns with
      | nil => exact fun _ => rfl
      | cons utxo inUtxoTxns ih =>
        intro inputValue
        rw [valueLoop, Bitcoin.TxnValidation.parentsValue, utxoValue_eq]
        cases utxo.ownedValue txn.sender with
        | none => rfl
        | some value => exact ih _
    rw [validateTxn_send, twoPass, ← valueLoop_eq, hloop]
    show _ = if (absent txnPool txn.inUtxo).length > 0 then
        Except.ok (Except.error (absent txnPool txn.inUtxo)) else _
    by_cases hmiss : absent txnPool txn.inUtxo = []
    · rw [if_pos hmiss, if_neg (by simp [hmiss])]
      rfl
    · rw [if_neg hmiss, if_pos (List.length_pos_of_ne_nil hmiss)]
      rfl
  | grant => rfl
  | incentive => rfl

end BitcoinTxnValidation

/-! ## Avalanche -/

/-- A loop over the parents, with the values `ownedValue` gives and an early
return, is the loop of the stages. -/
theorem parentsValue_unique {sender : PubKey} {worth : AvalancheTxn → Res (Option UInt64)}
    {loop : List AvalancheTxn → UInt64 → Res (Option UInt64)}
    (hworth : ∀ utxo, worth utxo = utxo.ownedValue sender)
    (hnil : ∀ inputValue, loop [] inputValue = .ok (some inputValue))
    (hcons : ∀ utxo parents inputValue, loop (utxo :: parents) inputValue =
      worth utxo >>= fun value =>
      match value with
      | none => .ok none
      | some value => loop parents (inputValue + value)) (parents : List AvalancheTxn) :
    ∀ inputValue, loop parents inputValue =
      AvalancheTxn.parentsValue sender parents inputValue := by
  induction parents with
  | nil => exact hnil
  | cons utxo parents ih =>
    intro inputValue
    rw [hcons, hworth, AvalancheTxn.parentsValue]
    refine congrArg (utxo.ownedValue sender >>= ·) (funext fun value => ?_)
    cases value with
    | none => rfl
    | some value => exact ih _

/-- What both of Avalanche's copies come to on a `Send`. -/
def judgeSend (txnPool : Hash → Option AvalancheTxn) (sender : PubKey) (inUtxo : List Hash)
    (outputs : UInt64) : Res (Except (List Hash) Bool) :=
  if (absent txnPool inUtxo).length > 0 then .ok (.error (absent txnPool inUtxo))
  else
    AvalancheTxn.parentsValue sender (inUtxo.filterMap txnPool) 0 >>= fun inputValue =>
    .ok (.ok (pays outputs inputValue))

/-- Where clients made all parents, there is a result, and what is missing is
all that is missing. -/
theorem judgeSend_returns {txnPool : Hash → Option AvalancheTxn}
    (hpool : ∀ h txn, txnPool h = some txn → txn.fromClient) (sender : PubKey)
    (inUtxo : List Hash) (outputs : UInt64) :
    ∃ r, judgeSend txnPool sender inUtxo outputs = .ok r ∧
      ∀ missingDeps, r = .error missingDeps → missingDeps = absent txnPool inUtxo := by
  unfold judgeSend
  split
  · exact ⟨_, rfl, fun missingDeps h => (Except.error.inj h).symm⟩
  · have hparents : ∀ p ∈ inUtxo.filterMap txnPool, p.fromClient := by
      intro p hp
      obtain ⟨h, -, hp⟩ := List.mem_filterMap.mp hp
      exact hpool h p hp
    obtain ⟨inputValue, hvalue⟩ := AvalancheTxn.parentsValue_returns sender 0 hparents
    rw [hvalue]
    exact ⟨_, rfl, fun _ h => absurd h (by simp)⟩

namespace AvalancheBlockManagement

/-- The `value` of a parent; `none` is an early `return Ok(Ok(false))`. -/
def utxoValue (txnSender : PubKey) : AvalancheTxn → Res (Option UInt64)
  | .grant outUtxo receiver _ => .ok (if receiver = txnSender then some outUtxo else none)
  | .send sender _ receiver outUtxo remainder _ =>
    .ok (if receiver = txnSender then some outUtxo
      else if sender = txnSender then some remainder
      else none)
  | .noop _ | .placeHolder => .error .panic

/-- The loop over the parents. -/
def valueLoop (txnSender : PubKey) : List AvalancheTxn → UInt64 → Res (Option UInt64)
  | [], inputValue => .ok (some inputValue)
  | utxo :: inUtxo, inputValue =>
    utxoValue txnSender utxo >>= fun value =>
    match value with
    | none => .ok none
    | some value => valueLoop txnSender inUtxo (inputValue + value)

/-- `validate_txn`. -/
def validateTxn (txnPool : Hash → Option AvalancheTxn) :
    AvalancheTxn → Res (Except (List Hash) Bool)
  | .send txnSender txnInUtxo _ txnOutUtxo txnRemainder _ =>
    let (inUtxo, missingDeps) := collectLoop txnPool txnInUtxo ([], [])
    -- we cannot reject the txn since the source utxo may not been received yet
    if missingDeps.length > 0 then .ok (.error missingDeps)
    else
      valueLoop txnSender inUtxo 0 >>= fun inputValue =>
      match inputValue with
      | none => .ok (.ok false)
      | some inputValue =>
        if inputValue ≠ txnOutUtxo + txnRemainder then .ok (.ok false) else .ok (.ok true)
  | .grant .. | .noop _ => .ok (.ok true)
  | .placeHolder => .error .panic

theorem valueLoop_eq (txnSender : PubKey) (inUtxo : List AvalancheTxn) (inputValue : UInt64) :
    valueLoop txnSender inUtxo inputValue =
      AvalancheTxn.parentsValue txnSender inUtxo inputValue :=
  parentsValue_unique (fun utxo => by cases utxo <;> rfl) (fun _ => rfl) (fun _ _ _ => rfl) _ _

theorem validateTxn_send (txnPool : Hash → Option AvalancheTxn) (txnSender : PubKey)
    (txnInUtxo : List Hash) (receiver : PubKey) (txnOutUtxo txnRemainder : UInt64)
    (senderSignature : Signature) :
    validateTxn txnPool (.send txnSender txnInUtxo receiver txnOutUtxo txnRemainder
      senderSignature) = judgeSend txnPool txnSender txnInUtxo (txnOutUtxo + txnRemainder) := by
  rw [validateTxn, collectLoop_eq, judgeSend]
  dsimp only
  rw [List.nil_append, List.nil_append, valueLoop_eq]
  refine congrArg (ite _ _) (congrArg (AvalancheTxn.parentsValue _ _ _ >>= ·) ?_)
  exact funext fun _ => judge_eq _ _

/-- The copy is the check of `Avalanche.BlockManagement`. -/
theorem validateTxn_eq (txnPool : Hash → Option AvalancheTxn) (txn : AvalancheTxn) :
    validateTxn txnPool txn = Avalanche.BlockManagement.validateTxn txnPool txn := by
  cases txn with
  | send =>
    rw [validateTxn_send]
    rfl
  | grant => rfl
  | noop => rfl
  | placeHolder => rfl

end AvalancheBlockManagement

namespace AvalancheTxnValidation

/-- The `value` of a parent; `none` is an early `return Ok(false)`. -/
def utxoValue (sender : PubKey) : AvalancheTxn → Res (Option UInt64)
  | .grant outUtxo receiver _ => .ok (if receiver = sender then some outUtxo else none)
  | .send parentTxnSender _ parentTxnRecver parentTxnOutUtxo parentTxnRemainder _ =>
    .ok (if parentTxnRecver = sender then some parentTxnOutUtxo
      else if parentTxnSender = sender then some parentTxnRemainder
      else none)
  | .noop _ | .placeHolder => .error .panic

/-- The loop over the parents. -/
def valueLoop (sender : PubKey) : List AvalancheTxn → UInt64 → Res (Option UInt64)
  | [], inputValue => .ok (some inputValue)
  | utxo :: inUtxoTxns, inputValue =>
    utxoValue sender utxo >>= fun value =>
    match value with
    | none => .ok none
    | some value => valueLoop sender inUtxoTxns (inputValue + value)

/-- `validate_txn`. -/
def validateTxn (txnPool : Hash → Option AvalancheTxn) :
    AvalancheTxn → Res (Except (List Hash) Bool)
  | .send sender inUtxo _ outUtxo remainder _ =>
    let (inUtxoTxns, missingDeps) := collectLoop txnPool inUtxo ([], [])
    if missingDeps.length > 0 then .ok (.error missingDeps)
    else
      valueLoop sender inUtxoTxns 0 >>= fun inputValue =>
      match inputValue with
      | none => .ok (.ok false)
      | some inputValue =>
        if inputValue ≠ outUtxo + remainder then .ok (.ok false) else .ok (.ok true)
  | .grant .. => .ok (.ok true)
  | .placeHolder | .noop _ => .error .panic

theorem valueLoop_eq (sender : PubKey) (inUtxoTxns : List AvalancheTxn) (inputValue : UInt64) :
    valueLoop sender inUtxoTxns inputValue =
      AvalancheTxn.parentsValue sender inUtxoTxns inputValue :=
  parentsValue_unique (fun utxo => by cases utxo <;> rfl) (fun _ => rfl) (fun _ _ _ => rfl) _ _

theorem validateTxn_send (txnPool : Hash → Option AvalancheTxn) (sender : PubKey)
    (inUtxo : List Hash) (receiver : PubKey) (outUtxo remainder : UInt64)
    (senderSignature : Signature) :
    validateTxn txnPool (.send sender inUtxo receiver outUtxo remainder senderSignature) =
      judgeSend txnPool sender inUtxo (outUtxo + remainder) := by
  rw [validateTxn, collectLoop_eq, judgeSend]
  dsimp only
  rw [List.nil_append, List.nil_append, valueLoop_eq]
  refine congrArg (ite _ _) (congrArg (AvalancheTxn.parentsValue _ _ _ >>= ·) ?_)
  exact funext fun _ => judge_eq _ _

/-- The copy is the check of the shared stage, at Avalanche's transactions. -/
theorem validateTxn_eq (ids : UniqueIds) (txnPool : Hash → Option AvalancheTxn)
    (txn : AvalancheTxn) :
    validateTxn txnPool txn = Validator.validateTxn (avalancheKind ids) txnPool txn := by
  cases txn with
  | send sender inUtxo receiver outUtxo remainder senderSignature =>
    rw [validateTxn_send]
    refine congrArg (ite _ _) ?_
    show _ = (AvalancheTxn.parentsValue sender (inUtxo.filterMap txnPool) 0 >>= _) >>= _
    cases AvalancheTxn.parentsValue sender (inUtxo.filterMap txnPool) 0 with
    | error fault => rfl
    | ok inputValue => rfl
  | grant => rfl
  | noop => rfl
  | placeHolder => rfl

end AvalancheTxnValidation

/-! ## The copies agree -/

/-- The inputs of a transaction. -/
def bitcoinInUtxo : BitcoinTxn → List Hash
  | .send txn => txn.inUtxo
  | _ => []

/-- Bitcoin's two copies, on what clients make. -/
theorem bitcoin_agrees (txnPool : Hash → Option BitcoinTxn) {txn : BitcoinTxn}
    (htxn : txn.isIncentive = false) :
    ∃ valid r, BitcoinBlockManagement.validateTxn txnPool txn = .ok valid ∧
      BitcoinTxnValidation.validateTxn txnPool txn = .ok r ∧
      (valid = true ↔ r = .ok true) ∧
      (valid = false ↔ r = .ok false ∨ r = .error (absent txnPool (bitcoinInUtxo txn))) := by
  cases txn with
  | incentive => exact absurd htxn (by simp [BitcoinTxn.isIncentive])
  | grant => exact ⟨true, .ok true, rfl, rfl, by simp, by simp⟩
  | send txn =>
    have hvalue : BitcoinBlockManagement.utxoValue txn.sender =
        BitcoinTxnValidation.utxoValue txn.sender := by
      funext utxo
      rw [BitcoinBlockManagement.utxoValue_eq, BitcoinTxnValidation.utxoValue_eq]
    have hnone : pays (txn.outUtxo + txn.remainder) none = false := by simp [pays]
    rw [BitcoinBlockManagement.validateTxn_send, BitcoinTxnValidation.validateTxn_send, hvalue]
    exact ⟨_, _, rfl, rfl, onePass_accepts hnone, onePass_rejects hnone⟩

/-- Avalanche's two copies, on what clients make. -/
theorem avalanche_agrees {txnPool : Hash → Option AvalancheTxn}
    (hpool : ∀ h txn, txnPool h = some txn → txn.fromClient) {txn : AvalancheTxn}
    (htxn : txn.fromClient) :
    ∃ r, AvalancheBlockManagement.validateTxn txnPool txn = .ok r ∧
      AvalancheTxnValidation.validateTxn txnPool txn = .ok r ∧
      ∀ missingDeps, r = .error missingDeps → missingDeps = absent txnPool txn.parents := by
  cases txn with
  | send sender inUtxo receiver outUtxo remainder senderSignature =>
    rw [AvalancheBlockManagement.validateTxn_send, AvalancheTxnValidation.validateTxn_send]
    obtain ⟨r, hr, hmissing⟩ := judgeSend_returns hpool sender inUtxo (outUtxo + remainder)
    exact ⟨r, hr, hr, hmissing⟩
  | grant => exact ⟨.ok true, rfl, rfl, fun _ h => absurd h (by simp)⟩
  | noop => exact absurd htxn (by simp [AvalancheTxn.fromClient])
  | placeHolder => exact absurd htxn (by simp [AvalancheTxn.fromClient])

/-- **The copies of the value check agree.** On every pool, Bitcoin's block
management accepts the `Grant`s and `Send`s its validation accepts, and rejects
those for which the validation says no or names the unknown inputs, all of them,
in order and as often as they are listed. Avalanche's two copies return the
same. -/
theorem value_checks_agree (bitcoinPool : Hash → Option BitcoinTxn) {btcTxn : BitcoinTxn}
    (hbtc : btcTxn.isIncentive = false) {avalanchePool : Hash → Option AvalancheTxn}
    (hpool : ∀ h txn, avalanchePool h = some txn → txn.fromClient) {avaxTxn : AvalancheTxn}
    (havax : avaxTxn.fromClient) :
    (∃ valid r, BitcoinBlockManagement.validateTxn bitcoinPool btcTxn = .ok valid ∧
      BitcoinTxnValidation.validateTxn bitcoinPool btcTxn = .ok r ∧
      (valid = true ↔ r = .ok true) ∧
      (valid = false ↔ r = .ok false ∨ ∃ missingDeps, r = .error missingDeps ∧
        missingDeps = (bitcoinInUtxo btcTxn).filter fun h => (bitcoinPool h).isNone)) ∧
    ∃ r, AvalancheBlockManagement.validateTxn avalanchePool avaxTxn = .ok r ∧
      AvalancheTxnValidation.validateTxn avalanchePool avaxTxn = .ok r ∧
      ∀ missingDeps, r = .error missingDeps →
        missingDeps = avaxTxn.parents.filter fun h => (avalanchePool h).isNone := by
  obtain ⟨valid, r, hvalid, hr, haccept, hreject⟩ := bitcoin_agrees bitcoinPool hbtc
  refine ⟨⟨valid, r, hvalid, hr, haccept, hreject.trans (or_congr_right ?_)⟩,
    avalanche_agrees hpool havax⟩
  exact (exists_eq_right (p := fun missingDeps => r = .error missingDeps)).symm

/-- A `Send` that lists an unknown input, a foreign one, an own one, and the
unknown one again. -/
theorem value_checks_agree_demo :
    let bitcoinPool : Hash → Option BitcoinTxn := fun h =>
      if h = 1 then some (.grant 5 [1]) else if h = 2 then some (.grant 7 [2]) else none
    let avalanchePool : Hash → Option AvalancheTxn := fun h =>
      if h = 1 then some (.grant 5 [1] 0) else if h = 2 then some (.grant 7 [2] 0) else none
    BitcoinBlockManagement.validateTxn bitcoinPool
        (.send ⟨[1], [3, 2, 1, 3], [2], 5, 0, [], 0, 0, true⟩) = .ok false ∧
      AvalancheBlockManagement.validateTxn avalanchePool (.send [1] [3, 2, 1, 3] [2] 5 0 []) =
        .ok (.error [3, 3]) := by
  intro bitcoinPool avalanchePool
  have hbtc : (BitcoinTxn.send ⟨[1], [3, 2, 1, 3], [2], 5, 0, [], 0, 0, true⟩).isIncentive =
      false := rfl
  have havax : (AvalancheTxn.send [1] [3, 2, 1, 3] [2] 5 0 []).fromClient = true := rfl
  have hpool : ∀ h txn, avalanchePool h = some txn → txn.fromClient = true := by
    intro h txn htxn
    have hcases : txn = .grant 5 [1] 0 ∨ txn = .grant 7 [2] 0 := by
      simp only [avalanchePool] at htxn
      split at htxn
      · exact Or.inl (Option.some.inj htxn).symm
      · split at htxn
        · exact Or.inr (Option.some.inj htxn).symm
        · exact absurd htxn (by simp)
    rcases hcases with rfl | rfl
    · rfl
    · rfl
  obtain ⟨⟨valid, r, hvalid, hr, -, hreject⟩, r', hmgmt, hval, -⟩ :=
    value_checks_agree bitcoinPool hbtc hpool havax
  have hmissing : r = .error [3, 3] := (Except.ok.inj hr).symm
  have hmissing' : r' = .error [3, 3] := (Except.ok.inj hval).symm
  have hfalse : valid = false := hreject.mpr (Or.inr ⟨[3, 3], hmissing, by decide⟩)
  rw [hvalid, hmgmt, hfalse, hmissing']
  exact ⟨rfl, rfl⟩

end Copycat.ValueCheck
