import Copycat.Bitcoin.Arrival

/-!
# Peer blocks whose signatures cannot be checked

The pre-check of `Copycat.TxnsSeen` against what it is there for: a block goes on
to `validate_block` only if all its transactions are verified, as the batch task
of the transaction stage would verify them.

The two tasks differ where `Txn::validate` ends in an error, as `ecdsa::verify`
does for a malformed key or signature. In both the loop goes on to the next
transaction. For a batch that leaves the transaction out; for a block it leaves it
in (`verifiedOnly_iff`).
-/

namespace Copycat

variable {τ : Type}

section Check

variable (txnId : τ → Hash) (validate : τ → Res (Option Bool)) (seen : SeenMap)

/-- What stops the pre-check of a block: a transaction that is recorded as invalid,
or is not recorded and turns out invalid or makes the task panic. -/
def Refused (t : τ) : Prop :=
  seen (txnId t) = some false ∨
    (seen (txnId t) = none ∧ (validate t = .ok (some false) ∨ ∃ fault, validate t = .error fault))

/-- A transaction that is not recorded and whose check ends in an error. -/
def Uncheckable (t : τ) : Prop := seen (txnId t) = none ∧ validate t = .ok none

/-- Only verified blocks go on, and the batch task agrees about every transaction
in them. -/
structure VerifiedOnly (txns : List τ) : Prop where
  verified : (preCheck txnId validate seen txns).2 = true →
    ∀ t ∈ txns, seen (txnId t) = some true ∨ validate t = .ok (some true)
  agree : (preCheck txnId validate seen txns).2 = true → ∀ t ∈ txns, ∀ src,
    seen (txnId t) = some true ∨
      (checkBatch txnId validate seen [(src, t)]).2 = some [(src, t)]

end Check

variable {txnId : τ → Hash} {validate : τ → Res (Option Bool)} {seen : SeenMap}

/-- The batch task sends on what is new and valid. -/
theorem checkBatch_one {src : NodeId} {t : τ} (hnew : seen (txnId t) = none)
    (hvalid : validate t = .ok (some true)) :
    (checkBatch txnId validate seen [(src, t)]).2 = some [(src, t)] := by
  simp [checkBatch, hnew, hvalid]

/-- A result entered for one transaction changes nothing for the others, and a
valid one is not refused before or after. -/
theorem refused_insert (hinj : Function.Injective txnId) {txn : τ}
    (hnew : seen (txnId txn) = none) (hvalid : validate txn = .ok (some true)) (t : τ) :
    Refused txnId validate (Function.update seen (txnId txn) (some true)) t ↔
      Refused txnId validate seen t := by
  unfold Refused
  by_cases ht : t = txn
  · subst ht
    simp [hnew, hvalid]
  · have hne : txnId t ≠ txnId txn := fun e => ht (hinj e)
    rw [Function.update_of_ne hne]

/-- A block goes on if and only if nothing in it is refused. -/
theorem preCheck_iff (hinj : Function.Injective txnId) (txns : List τ) :
    (preCheck txnId validate seen txns).2 = true ↔
      ∀ t ∈ txns, ¬ Refused txnId validate seen t := by
  induction txns generalizing seen with
  | nil => simp [preCheck]
  | cons txn txns ih =>
    rw [List.forall_mem_cons]
    -- the head is let through or refused, and the rest is as before
    have hpass : ¬ Refused txnId validate seen txn →
        ((preCheck txnId validate seen txns).2 = true ↔
          ¬ Refused txnId validate seen txn ∧ ∀ t ∈ txns, ¬ Refused txnId validate seen t) :=
      fun hok => ih.trans (and_iff_right hok).symm
    have hstop : Refused txnId validate seen txn →
        (false = true ↔
          ¬ Refused txnId validate seen txn ∧ ∀ t ∈ txns, ¬ Refused txnId validate seen t) :=
      fun href => ⟨fun h => absurd h Bool.false_ne_true, fun h => absurd href h.1⟩
    rw [preCheck]
    cases hs : seen (txnId txn) with
    | some valid =>
      cases valid with
      | true => exact hpass (by simp [Refused, hs])
      | false => exact hstop (Or.inl hs)
    | none =>
      cases hv : validate txn with
      | error fault => exact hstop (Or.inr ⟨hs, Or.inr ⟨fault, hv⟩⟩)
      | ok result =>
        cases result with
        | none => exact hpass (by simp [Refused, hs, hv])
        | some valid =>
          cases valid with
          | false => exact hstop (Or.inr ⟨hs, Or.inl hv⟩)
          | true =>
            have hok : ¬ Refused txnId validate seen txn := by simp [Refused, hs, hv]
            refine (ih.trans ?_).trans (and_iff_right hok).symm
            exact forall₂_congr fun t _ => not_congr (refused_insert hinj hs hv t)

/-- What is neither refused nor uncheckable is verified. -/
theorem verified_of {t : τ} (hrefused : ¬ Refused txnId validate seen t)
    (hcheck : ¬ Uncheckable txnId validate seen t) :
    seen (txnId t) = some true ∨ (seen (txnId t) = none ∧ validate t = .ok (some true)) := by
  cases hs : seen (txnId t) with
  | some valid =>
    cases valid with
    | true => exact Or.inl rfl
    | false => exact absurd (Or.inl hs) hrefused
  | none =>
    refine Or.inr ⟨rfl, ?_⟩
    match hv : validate t with
    | .error fault => exact absurd (Or.inr ⟨hs, Or.inr ⟨fault, hv⟩⟩) hrefused
    | .ok none => exact absurd ⟨hs, hv⟩ hcheck
    | .ok (some false) => exact absurd (Or.inr ⟨hs, Or.inl hv⟩) hrefused
    | .ok (some true) => rfl

/-- Only verified blocks go on if and only if the block has a transaction that stops
it, or none that cannot be checked. -/
theorem verifiedOnly_iff (hinj : Function.Injective txnId) (txns : List τ) :
    VerifiedOnly txnId validate seen txns ↔
      (∃ t ∈ txns, Refused txnId validate seen t) ∨
        ∀ t ∈ txns, ¬ Uncheckable txnId validate seen t := by
  constructor
  · intro h
    by_cases href : ∃ t ∈ txns, Refused txnId validate seen t
    · exact Or.inl href
    · refine Or.inr fun t ht hun => ?_
      have hpass : (preCheck txnId validate seen txns).2 = true :=
        (preCheck_iff hinj txns).mpr fun t ht href' => href ⟨t, ht, href'⟩
      obtain ⟨hs, hv⟩ := hun
      rcases h.verified hpass t ht with hseen | hvalid
      · exact absurd (hs.symm.trans hseen) (by simp)
      · exact absurd (hv.symm.trans hvalid) (by simp)
  · intro h
    have hall : (preCheck txnId validate seen txns).2 = true → ∀ t ∈ txns,
        seen (txnId t) = some true ∨
          (seen (txnId t) = none ∧ validate t = .ok (some true)) := by
      intro hpass t ht
      have hnot := (preCheck_iff hinj txns).mp hpass
      rcases h with ⟨t', ht', href⟩ | hcheck
      · exact absurd href (hnot t' ht')
      · exact verified_of (hnot t ht) (hcheck t ht)
    exact ⟨fun hpass t ht => (hall hpass t ht).imp_right And.right,
      fun hpass t ht src => (hall hpass t ht).imp_right fun hnew => checkBatch_one hnew.1 hnew.2⟩

/-- A `verify` that rejects an empty key with an error. -/
def strictVerify (key : PubKey) (_ : List Hash) (_ : Signature) : Option Bool :=
  if key = [] then none else some true

/-- A spend with an empty key and no signature. -/
def keyless : BitcoinTxn :=
  .send ⟨[], [0], [1], 10, 0, [], 0, 0, true⟩

/-- A block with a keyless spend goes on, though the batch task drops the spend. -/
theorem keyless_goes_on :
    (preCheck (IdScheme.ofTable []).txnId (Bitcoin.BitcoinTxn.validate strictVerify) (fun _ => none)
        [keyless]).2 = true ∧
      (checkBatch (IdScheme.ofTable []).txnId (Bitcoin.BitcoinTxn.validate strictVerify)
        (fun _ => none) [(0, keyless)]).2 = some [] ∧
      ¬ VerifiedOnly (IdScheme.ofTable []).txnId (Bitcoin.BitcoinTxn.validate strictVerify)
        (fun _ => none) [keyless] := by
  have hpass : (preCheck (IdScheme.ofTable []).txnId (Bitcoin.BitcoinTxn.validate strictVerify)
      (fun _ => none) [keyless]).2 = true := rfl
  refine ⟨hpass, rfl, fun h => ?_⟩
  rcases h.verified hpass keyless List.mem_cons_self with hseen | hvalid
  · exact absurd hseen (by simp)
  · exact absurd hvalid (by decide)

/-- A block with a keyless spend and a grant that was refused before does not go on;
one whose transactions are all checked or known to be valid may. -/
theorem verifiedOnly_demo :
    VerifiedOnly (IdScheme.ofTable []).txnId (Bitcoin.BitcoinTxn.validate strictVerify)
        (Function.update (fun _ => none) ((IdScheme.ofTable []).txnId (.grant 100 [1]))
          (some false)) [keyless, .grant 100 [1]] ∧
      VerifiedOnly (IdScheme.ofTable []).txnId (Bitcoin.BitcoinTxn.validate strictVerify)
        (Function.update (fun _ => none) ((IdScheme.ofTable []).txnId (.grant 100 [1]))
          (some true)) [.grant 100 [1], .grant 200 [1]] := by
  constructor
  · refine (verifiedOnly_iff (IdScheme.ofTable []).txnId_inj _).mpr (Or.inl ?_)
    exact ⟨.grant 100 [1], by simp, Or.inl (Function.update_self ..)⟩
  · refine (verifiedOnly_iff (IdScheme.ofTable []).txnId_inj _).mpr (Or.inr fun t ht hun => ?_)
    rcases List.mem_cons.mp ht with rfl | ht
    · exact absurd hun.2 (by decide)
    · rw [List.mem_singleton.mp ht] at hun
      exact absurd hun.2 (by decide)

end Copycat
