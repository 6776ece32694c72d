import Copycat.TxnsSeen
import Copycat.Validation

/-!
# Transactions on their way into the stage

`txn_validation_thread` and `block_management_thread` share `txns_seen`. A
batch of delivered transactions goes through `checkBatch` and what is left of
it to `TxnValidation::validate`; a peer block goes through `preCheck`. Each is
one step here.

A batch skips what is in the map, whoever entered it. So `validate` is given
the valid transactions that are delivered before a peer block gets to them
(`InTime`), and accepts those of them whose ancestors are in time as well. The
invariant is `PathInv`; `sameAccepted_iff` compares with the same deliveries and no
blocks.
-/

namespace Copycat

open Copycat.Lib

/-- The transactions of a chain, as the two threads treat them. `validate` is
`Txn::validate` and `validateBatch` the `validate` of the chain's stage.
Clients make the transactions of some kinds only; on those, nothing panics. -/
structure TxnStage (τ : Type) extends TxnKind τ where
  validate : τ → Res (Option Bool)
  validateBatch : EntryOrder τ → Nat → Validator τ → List (NodeId × τ) →
    Res (Validator τ × List (NodeId × τ))
  validateBatch_eq : ∀ ord fuel s batch,
    validateBatch ord fuel s batch = Validator.validate toTxnKind ord fuel s batch
  fromClient : τ → Bool
  validate_returns : ∀ t, fromClient t → ∃ r, validate t = .ok r
  check_returns : ∀ t parents, fromClient t → (∀ p ∈ parents, fromClient p) →
    ∃ b, check t parents = .ok b

/-- What is delivered to a node: a batch of transactions from clients and
peers, or a block of a peer. -/
inductive Event (τ : Type) where
  | batch (txns : List (NodeId × τ))
  | block (txns : List τ)

/-- What the two threads work on. -/
structure TxnPath (τ : Type) where
  txnsSeen : SeenMap
  validator : Validator τ

variable {τ : Type}

def TxnPath.new : TxnPath τ where
  txnsSeen := fun _ => none
  validator := .new

/-- One delivery. What comes out is what `TxnValidation::validate` returns. -/
def handle (stage : TxnStage τ) (ord : EntryOrder τ) (fuel : Nat) (s : TxnPath τ) :
    Event τ → Res (TxnPath τ × List (NodeId × τ))
  | .batch txns =>
    let checked := checkBatch stage.txnId stage.validate s.txnsSeen txns
    match checked.2 with
    | none => .ok ({ s with txnsSeen := checked.1 }, [])
    | some correct =>
      stage.validateBatch ord fuel s.validator correct >>= fun r => .ok (⟨checked.1, r.1⟩, r.2)
  | .block txns =>
    .ok ({ s with txnsSeen := (preCheck stage.txnId stage.validate s.txnsSeen txns).1 }, [])

/-- The path as a machine; the label is a delivery and what comes out. -/
def txnPath (stage : TxnStage τ) : Machine (TxnPath τ) (Event τ × List (NodeId × τ)) where
  start := .new
  step s l s' := ∃ ord fuel, handle stage ord fuel s l.1 = .ok (s', l.2)

/-- The transactions accepted in the course of a run. -/
def acceptedIn (tr : List (Event τ × List (NodeId × τ))) : Set τ :=
  fun t => ∃ l ∈ tr, ∃ src, (src, t) ∈ l.2

def Event.isBatch : Event τ → Bool
  | batch _ => true
  | block _ => false

/-- The deliveries without the blocks. -/
def withoutBlocks (events : List (Event τ)) : List (Event τ) :=
  events.filter Event.isBatch

/-! ## What reaches the stage -/

variable {stage : TxnStage τ}

/-- The batches bring only transactions that clients make. -/
def FromClients (stage : TxnStage τ) (events : List (Event τ)) : Prop :=
  ∀ txns, Event.batch txns ∈ events → ∀ x ∈ txns, stage.fromClient x.2

/-- Some batch brings the transaction. -/
def Brought (events : List (Event τ)) (t : τ) : Prop :=
  ∃ txns, Event.batch txns ∈ events ∧ t ∈ txns.map Prod.snd

/-- The pre-check of some peer block gets to the transaction. -/
def InBlock (stage : TxnStage τ) (events : List (Event τ)) (t : τ) : Prop :=
  ∃ txns, Event.block txns ∈ events ∧ t ∈ reached stage.validate txns

/-- Some batch brings the transaction before a peer block gets to it. -/
def InTime (stage : TxnStage τ) (events : List (Event τ)) (t : τ) : Prop :=
  ∃ done txns later, events = done ++ .batch txns :: later ∧ t ∈ txns.map Prod.snd ∧
    ¬ InBlock stage done t

/-- The delivered transactions whose signature is valid. -/
def delivered (stage : TxnStage τ) (events : List (Event τ)) : Set τ :=
  fun t => Brought events t ∧ stage.validate t = .ok (some true)

/-- Those of them that are in time. -/
def handedOn (stage : TxnStage τ) (events : List (Event τ)) : Set τ :=
  fun t => InTime stage events t ∧ stage.validate t = .ok (some true)

theorem brought_snoc (events : List (Event τ)) (e : Event τ) (t : τ) :
    Brought (events ++ [e]) t ↔
      Brought events t ∨ ∃ txns, e = .batch txns ∧ t ∈ txns.map Prod.snd := by
  unfold Brought
  simp only [List.mem_append, List.mem_singleton, or_and_right, exists_or, eq_comm]

theorem inBlock_snoc (events : List (Event τ)) (e : Event τ) (t : τ) :
    InBlock stage (events ++ [e]) t ↔
      InBlock stage events t ∨ ∃ txns, e = .block txns ∧ t ∈ reached stage.validate txns := by
  unfold InBlock
  simp only [List.mem_append, List.mem_singleton, or_and_right, exists_or, eq_comm]

theorem inTime_snoc (events : List (Event τ)) (e : Event τ) (t : τ) :
    InTime stage (events ++ [e]) t ↔ InTime stage events t ∨
      (∃ txns, e = .batch txns ∧ t ∈ txns.map Prod.snd) ∧ ¬ InBlock stage events t := by
  constructor
  · intro h
    obtain ⟨done, txns, later, he, ht, hno⟩ := h
    rcases List.eq_nil_or_concat later with rfl | ⟨later, last, rfl⟩
    · obtain ⟨rfl, hlast⟩ := List.append_inj' he rfl
      exact Or.inr ⟨⟨txns, by simpa using hlast, ht⟩, hno⟩
    · rw [List.concat_eq_append, ← List.cons_append, ← List.append_assoc] at he
      obtain ⟨rfl, -⟩ := List.append_inj' he rfl
      exact Or.inl ⟨done, txns, later, rfl, ht, hno⟩
  · intro h
    rcases h with ⟨done, txns, later, rfl, ht, hno⟩ | ⟨⟨txns, rfl, ht⟩, hno⟩
    · exact ⟨done, txns, later ++ [e], by simp, ht, hno⟩
    · exact ⟨events, txns, [], rfl, ht, hno⟩

theorem InTime.brought {events : List (Event τ)} {t : τ} (h : InTime stage events t) :
    Brought events t := by
  obtain ⟨done, txns, later, rfl, ht, -⟩ := h
  exact ⟨txns, by simp, ht⟩

/-- What is brought, and in no block, is in time. -/
theorem Brought.inTime {events : List (Event τ)} {t : τ} (h : Brought events t)
    (hno : ¬ InBlock stage events t) : InTime stage events t := by
  obtain ⟨txns, htxns, ht⟩ := h
  obtain ⟨done, later, rfl⟩ := List.append_of_mem htxns
  refine ⟨done, txns, later, rfl, ht, fun hin => hno ?_⟩
  obtain ⟨blk, hblk, hr⟩ := hin
  exact ⟨blk, List.mem_append_left _ hblk, hr⟩

/-- Without blocks, everything that is delivered is in time. -/
theorem handedOn_withoutBlocks (stage : TxnStage τ) (events : List (Event τ)) :
    handedOn stage (withoutBlocks events) = delivered stage events := by
  have hbatch : ∀ txns, Event.batch txns ∈ withoutBlocks events ↔ Event.batch txns ∈ events := by
    intro txns
    simp [withoutBlocks, Event.isBatch]
  have hno : ∀ t, ¬ InBlock stage (withoutBlocks events) t := by
    intro t h
    obtain ⟨txns, hmem, -⟩ := h
    exact absurd (List.mem_filter.mp hmem).2 (by simp [Event.isBatch])
  refine Set.ext fun t => and_congr_left fun _ => ?_
  constructor
  · intro h
    obtain ⟨txns, hmem, ht⟩ := h.brought
    exact ⟨txns, (hbatch txns).mp hmem, ht⟩
  · intro h
    obtain ⟨txns, hmem, ht⟩ := h
    exact Brought.inTime ⟨txns, (hbatch txns).mpr hmem, ht⟩ (hno t)

/-! ## The invariant -/

/-- After the deliveries `events`, with `out` accepted. -/
structure PathInv (stage : TxnStage τ) (events : List (Event τ)) (out : Set τ) (s : TxnPath τ) :
    Prop where
  seen : ∀ t v, s.txnsSeen (stage.txnId t) = some v ↔
    (Brought events t ∨ InBlock stage events t) ∧ stage.validate t = .ok (some v)
  filed : s.validator.Filed stage.toTxnKind
  law : Admission.Law stage.items (handedOn stage events) [] (s.validator.admission stage.toTxnKind)
  out : ∀ t, t ∈ (s.validator.admission stage.toTxnKind).admitted ↔ t ∈ out

theorem pathInv_new (stage : TxnStage τ) : PathInv stage [] ∅ .new where
  seen t v := by simp [TxnPath.new, Brought, InBlock]
  filed := Validator.filed_new _
  law := by
    have hnone : handedOn stage [] = ∅ := by
      refine Set.ext fun t => ⟨fun h => ?_, False.elim⟩
      obtain ⟨txns, hmem, -⟩ := h.1.brought
      exact absurd hmem (by simp)
    have hempty : (TxnPath.new : TxnPath τ).validator.admission stage.toTxnKind
        = Admission.empty Hash τ := by
      refine Admission.eq_of_mem (fun t => ?_) fun d t => ?_
      · exact ⟨fun h => absurd (show none = some t from h) (by simp), False.elim⟩
      · refine ⟨fun h => ?_, False.elim⟩
        obtain ⟨l, hl, -⟩ := h
        exact absurd hl (by simp [TxnPath.new, Validator.new])
    rw [hnone, hempty]
    exact Admission.law_empty stage.items
  out t := by
    constructor
    · exact fun h => absurd (show none = some t from h) (by simp)
    · exact False.elim

theorem PathInv.coherent {events : List (Event τ)} {out : Set τ} {s : TxnPath τ}
    (h : PathInv stage events out s) : Coherent stage.txnId stage.validate s.txnsSeen :=
  fun t v ht => ((h.seen t v).mp ht).2

/-- A block adds to the map only. -/
theorem PathInv.block {events : List (Event τ)} {out : Set τ} {s : TxnPath τ}
    (h : PathInv stage events out s) (txns : List τ) :
    PathInv stage (events ++ [.block txns]) out
      { s with txnsSeen := (preCheck stage.txnId stage.validate s.txnsSeen txns).1 } where
  seen t v := by
    rw [preCheck_seen stage.txnId_inj txns h.coherent, h.seen, brought_snoc, inBlock_snoc]
    simp only [Event.block.injEq, reduceCtorEq, false_and, exists_false, or_false,
      exists_eq_left', ← or_and_right, or_assoc]
  filed := h.filed
  law := by
    have hsame : handedOn stage (events ++ [.block txns]) = handedOn stage events := by
      refine Set.ext fun t => and_congr_left fun _ => ?_
      rw [inTime_snoc]
      simp
    exact hsame ▸ h.law
  out := h.out

/-- What a batch sends on is what it brings in time. -/
theorem PathInv.handedOn_batch {events : List (Event τ)} {out : Set τ} {s : TxnPath τ}
    (h : PathInv stage events out s) {txns correct : List (NodeId × τ)}
    (hmem : ∀ t, t ∈ correct.map Prod.snd ↔ t ∈ txns.map Prod.snd ∧
      s.txnsSeen (stage.txnId t) = none ∧ stage.validate t = .ok (some true)) :
    handedOn stage (events ++ [.batch txns]) =
      fun t => t ∈ handedOn stage events ∨ t ∈ correct.map Prod.snd := by
  refine Set.ext fun t => ?_
  show InTime stage (events ++ [.batch txns]) t ∧ stage.validate t = .ok (some true) ↔
    (InTime stage events t ∧ stage.validate t = .ok (some true)) ∨ t ∈ correct.map Prod.snd
  rw [hmem, inTime_snoc]
  simp only [Event.batch.injEq, exists_eq_left']
  constructor
  · intro hall
    obtain ⟨htime | ⟨hbatch, hno⟩, hv⟩ := hall
    · exact Or.inl ⟨htime, hv⟩
    · by_cases hb : Brought events t
      · exact Or.inl ⟨hb.inTime hno, hv⟩
      · refine Or.inr ⟨hbatch, ?_, hv⟩
        cases hs : s.txnsSeen (stage.txnId t) with
        | none => rfl
        | some v => exact absurd ((h.seen t v).mp hs).1 (by simp [hb, hno])
  · intro hall
    rcases hall with ⟨htime, hv⟩ | ⟨hbatch, hnone, hv⟩
    · exact ⟨Or.inl htime, hv⟩
    · refine ⟨Or.inr ⟨hbatch, fun hin => ?_⟩, hv⟩
      rw [(h.seen t true).mpr ⟨Or.inr hin, hv⟩] at hnone
      exact absurd hnone (by simp)

/-- A batch. -/
theorem PathInv.batch {events : List (Event τ)} {out : Set τ} {s : TxnPath τ}
    (h : PathInv stage events out s) {txns : List (NodeId × τ)}
    (hclient : ∀ x ∈ txns, stage.fromClient x.2) {ord : EntryOrder τ} {fuel : Nat}
    {r : TxnPath τ × List (NodeId × τ)} (hr : handle stage ord fuel s (.batch txns) = .ok r) :
    PathInv stage (events ++ [.batch txns])
      (fun t => t ∈ out ∨ t ∈ r.2.map Prod.snd) r.1 := by
  obtain ⟨correct, hcorrect, hchecked⟩ := checkBatch_seen stage.txnId_inj txns h.coherent
    fun x hx => stage.validate_returns x.2 (hclient x hx)
  unfold handle at hr
  dsimp only at hr
  rw [hcorrect] at hr
  obtain ⟨v, hv, hr⟩ := bind_eq_ok.mp hr
  rw [stage.validateBatch_eq] at hv
  rw [← Except.ok.inj hr]
  obtain ⟨hfiled, hworks⟩ := Validator.validate_works h.filed hv
  obtain ⟨hlaw, hout⟩ := hworks.law (h.law.deliver (correct.map Prod.snd))
  refine ⟨fun t b => ?_, hfiled, ?_, fun t => ?_⟩
  · rw [hchecked.entered, h.seen, brought_snoc, inBlock_snoc]
    simp only [Event.batch.injEq, reduceCtorEq, false_and, exists_false, or_false,
      exists_eq_left', ← or_and_right, or_right_comm]
  · rw [h.handedOn_batch hchecked.sent]
    exact hlaw
  · show _ ↔ t ∈ out ∨ t ∈ v.2.map Prod.snd
    rw [hout, h.out]

/-! ## Whole runs -/

theorem mem_acceptedIn_snoc (tr : List (Event τ × List (NodeId × τ)))
    (l : Event τ × List (NodeId × τ)) (t : τ) :
    t ∈ acceptedIn (tr ++ [l]) ↔ t ∈ acceptedIn tr ∨ t ∈ l.2.map Prod.snd := by
  show (∃ l' ∈ tr ++ [l], ∃ src, (src, t) ∈ l'.2) ↔ (∃ l' ∈ tr, ∃ src, (src, t) ∈ l'.2) ∨ _
  simp [or_and_right, exists_or]

theorem run_pathInv {tr : List (Event τ × List (NodeId × τ))} {s : TxnPath τ}
    (h : (txnPath stage).Run (fun _ _ => True) tr s) :
    FromClients stage (tr.map Prod.fst) → PathInv stage (tr.map Prod.fst) (acceptedIn tr) s := by
  refine h.invariant_trace (fun tr s => FromClients stage (tr.map Prod.fst) →
    PathInv stage (tr.map Prod.fst) (acceptedIn tr) s) (fun _ => ?_) ?_
  · have hnone : acceptedIn ([] : List (Event τ × List (NodeId × τ))) = ∅ :=
      Set.ext fun t => ⟨fun h => by simpa [acceptedIn] using h.choose_spec.1, False.elim⟩
    rw [hnone]
    exact pathInv_new stage
  · intro tr s l s' ih _ hstep hclient
    obtain ⟨ord, fuel, hstep⟩ := hstep
    rw [List.map_append] at hclient ⊢
    have ih := ih fun txns htxns => hclient txns (List.mem_append_left _ htxns)
    obtain ⟨e, out⟩ := l
    have hout : acceptedIn (tr ++ [(e, out)]) =
        fun t => t ∈ acceptedIn tr ∨ t ∈ out.map Prod.snd :=
      Set.ext fun t => mem_acceptedIn_snoc tr (e, out) t
    rw [hout]
    cases e with
    | batch txns => exact ih.batch (hclient txns (by simp)) hstep
    | block txns =>
      obtain ⟨rfl, rfl⟩ := Prod.mk.inj (Except.ok.inj hstep)
      have hsame : (fun t => t ∈ acceptedIn tr ∨ t ∈ ([] : List (NodeId × τ)).map Prod.snd) =
          acceptedIn tr := Set.ext fun t => ⟨fun h => h.resolve_right (by simp), Or.inl⟩
      rw [hsame]
      exact ih.block txns

/-- **What a run accepts** are the transactions handed on whose ancestors are
handed on, too, and that pass the value check. -/
theorem acceptedIn_eq {tr : List (Event τ × List (NodeId × τ))} {s : TxnPath τ}
    (h : (txnPath stage).Run (fun _ _ => True) tr s)
    (hclient : FromClients stage (tr.map Prod.fst)) :
    acceptedIn tr = fun t =>
      Admission.Admissible stage.items (handedOn stage (tr.map Prod.fst)) t := by
  have hinv := run_pathInv h hclient
  exact Set.ext fun t => (hinv.out t).symm.trans (hinv.law.admitted_iff t)

/-- Nothing that clients make stops the threads, in whatever order an entry's
map is iterated. -/
theorem run_exists (stage : TxnStage τ) (ord : EntryOrder τ) (events : List (Event τ)) :
    FromClients stage events →
      ∃ tr s, (txnPath stage).Run (fun _ _ => True) tr s ∧ tr.map Prod.fst = events ∧
        ∃ keys, s.validator.Within stage.toTxnKind (fun t => stage.fromClient t) keys := by
  induction events using List.reverseRecOn with
  | nil =>
    intro _
    exact ⟨[], _, .nil, rfl, ∅, Validator.within_new _ _⟩
  | append_singleton events e ih =>
    intro hclient
    obtain ⟨tr, s, hrun, htr, keys, hkeys⟩ :=
      ih fun txns htxns => hclient txns (List.mem_append_left _ htxns)
    have hinv := run_pathInv hrun
        (htr ▸ fun txns htxns => hclient txns (List.mem_append_left _ htxns))
    cases e with
    | block txns =>
      have hstep : (txnPath stage).step s (.block txns, [])
          { s with txnsSeen := (preCheck stage.txnId stage.validate s.txnsSeen txns).1 } :=
        ⟨ord, 0, rfl⟩
      have hrun' := hrun.snoc trivial hstep
      exact ⟨_, _, hrun', by simp [htr], keys, hkeys⟩
    | batch txns =>
      have hbatch := hclient txns (by simp)
      obtain ⟨correct, hcorrect, hchecked⟩ := checkBatch_seen stage.txnId_inj txns hinv.coherent
        fun x hx => stage.validate_returns x.2 (hbatch x hx)
      obtain ⟨keys', hkeys', hsub'⟩ : ∃ keys', s.validator.Within stage.toTxnKind
          (fun t => stage.fromClient t) keys' ∧ ∀ x ∈ correct, stage.txnId x.2 ∈ keys' :=
        ⟨keys ∪ (correct.map fun x => stage.txnId x.2).toFinset,
          hkeys.mono Finset.subset_union_left,
          fun x hx => Finset.mem_union_right _
              (List.mem_toFinset.mpr (List.mem_map.mpr ⟨x, hx, rfl⟩))⟩
      obtain ⟨fuel, hfuel⟩ : ∃ fuel, Validator.missing keys' s.validator < fuel :=
        ⟨_, Nat.lt_succ_self _⟩
      obtain ⟨r, hr, hw⟩ := Validator.validate_returns ord stage.check_returns correct hkeys'
        (fun x hx => ⟨hbatch x (hchecked.subset x hx), hsub' x hx⟩) hfuel
      have hstep : (txnPath stage).step s (.batch txns, r.2)
          ⟨(checkBatch stage.txnId stage.validate s.txnsSeen txns).1, r.1⟩ := by
        refine ⟨ord, fuel, ?_⟩
        unfold handle
        dsimp only
        rw [hcorrect]
        exact bind_eq_ok.mpr ⟨r, (stage.validateBatch_eq ..).trans hr, rfl⟩
      have hrun' := hrun.snoc trivial hstep
      exact ⟨_, _, hrun', by simp [htr], _, hw⟩

end Copycat
