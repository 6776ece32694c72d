import Copycat.Delivery
import Copycat.Gossip.Patterns
import Copycat.Returned

/-!
# The transaction side of a node

What `txn_validation_thread` and `txn_dissemination_thread` of one node have in
hand. Batches are drained from `txn_buffer` and each is checked by a task of
its own. The tasks run at the same time, and all of them on `txns_seen`: each
looks a transaction up, verifies it, and only then enters it. So two tasks may
both find that they are the first (`runTask` is one turn of the loop up to the
next access to the map). What the tasks send on goes through
`TxnValidation::validate`, where the pool tells the second copy.

`PeerInv` says where a transaction can be on the way: nothing valid is lost
(`PeerStep.holds`), what has been entered in `txns_seen` as valid has been sent
on, and what is returned is what has been admitted of it, once
(`PeerInv.step`).
-/

namespace Copycat.Gossip

open Copycat.Lib

variable {τ : Type}

/-- `VALIDATION_BATCH_SIZE`. -/
def validationBatchSize : Nat := 100

/-- A task over a batch. `looked` means that the first transaction of what is
left to do has been looked up and was not in the map. -/
structure Task (τ : Type) where
  todo : List (NodeId × τ)
  looked : Bool
  correct : List (NodeId × τ)
deriving DecidableEq, Repr

/-- What the two threads of a node work on, with the channels between them. -/
structure Peer (τ : Type) where
  txnBuffer : List (NodeId × τ)
  tasks : Multiset (Task τ)
  pendingTxns : List (List (NodeId × τ))
  txnsSeen : SeenMap
  validator : Validator τ
  validatedTxn : List (List (NodeId × τ))
  dissem : TxnThread τ

def Peer.new : Peer τ where
  txnBuffer := []
  tasks := 0
  pendingTxns := []
  txnsSeen := fun _ => none
  validator := .new
  validatedTxn := []
  dissem := ⟨[], false, [], []⟩

/-- A task goes on to its next access to `txns_seen`. A panic in `validate` is
the end of it. -/
def runTask (stage : TxnStage τ) (seen : SeenMap) (task : Task τ) :
    SeenMap × Multiset (Task τ) :=
  match task.todo with
  | [] => (seen, {task})
  | (src, txn) :: todo =>
    if !task.looked then
      -- ignore duplicates
      if (seen (stage.txnId txn)).isSome then (seen, {⟨todo, false, task.correct⟩})
      else (seen, {⟨(src, txn) :: todo, true, task.correct⟩})
    else
      match stage.validate txn with
      | .error _ => (seen, 0)
      | .ok none => (seen, {⟨todo, false, task.correct⟩})
      | .ok (some valid) =>
        (Function.update seen (stage.txnId txn) (some valid),
          {⟨todo, false, if valid then task.correct ++ [(src, txn)] else task.correct⟩})

/-- Transactions arrive. -/
def Peer.arrive (p : Peer τ) (txns : List (NodeId × τ)) : Peer τ :=
  { p with txnBuffer := p.txnBuffer ++ txns }

/-- The steps of a node that nobody else sees. -/
inductive PeerStep (stage : TxnStage τ) (p : Peer τ) : Peer τ → Prop
  | drain : p.txnBuffer ≠ [] → PeerStep stage p { p with
      txnBuffer := p.txnBuffer.drop validationBatchSize
      tasks := ⟨p.txnBuffer.take validationBatchSize, false, []⟩ ::ₘ p.tasks }
  | check {task : Task τ} {rest : Multiset (Task τ)} :
      p.tasks = task ::ₘ rest → task.todo ≠ [] → PeerStep stage p { p with
        txnsSeen := (runTask stage p.txnsSeen task).1
        tasks := (runTask stage p.txnsSeen task).2 + rest }
  | send {task : Task τ} {rest : Multiset (Task τ)} :
      p.tasks = task ::ₘ rest → task.todo = [] → PeerStep stage p { p with
        tasks := rest
        pendingTxns := p.pendingTxns ++ [task.correct] }
  | validate {txnBatch : List (NodeId × τ)} {rest : List (List (NodeId × τ))}
      {ord : EntryOrder τ} {fuel : Nat} {r : Validator τ × List (NodeId × τ)} :
      p.pendingTxns = txnBatch :: rest →
      stage.validateBatch ord fuel p.validator txnBatch = .ok r → PeerStep stage p { p with
        pendingTxns := rest
        validator := r.1
        validatedTxn := p.validatedTxn ++ [r.2] }
  | receive {txnBatch : List (NodeId × τ)} {rest : List (List (NodeId × τ))} :
      p.validatedTxn = txnBatch :: rest → PeerStep stage p { p with
        validatedTxn := rest
        dissem := p.dissem.newTxn txnBatch }

/-- The batch that is disseminated next. -/
def Peer.sendBatch (p : Peer τ) : List (NodeId × τ) :=
  p.dissem.batch.take (min dissemBatchSize p.dissem.batch.length)

/-- A batch has been disseminated, and is forwarded. -/
def Peer.forward (p : Peer τ) : Peer τ :=
  { p with dissem := p.dissem.sendBatch ⟨true, true, true⟩ }

/-- Nothing is left to do. -/
structure Peer.Quiet (p : Peer τ) : Prop where
  txnBuffer : p.txnBuffer = []
  tasks : p.tasks = 0
  pendingTxns : p.pendingTxns = []
  validatedTxn : p.validatedTxn = []
  batch : p.dissem.batch = []

namespace Peer

/-- Everything that `validate` has returned so far, in order. -/
def returned (p : Peer τ) : List (NodeId × τ) :=
  p.dissem.disseminated.flatten ++ p.dissem.batch ++ p.validatedTxn.flatten

/-- A transaction with its source is on the way to `validate`. -/
def Coming (p : Peer τ) (x : NodeId × τ) : Prop :=
  x ∈ p.txnBuffer ∨ (∃ task ∈ p.tasks, x ∈ task.todo ∨ x ∈ task.correct) ∨
    x ∈ p.pendingTxns.flatten

/-- A transaction has been verified and is about to be validated. -/
def Checked (p : Peer τ) (t : τ) : Prop :=
  (∃ task ∈ p.tasks, t ∈ task.correct.map Prod.snd) ∨ t ∈ p.pendingTxns.flatten.map Prod.snd

/-- A transaction has arrived: it is waiting to be checked, or in the map. -/
def Holds (stage : TxnStage τ) (p : Peer τ) (t : τ) : Prop :=
  t ∈ p.txnBuffer.map Prod.snd ∨ (∃ task ∈ p.tasks, t ∈ task.todo.map Prod.snd) ∨
    (p.txnsSeen (stage.txnId t)).isSome

end Peer

/-! ## What `validate` has done -/

variable {stage : TxnStage τ} {F F' : NodeId → τ → Prop} {D : Set τ} {p p' : Peer τ}

/-- After `validate` has been given `D` and has returned `out`; `F` says what is
known of a transaction and its source. -/
structure StageInv (kind : TxnKind τ) (F : NodeId → τ → Prop) (D : Set τ) (v : Validator τ)
    (out : List (NodeId × τ)) : Prop where
  source : SourceInv F (v, out)
  filed : v.Filed kind
  law : Admission.Law kind.items D [] (v.admission kind)
  admitted : ∀ t, t ∈ (v.admission kind).admitted ↔ t ∈ out.map Prod.snd
  once : (out.map Prod.snd).Nodup

theorem stageInv_new (kind : TxnKind τ) (F : NodeId → τ → Prop) :
    StageInv kind F ∅ Validator.new [] where
  source := ⟨fun d l hl => absurd hl (by simp [Validator.new]), fun x hx => absurd hx (by simp)⟩
  filed := Validator.filed_new kind
  law := admission_new kind ▸ Admission.law_empty _
  admitted t := by
    rw [admission_new]
    exact iff_of_false id List.not_mem_nil
  once := List.nodup_nil

theorem StageInv.mono {kind : TxnKind τ} {v : Validator τ} {out : List (NodeId × τ)}
    (h : StageInv kind F D v out) (hsub : ∀ src t, F src t → F' src t) :
    StageInv kind F' D v out :=
  { h with source := h.source.mono hsub }

theorem validate_source {kind : TxnKind τ} {ord : EntryOrder τ} {fuel : Nat} {v : Validator τ}
    {txnBatch : List (NodeId × τ)} {r : Validator τ × List (NodeId × τ)}
    (hv : SourceInv F (v, [])) (hF : ∀ x ∈ txnBatch, F x.1 x.2)
    (hr : Validator.validate kind ord fuel v txnBatch = .ok r) : SourceInv F r := by
  refine foldlM_split (fun _ acc => SourceInv F acc) (fun _ x _ acc acc' hl hacc hstep => ?_) hv hr
  obtain ⟨r', hr', hstep⟩ := bind_eq_ok.mp hstep
  rw [← Except.ok.inj hstep]
  have hx : F x.1 x.2 := hF x (by rw [hl]; simp)
  exact hacc.append (validateInner_source ord ⟨hacc.entries, by simp⟩ hx hr')

/-- One more batch. -/
theorem StageInv.validate {kind : TxnKind τ} {v : Validator τ} {out : List (NodeId × τ)}
    (h : StageInv kind F D v out) {ord : EntryOrder τ} {fuel : Nat}
    {txnBatch : List (NodeId × τ)} {r : Validator τ × List (NodeId × τ)}
    (hF : ∀ x ∈ txnBatch, F x.1 x.2)
    (hr : Validator.validate kind ord fuel v txnBatch = .ok r) :
    StageInv kind F (fun t => t ∈ D ∨ t ∈ txnBatch.map Prod.snd) r.1 (out ++ r.2) := by
  obtain ⟨hfiled, hworks⟩ := Validator.validate_works h.filed hr
  obtain ⟨hlaw, hout⟩ := hworks.law (h.law.deliver (txnBatch.map Prod.snd))
  refine ⟨?_, hfiled, hlaw, fun t => ?_, ?_⟩
  · exact h.source.append (validate_source ⟨h.source.entries, by simp⟩ hF hr)
  · rw [hout, h.admitted, List.map_append, List.mem_append]
  · rw [List.map_append, List.nodup_append]
    refine ⟨h.once, hworks.ordered.nodup, fun t ht t' ht' he => ?_⟩
    exact hworks.ordered.new t' ht' ((h.admitted t').mpr (he ▸ ht))

/-! ## Where a transaction is -/

/-- What the way of a transaction leads through. `D` is what `validate` has been
given. -/
structure PeerInv (stage : TxnStage τ) (F : NodeId → τ → Prop) (D : Set τ) (p : Peer τ) :
    Prop where
  coming : ∀ x, p.Coming x → F x.1 x.2
  coherent : Coherent stage.txnId stage.validate p.txnsSeen
  entered : ∀ t, p.txnsSeen (stage.txnId t) = some true → p.Checked t ∨ t ∈ D
  checked : ∀ t, p.Checked t → stage.validate t = .ok (some true)
  delivered : ∀ t ∈ D, stage.validate t = .ok (some true)
  stage : StageInv stage.toTxnKind F D p.validator p.returned
  ready : p.dissem.txnReady.flatten = p.dissem.disseminated.flatten.map Prod.snd
  timer : p.dissem.batch ≠ [] → p.dissem.timerSet = true

theorem peerInv_new (stage : TxnStage τ) (F : NodeId → τ → Prop) :
    PeerInv stage F ∅ (Peer.new : Peer τ) where
  coming x hx := by
    rcases hx with hx | ⟨task, htask, -⟩ | hx
    · exact absurd hx List.not_mem_nil
    · exact absurd htask (Multiset.notMem_zero task)
    · exact absurd hx List.not_mem_nil
  coherent t v ht := absurd ht (by simp [Peer.new])
  entered t ht := absurd ht (by simp [Peer.new])
  checked t ht := by
    rcases ht with ⟨task, htask, -⟩ | ht
    · exact absurd htask (Multiset.notMem_zero task)
    · exact absurd ht List.not_mem_nil
  delivered t ht := ht.elim
  stage := stageInv_new _ F
  ready := rfl
  timer h := absurd rfl h

theorem PeerInv.mono (h : PeerInv stage F D p) (hsub : ∀ src t, F src t → F' src t) :
    PeerInv stage F' D p :=
  { h with
    coming := fun x hx => hsub _ _ (h.coming x hx)
    stage := h.stage.mono hsub }

theorem PeerInv.arrive (h : PeerInv stage F D p) {txns : List (NodeId × τ)}
    (hF : ∀ x ∈ txns, F x.1 x.2) : PeerInv stage F D (p.arrive txns) :=
  { h with
    coming := by
      intro x hx
      rcases hx with hx | hx | hx
      · rcases List.mem_append.mp hx with hx | hx
        · exact h.coming x (Or.inl hx)
        · exact hF x hx
      · exact h.coming x (Or.inr (Or.inl hx))
      · exact h.coming x (Or.inr (Or.inr hx)) }

/-- One turn of a task's loop. -/
structure Turn (stage : TxnStage τ) (seen seen' : SeenMap) (task task' : Task τ) : Prop where
  coming : ∀ x, x ∈ task'.todo ∨ x ∈ task'.correct → x ∈ task.todo ∨ x ∈ task.correct
  correct : ∀ x ∈ task.correct, x ∈ task'.correct
  checked : ∀ x ∈ task'.correct, x ∈ task.correct ∨ stage.validate x.2 = .ok (some true)
  known : ∀ h, (seen h).isSome → (seen' h).isSome
  entered : ∀ t, seen' (stage.txnId t) = some true →
    seen (stage.txnId t) = some true ∨ t ∈ task'.correct.map Prod.snd
  handled : ∀ x ∈ task.todo, stage.validate x.2 = .ok (some true) →
    x ∈ task'.todo ∨ (seen' (stage.txnId x.2)).isSome

/-- A turn that leaves the map as it is, and at most drops a transaction that
is known or invalid. -/
theorem Turn.of_same {seen : SeenMap} {task task' : Task τ}
    (htodo : ∀ x ∈ task'.todo, x ∈ task.todo)
    (hcorrect : task'.correct = task.correct)
    (hdrop : ∀ x ∈ task.todo, stage.validate x.2 = .ok (some true) →
      x ∈ task'.todo ∨ (seen (stage.txnId x.2)).isSome) : Turn stage seen seen task task' where
  coming x hx := by
    rcases hx with hx | hx
    · exact Or.inl (htodo x hx)
    · exact Or.inr (hcorrect ▸ hx)
  correct x hx := hcorrect ▸ hx
  checked x hx := Or.inl (hcorrect ▸ hx)
  known h hh := hh
  entered t ht := Or.inl ht
  handled := hdrop

/-- The turn in which a transaction is verified and entered. -/
theorem turn_enter (seen : SeenMap) (src : NodeId) {txn : τ} (todo correct : List (NodeId × τ))
    {valid : Bool} (hv : stage.validate txn = .ok (some valid)) :
    Turn stage seen (Function.update seen (stage.txnId txn) (some valid))
      ⟨(src, txn) :: todo, true, correct⟩
      ⟨todo, false, if valid then correct ++ [(src, txn)] else correct⟩ where
  coming x hx := by
    rcases hx with hx | hx
    · exact Or.inl (List.mem_cons_of_mem _ hx)
    · cases valid with
      | false => exact Or.inr hx
      | true =>
        rcases List.mem_append.mp hx with hx | hx
        · exact Or.inr hx
        · exact Or.inl (List.mem_singleton.mp hx ▸ List.mem_cons_self ..)
  correct x hx := by
    cases valid with
    | false => exact hx
    | true => exact List.mem_append_left _ hx
  checked x hx := by
    cases valid with
    | false => exact Or.inl hx
    | true =>
      rcases List.mem_append.mp hx with hx | hx
      · exact Or.inl hx
      · rw [List.mem_singleton.mp hx]
        exact Or.inr hv
  known h hh := by
    by_cases he : h = stage.txnId txn
    · rw [he, Function.update_self]
      rfl
    · rwa [Function.update_of_ne he]
  entered t ht := by
    rcases (seen_insert stage.txnId_inj hv t true).mp ht with ⟨rfl, hval⟩ | ⟨-, hseen⟩
    · obtain rfl : valid = true := Option.some.inj (Except.ok.inj (hv.symm.trans hval))
      exact Or.inr (by simp)
    · exact Or.inl hseen
  handled x hx _ := by
    rcases List.mem_cons.mp hx with rfl | hx
    · refine Or.inr ?_
      rw [Function.update_self]
      rfl
    · exact Or.inl hx

theorem runTask_spec {seen : SeenMap} {task : Task τ} (htodo : task.todo ≠ [])
    (hcoh : Coherent stage.txnId stage.validate seen)
    (hclient : ∀ x ∈ task.todo, stage.fromClient x.2) :
    ∃ task', (runTask stage seen task).2 = {task'} ∧
      Turn stage seen (runTask stage seen task).1 task task' ∧
      Coherent stage.txnId stage.validate (runTask stage seen task).1 := by
  obtain ⟨todo, looked, correct⟩ := task
  cases todo with
  | nil => exact absurd rfl htodo
  | cons x todo =>
    obtain ⟨src, txn⟩ := x
    have hrest : ∀ y ∈ todo, y ∈ (src, txn) :: todo := fun y hy => List.mem_cons_of_mem _ hy
    unfold runTask
    cases looked with
    | false =>
      dsimp only
      rw [Bool.not_false, if_pos rfl]
      split
      · rename_i hknown
        refine ⟨_, rfl, Turn.of_same hrest rfl fun y hy _ => ?_, hcoh⟩
        rcases List.mem_cons.mp hy with rfl | hy
        · exact Or.inr hknown
        · exact Or.inl hy
      · exact ⟨_, rfl, Turn.of_same (fun y hy => hy) rfl fun y hy _ => Or.inl hy, hcoh⟩
    | true =>
      obtain ⟨result, hv⟩ := stage.validate_returns txn (hclient _ (List.mem_cons_self ..))
      dsimp only
      rw [Bool.not_true, if_neg Bool.false_ne_true, hv]
      cases result with
      | none =>
        refine ⟨_, rfl, Turn.of_same hrest rfl fun y hy hvalid => ?_, hcoh⟩
        rcases List.mem_cons.mp hy with rfl | hy
        · exact absurd (hv.symm.trans hvalid) (by simp)
        · exact Or.inl hy
      | some valid =>
        exact ⟨_, rfl, turn_enter seen src todo correct hv, hcoh.insert stage.txnId_inj hv⟩

/-! ## The steps -/

/-- What every step keeps: a valid transaction that has arrived stays, and what
has been disseminated. -/
structure Keeps (stage : TxnStage τ) (p p' : Peer τ) : Prop where
  holds : ∀ t, stage.validate t = .ok (some true) → p.Holds stage t → p'.Holds stage t
  disseminated : p'.dissem.disseminated = p.dissem.disseminated

theorem PeerInv.drain (h : PeerInv stage F D p) : PeerInv stage F D { p with
    txnBuffer := p.txnBuffer.drop validationBatchSize
    tasks := ⟨p.txnBuffer.take validationBatchSize, false, []⟩ ::ₘ p.tasks } :=
  { h with
    coming := by
      intro x hx
      rcases hx with hx | ⟨task, htask, hx⟩ | hx
      · exact h.coming x (Or.inl (List.mem_of_mem_drop hx))
      · rcases Multiset.mem_cons.mp htask with rfl | htask
        · rcases hx with hx | hx
          · exact h.coming x (Or.inl (List.mem_of_mem_take hx))
          · exact absurd hx List.not_mem_nil
        · exact h.coming x (Or.inr (Or.inl ⟨task, htask, hx⟩))
      · exact h.coming x (Or.inr (Or.inr hx))
    entered := by
      intro t ht
      rcases h.entered t ht with (⟨task, htask, ht⟩ | ht) | ht
      · exact Or.inl (Or.inl ⟨task, Multiset.mem_cons_of_mem htask, ht⟩)
      · exact Or.inl (Or.inr ht)
      · exact Or.inr ht
    checked := by
      intro t ht
      rcases ht with ⟨task, htask, ht⟩ | ht
      · rcases Multiset.mem_cons.mp htask with rfl | htask
        · exact absurd ht List.not_mem_nil
        · exact h.checked t (Or.inl ⟨task, htask, ht⟩)
      · exact h.checked t (Or.inr ht) }

theorem keeps_drain (stage : TxnStage τ) (p : Peer τ) : Keeps stage p { p with
    txnBuffer := p.txnBuffer.drop validationBatchSize
    tasks := ⟨p.txnBuffer.take validationBatchSize, false, []⟩ ::ₘ p.tasks } where
  holds t _ ht := by
    rcases ht with ht | ⟨task, htask, ht⟩ | ht
    · rw [← List.take_append_drop validationBatchSize p.txnBuffer, List.map_append,
        List.mem_append] at ht
      rcases ht with ht | ht
      · exact Or.inr (Or.inl ⟨_, Multiset.mem_cons_self _ p.tasks, ht⟩)
      · exact Or.inl ht
    · exact Or.inr (Or.inl ⟨task, Multiset.mem_cons_of_mem htask, ht⟩)
    · exact Or.inr (Or.inr ht)
  disseminated := rfl

/-- A task takes its turn. -/
theorem PeerInv.turn (h : PeerInv stage F D p) {task task' : Task τ} {rest : Multiset (Task τ)}
    {seen : SeenMap} (htasks : p.tasks = task ::ₘ rest)
    (hturn : Turn stage p.txnsSeen seen task task')
    (hcoh : Coherent stage.txnId stage.validate seen) :
    PeerInv stage F D { p with txnsSeen := seen, tasks := task' ::ₘ rest } :=
  { h with
    coming := by
      intro x hx
      rcases hx with hx | ⟨other, hother, hx⟩ | hx
      · exact h.coming x (Or.inl hx)
      · refine h.coming x (Or.inr (Or.inl ?_))
        rw [htasks]
        rcases Multiset.mem_cons.mp hother with rfl | hother
        · exact ⟨task, Multiset.mem_cons_self .., hturn.coming x hx⟩
        · exact ⟨other, Multiset.mem_cons_of_mem hother, hx⟩
      · exact h.coming x (Or.inr (Or.inr hx))
    coherent := hcoh
    entered := by
      intro t ht
      rcases hturn.entered t ht with ht | ht
      · rcases h.entered t ht with (⟨other, hother, ht⟩ | ht) | ht
        · refine Or.inl (Or.inl ?_)
          rw [htasks] at hother
          rcases Multiset.mem_cons.mp hother with rfl | hother
          · obtain ⟨x, hx, rfl⟩ := List.mem_map.mp ht
            exact ⟨task', Multiset.mem_cons_self .., List.mem_map_of_mem (hturn.correct x hx)⟩
          · exact ⟨other, Multiset.mem_cons_of_mem hother, ht⟩
        · exact Or.inl (Or.inr ht)
        · exact Or.inr ht
      · exact Or.inl (Or.inl ⟨task', Multiset.mem_cons_self .., ht⟩)
    checked := by
      intro t ht
      have hold : ∀ other ∈ p.tasks, ∀ x ∈ other.correct, stage.validate x.2 = .ok (some true) :=
        fun other hother x hx => h.checked x.2 (Or.inl ⟨other, hother, List.mem_map_of_mem hx⟩)
      rw [htasks] at hold
      rcases ht with ⟨other, hother, ht⟩ | ht
      · obtain ⟨x, hx, rfl⟩ := List.mem_map.mp ht
        rcases Multiset.mem_cons.mp hother with rfl | hother
        · rcases hturn.checked x hx with hx | hx
          · exact hold task (Multiset.mem_cons_self ..) x hx
          · exact hx
        · exact hold other (Multiset.mem_cons_of_mem hother) x hx
      · exact h.checked t (Or.inr ht) }

theorem keeps_turn {task task' : Task τ} {rest : Multiset (Task τ)} {seen : SeenMap}
    (htasks : p.tasks = task ::ₘ rest) (hturn : Turn stage p.txnsSeen seen task task') :
    Keeps stage p { p with txnsSeen := seen, tasks := task' ::ₘ rest } where
  holds t hvalid ht := by
    rcases ht with ht | ⟨other, hother, ht⟩ | ht
    · exact Or.inl ht
    · rw [htasks] at hother
      rcases Multiset.mem_cons.mp hother with rfl | hother
      · obtain ⟨x, hx, rfl⟩ := List.mem_map.mp ht
        rcases hturn.handled x hx hvalid with hx | hx
        · exact Or.inr (Or.inl ⟨task', Multiset.mem_cons_self .., List.mem_map_of_mem hx⟩)
        · exact Or.inr (Or.inr hx)
      · exact Or.inr (Or.inl ⟨other, Multiset.mem_cons_of_mem hother, ht⟩)
    · exact Or.inr (Or.inr (hturn.known _ ht))
  disseminated := rfl

/-- A task that is done sends on what it found correct. -/
theorem PeerInv.send (h : PeerInv stage F D p) {task : Task τ} {rest : Multiset (Task τ)}
    (htasks : p.tasks = task ::ₘ rest) : PeerInv stage F D { p with
      tasks := rest
      pendingTxns := p.pendingTxns ++ [task.correct] } := by
  have htask : task ∈ p.tasks := htasks ▸ Multiset.mem_cons_self ..
  have hrest : ∀ other ∈ rest, other ∈ p.tasks :=
    fun other hother => htasks ▸ Multiset.mem_cons_of_mem hother
  have hpending : (p.pendingTxns ++ [task.correct]).flatten =
      p.pendingTxns.flatten ++ task.correct := by
    rw [List.flatten_append, List.flatten_singleton]
  exact { h with
    coming := by
      intro x hx
      rcases hx with hx | ⟨other, hother, hx⟩ | hx
      · exact h.coming x (Or.inl hx)
      · exact h.coming x (Or.inr (Or.inl ⟨other, hrest other hother, hx⟩))
      · rcases List.mem_append.mp (hpending ▸ hx) with hx | hx
        · exact h.coming x (Or.inr (Or.inr hx))
        · exact h.coming x (Or.inr (Or.inl ⟨task, htask, Or.inr hx⟩))
    entered := by
      intro t ht
      rcases h.entered t ht with (⟨other, hother, hcorrect⟩ | ht) | ht
      · rw [htasks] at hother
        rcases Multiset.mem_cons.mp hother with rfl | hother
        · refine Or.inl (Or.inr ?_)
          show t ∈ (p.pendingTxns ++ [other.correct]).flatten.map Prod.snd
          rw [hpending, List.map_append]
          exact List.mem_append_right _ hcorrect
        · exact Or.inl (Or.inl ⟨other, hother, hcorrect⟩)
      · refine Or.inl (Or.inr ?_)
        show t ∈ (p.pendingTxns ++ [task.correct]).flatten.map Prod.snd
        rw [hpending, List.map_append]
        exact List.mem_append_left _ ht
      · exact Or.inr ht
    checked := by
      intro t ht
      rcases ht with ⟨other, hother, ht⟩ | ht
      · exact h.checked t (Or.inl ⟨other, hrest other hother, ht⟩)
      · have ht : t ∈ (p.pendingTxns ++ [task.correct]).flatten.map Prod.snd := ht
        rw [hpending, List.map_append, List.mem_append] at ht
        rcases ht with ht | ht
        · exact h.checked t (Or.inr ht)
        · exact h.checked t (Or.inl ⟨task, htask, ht⟩) }

theorem keeps_send {task : Task τ} {rest : Multiset (Task τ)} (htasks : p.tasks = task ::ₘ rest)
    (htodo : task.todo = []) : Keeps stage p { p with
      tasks := rest
      pendingTxns := p.pendingTxns ++ [task.correct] } where
  holds t _ ht := by
    rcases ht with ht | ⟨other, hother, ht⟩ | ht
    · exact Or.inl ht
    · rw [htasks] at hother
      rcases Multiset.mem_cons.mp hother with rfl | hother
      · rw [htodo] at ht
        exact absurd ht List.not_mem_nil
      · exact Or.inr (Or.inl ⟨other, hother, ht⟩)
    · exact Or.inr (Or.inr ht)
  disseminated := rfl

/-- A batch is validated. -/
theorem PeerInv.validate (h : PeerInv stage F D p) {txnBatch : List (NodeId × τ)}
    {rest : List (List (NodeId × τ))} {ord : EntryOrder τ} {fuel : Nat}
    {r : Validator τ × List (NodeId × τ)} (hpending : p.pendingTxns = txnBatch :: rest)
    (hr : stage.validateBatch ord fuel p.validator txnBatch = .ok r) :
    PeerInv stage F (fun t => t ∈ D ∨ t ∈ txnBatch.map Prod.snd) { p with
      pendingTxns := rest
      validator := r.1
      validatedTxn := p.validatedTxn ++ [r.2] } := by
  have hflat : p.pendingTxns.flatten = txnBatch ++ rest.flatten := by
    rw [hpending, List.flatten_cons]
  have hbatch : ∀ x ∈ txnBatch, x ∈ p.pendingTxns.flatten :=
    fun x hx => hflat ▸ List.mem_append_left _ hx
  have hrest : ∀ x ∈ rest.flatten, x ∈ p.pendingTxns.flatten :=
    fun x hx => hflat ▸ List.mem_append_right _ hx
  rw [stage.validateBatch_eq] at hr
  have hstage := h.stage.validate (fun x hx => h.coming x (Or.inr (Or.inr (hbatch x hx)))) hr
  exact {
    coming := by
      intro x hx
      rcases hx with hx | hx | hx
      · exact h.coming x (Or.inl hx)
      · exact h.coming x (Or.inr (Or.inl hx))
      · exact h.coming x (Or.inr (Or.inr (hrest x hx)))
    coherent := h.coherent
    entered := by
      intro t ht
      rcases h.entered t ht with (ht | ht) | ht
      · exact Or.inl (Or.inl ht)
      · rw [hflat, List.map_append, List.mem_append] at ht
        rcases ht with ht | ht
        · exact Or.inr (Or.inr ht)
        · exact Or.inl (Or.inr ht)
      · exact Or.inr (Or.inl ht)
    checked := by
      intro t ht
      rcases ht with ht | ht
      · exact h.checked t (Or.inl ht)
      · obtain ⟨x, hx, rfl⟩ := List.mem_map.mp ht
        exact h.checked x.2 (Or.inr (List.mem_map_of_mem (hrest x hx)))
    delivered := by
      intro t ht
      rcases ht with ht | ht
      · exact h.delivered t ht
      · obtain ⟨x, hx, rfl⟩ := List.mem_map.mp ht
        exact h.checked x.2 (Or.inr (List.mem_map_of_mem (hbatch x hx)))
    stage := by
      have hreturned : ({ p with
          pendingTxns := rest
          validator := r.1
          validatedTxn := p.validatedTxn ++ [r.2] } : Peer τ).returned = p.returned ++ r.2 := by
        show _ ++ (p.validatedTxn ++ [r.2]).flatten = _ ++ _ ++ _
        rw [List.flatten_append, List.flatten_singleton, ← List.append_assoc]
      rw [hreturned]
      exact hstage
    ready := h.ready
    timer := h.timer }

/-- A validated batch gets to the dissemination thread. -/
theorem PeerInv.receive (h : PeerInv stage F D p) {txnBatch : List (NodeId × τ)}
    {rest : List (List (NodeId × τ))} (hvalidated : p.validatedTxn = txnBatch :: rest) :
    PeerInv stage F D { p with
      validatedTxn := rest
      dissem := p.dissem.newTxn txnBatch } :=
  { h with
    stage := by
      have hreturned : ({ p with
          validatedTxn := rest
          dissem := p.dissem.newTxn txnBatch } : Peer τ).returned = p.returned := by
        show p.dissem.disseminated.flatten ++ (p.dissem.batch ++ txnBatch) ++ rest.flatten = _
        unfold Peer.returned
        rw [hvalidated, List.flatten_cons, List.append_assoc, List.append_assoc, List.append_assoc]
      rw [hreturned]
      exact h.stage
    timer := fun _ => rfl }

@[simp] theorem Peer.forward_disseminated (p : Peer τ) :
    p.forward.dissem.disseminated = p.dissem.disseminated ++ [p.sendBatch] := rfl

theorem Peer.forward_flatten (p : Peer τ) : p.forward.dissem.disseminated.flatten =
    p.dissem.disseminated.flatten ++ p.sendBatch := by
  rw [p.forward_disseminated, List.flatten_append, List.flatten_singleton]

theorem PeerInv.forward (h : PeerInv stage F D p) : PeerInv stage F D p.forward := by
  have hbatch : p.sendBatch ++ p.forward.dissem.batch = p.dissem.batch := List.take_append_drop ..
  exact { h with
    stage := by
      have hreturned : p.forward.returned = p.returned := by
        unfold Peer.returned
        rw [p.forward_flatten, List.append_assoc _ p.sendBatch, hbatch]
        rfl
      rw [hreturned]
      exact h.stage
    ready := by
      show (p.dissem.txnReady ++ [p.sendBatch.map Prod.snd]).flatten =
        p.forward.dissem.disseminated.flatten.map Prod.snd
      rw [p.forward_flatten, List.flatten_append, List.flatten_singleton, h.ready,
        List.map_append]
    timer := by
      intro hbatch'
      have hne : p.dissem.batch ≠ [] := by
        intro he
        rw [he] at hbatch
        exact hbatch' (List.append_eq_nil_iff.mp hbatch).2
      show (if p.forward.dissem.batch.length = 0 then false else p.dissem.timerSet) = true
      rw [if_neg fun he => hbatch' (List.length_eq_zero_iff.mp he)]
      exact h.timer hne }

/-- What one step does. -/
theorem PeerInv.step (h : PeerInv stage F D p) (hclient : ∀ src t, F src t → stage.fromClient t)
    (hstep : PeerStep stage p p') : (∃ D', PeerInv stage F D' p') ∧ Keeps stage p p' := by
  cases hstep with
  | drain _ => exact ⟨⟨D, h.drain⟩, keeps_drain stage p⟩
  | @check task rest htasks htodo =>
    obtain ⟨task', htask', hturn, hcoh⟩ := runTask_spec htodo h.coherent fun x hx =>
      hclient x.1 x.2 (h.coming x (Or.inr (Or.inl
        ⟨task, htasks ▸ Multiset.mem_cons_self .., Or.inl hx⟩)))
    rw [htask', Multiset.singleton_add]
    exact ⟨⟨D, h.turn htasks hturn hcoh⟩, keeps_turn htasks hturn⟩
  | send htasks htodo => exact ⟨⟨D, h.send htasks⟩, keeps_send htasks htodo⟩
  | validate hpending hr => exact ⟨⟨_, h.validate hpending hr⟩, ⟨fun _ _ ht => ht, rfl⟩⟩
  | receive hvalidated => exact ⟨⟨D, h.receive hvalidated⟩, ⟨fun _ _ ht => ht, rfl⟩⟩

end Copycat.Gossip
