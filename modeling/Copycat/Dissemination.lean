import Copycat.Bitcoin.Runs
import Copycat.Lib.Machine

/-!
# The dissemination threads

`block_dissemination_thread` and `txn_dissemination_thread` stand in the middle
of the pipeline: they hand on what they receive after they have given it to a
`disseminate`. Both have let go of the data by then, the first because it owns
the tail it received, the second because it has drained `batch`; and both leave
the branch with `continue` when a call fails. So a failed call loses data.

What `disseminate` does is left open, and so is whether it succeeds: the
`Answers` of a turn say which of its calls do. The blocks are all forwarded iff
no call fails over a tail that is not empty, and the transactions are all
accounted for iff no call fails once a batch has been drained
(`forwarded_unless_failed`).
-/

namespace Copycat

open Copycat.Lib

/-- Which calls of a turn succeed: taking a core, disseminating, and sending
into the pipe to the next stage. -/
structure Answers where
  acquire : Bool
  disseminate : Bool
  send : Bool
deriving DecidableEq, Repr

/-! ## Blocks -/

section Blocks

variable {β : Type}

/-- What has left `block_dissemination_thread`: the blocks it has called
`disseminate` on, and the tails in the pipe to the decision stage. -/
structure BlockThread (β : Type) where
  disseminated : List (NodeId × β)
  blockReady : List (NodeId × List β)

/-- The branch for a received tail. -/
def BlockThread.newBlock (s : BlockThread β) (src : NodeId) (newTail : List β)
    (answers : Answers) : BlockThread β :=
  if !answers.acquire then s
  else
    -- only disseminate the last block
    match newTail.getLast? with
    | none => s
    | some newBlk =>
      let s := { s with disseminated := s.disseminated ++ [(src, newBlk)] }
      if !answers.disseminate then s
      else if !answers.send then s
      else { s with blockReady := s.blockReady ++ [(src, newTail)] }

/-- `block_dissemination_thread` on the tails it receives, each with the answers
of its turn. -/
def blockDisseminationThread (inputs : List ((NodeId × List β) × Answers)) : BlockThread β :=
  inputs.foldl (fun s x => s.newBlock x.1.1 x.1.2 x.2) ⟨[], []⟩

/-- Every received tail that is not empty is in the pipe, once and in order. -/
def ForwardsTails (inputs : List ((NodeId × List β) × Answers)) : Prop :=
  (blockDisseminationThread inputs).blockReady =
    (inputs.map Prod.fst).filter fun x => !x.2.isEmpty

/-- Every call of the turn succeeds. -/
def Answers.allOk (a : Answers) : Bool := a.acquire && a.disseminate && a.send

theorem BlockThread.newBlock_ready (s : BlockThread β) (src : NodeId) (newTail : List β)
    (a : Answers) : (s.newBlock src newTail a).blockReady =
      s.blockReady ++ if !newTail.isEmpty && a.allOk then [(src, newTail)] else [] := by
  obtain ⟨acquire, disseminate, send⟩ := a
  unfold newBlock Answers.allOk
  rcases List.eq_nil_or_concat newTail with rfl | ⟨init, newBlk, rfl⟩
  · cases acquire with
    | false => simp
    | true => simp
  · rw [List.concat_eq_append, List.getLast?_concat]
    cases acquire with
    | false => simp
    | true =>
      cases disseminate with
      | false => simp
      | true =>
        cases send with
        | false => simp
        | true => simp

/-- What gets through are the tails whose turn goes well. -/
theorem blockReady_eq (inputs : List ((NodeId × List β) × Answers)) :
    (blockDisseminationThread inputs).blockReady =
      ((inputs.filter fun x => !x.1.2.isEmpty).filter fun x => x.2.allOk).map Prod.fst := by
  induction inputs using List.reverseRecOn with
  | nil => rfl
  | append_singleton inputs x ih =>
    unfold blockDisseminationThread at ih ⊢
    rw [List.foldl_append, List.foldl_cons, List.foldl_nil, BlockThread.newBlock_ready, ih,
      List.filter_append, List.filter_append, List.map_append]
    congr 1
    cases hempty : x.1.2.isEmpty with
    | true => simp [hempty]
    | false =>
      cases hok : x.2.allOk with
      | true => simp [hempty, hok]
      | false => simp [hempty, hok]

theorem forwardsTails_iff (inputs : List ((NodeId × List β) × Answers)) :
    ForwardsTails inputs ↔ ∀ x ∈ inputs, x.1.2 ≠ [] → x.2.allOk := by
  have hreceived : (inputs.map Prod.fst).filter (fun x => !x.2.isEmpty) =
      (inputs.filter fun x => !x.1.2.isEmpty).map Prod.fst := by
    rw [List.filter_map]
    rfl
  unfold ForwardsTails
  rw [blockReady_eq, hreceived]
  constructor
  · intro h x hx hne
    have hlength := congrArg List.length h
    rw [List.length_map, List.length_map, List.length_filter_eq_length_iff] at hlength
    exact hlength x (List.mem_filter.mpr ⟨hx, by simpa using hne⟩)
  · intro h
    rw [List.filter_eq_self.mpr]
    intro x hx
    obtain ⟨hx, hne⟩ := List.mem_filter.mp hx
    exact h x hx (by simpa using hne)

end Blocks

/-! ## Transactions -/

section Txns

variable {τ : Type}

/-- `DISSEM_BATCH_SIZE`. -/
def dissemBatchSize : Nat := 2000

/-- The state of `txn_dissemination_thread`: of `txn_dissem_time` only whether it
is set, and what has left the thread. -/
structure TxnThread (τ : Type) where
  batch : List (NodeId × τ)
  timerSet : Bool
  disseminated : List (List (NodeId × τ))
  txnReady : List (List τ)

/-- A turn of the thread: transactions arrive, or the wait for a batch is
over. -/
inductive TxnTurn (τ : Type) where
  | newTxn (txnBatch : List (NodeId × τ))
  | sendBatch (answers : Answers)

namespace TxnThread

def newTxn (s : TxnThread τ) (txnBatch : List (NodeId × τ)) : TxnThread τ :=
  { s with batch := s.batch ++ txnBatch, timerSet := true }

/-- The branch that is taken when the wait is over. -/
def sendBatch (s : TxnThread τ) (answers : Answers) : TxnThread τ :=
  if !answers.acquire then s
  else
    let sendBatchSize := min dissemBatchSize s.batch.length
    let sendBatch := s.batch.take sendBatchSize
    let s := { s with
      batch := s.batch.drop sendBatchSize
      disseminated := s.disseminated ++ [sendBatch] }
    if !answers.disseminate then s
    else
      let batchedTxns := sendBatch.map Prod.snd
      let s := { s with timerSet := if s.batch.length = 0 then false else s.timerSet }
      if !answers.send then s else { s with txnReady := s.txnReady ++ [batchedTxns] }

end TxnThread

/-- `txn_dissemination_thread`. `wait_send_batch` does not return as long as the
batch is empty; otherwise it returns when the batch is full or the time has
come, and which turn is next is left open. -/
def txnDisseminationThread (τ : Type) : Machine (TxnThread τ) (TxnTurn τ) where
  start := ⟨[], false, [], []⟩
  step s turn s' :=
    match turn with
    | .newTxn txnBatch => s' = s.newTxn txnBatch
    | .sendBatch answers => s.timerSet = true ∧ s.batch ≠ [] ∧ s' = s.sendBatch answers

/-- The transactions received from validation. -/
def received (turns : List (TxnTurn τ)) : List τ :=
  turns.flatMap fun
    | .newTxn txnBatch => txnBatch.map Prod.snd
    | .sendBatch _ => []

/-- What was forwarded and what is still in the batch is what was received, in
order. -/
def KeepsTxns (turns : List (TxnTurn τ)) (s : TxnThread τ) : Prop :=
  s.txnReady.flatten ++ s.batch.map Prod.snd = received turns

/-- The turn drains a batch and does not forward it. -/
def TxnTurn.drops : TxnTurn τ → Bool
  | newTxn _ => false
  | sendBatch a => a.acquire && !(a.disseminate && a.send)

theorem received_snoc (turns : List (TxnTurn τ)) (txnBatch : List (NodeId × τ)) :
    received (turns ++ [.newTxn txnBatch]) = received turns ++ txnBatch.map Prod.snd := by
  simp [received]

theorem received_sendBatch (turns : List (TxnTurn τ)) (a : Answers) :
    received (turns ++ [.sendBatch a]) = received turns := by
  simp [received]

/-- What a turn that has a core drains, it forwards if no call fails. -/
theorem TxnThread.sendBatch_spec (s : TxnThread τ) (disseminate send : Bool) :
    (s.sendBatch ⟨true, disseminate, send⟩).batch = s.batch.drop dissemBatchSize ∧
    (s.sendBatch ⟨true, disseminate, send⟩).txnReady = s.txnReady ++
      if disseminate && send then [(s.batch.take dissemBatchSize).map Prod.snd] else [] := by
  have hdrop :
      s.batch.drop (min dissemBatchSize s.batch.length) = s.batch.drop dissemBatchSize := by
    rw [← List.drop_eq_drop_min]
  have htake :
      s.batch.take (min dissemBatchSize s.batch.length) = s.batch.take dissemBatchSize := by
    rw [← List.take_eq_take_min]
  unfold sendBatch
  cases disseminate with
  | false => exact ⟨hdrop, (List.append_nil _).symm⟩
  | true =>
    cases send with
    | false => exact ⟨hdrop, (List.append_nil _).symm⟩
    | true => exact ⟨hdrop, congrArg (fun l => s.txnReady ++ [l.map Prod.snd]) htake⟩

/-- A turn without a failed call keeps the law. -/
theorem TxnThread.sendBatch_keeps (s : TxnThread τ) {a : Answers}
    (h : (TxnTurn.sendBatch a : TxnTurn τ).drops = false) :
    (s.sendBatch a).txnReady.flatten ++ (s.sendBatch a).batch.map Prod.snd =
      s.txnReady.flatten ++ s.batch.map Prod.snd := by
  obtain ⟨acquire, disseminate, send⟩ := a
  cases acquire with
  | false => rfl
  | true =>
    obtain ⟨rfl, rfl⟩ : disseminate = true ∧ send = true := by simpa [TxnTurn.drops] using h
    obtain ⟨hbatch, hready⟩ := s.sendBatch_spec true true
    rw [hbatch, hready, Bool.and_self, if_pos rfl, List.flatten_append, List.flatten_singleton,
      List.append_assoc, ← List.map_append, List.take_append_drop]

/-- How many transactions the thread accounts for. -/
def TxnThread.kept (s : TxnThread τ) : Nat := s.txnReady.flatten.length + s.batch.length

/-- A turn with a failed call loses a batch that is not empty. -/
theorem TxnThread.sendBatch_drops (s : TxnThread τ) {a : Answers} (hne : s.batch ≠ [])
    (h : (TxnTurn.sendBatch a : TxnTurn τ).drops = true) : (s.sendBatch a).kept < s.kept := by
  obtain ⟨acquire, disseminate, send⟩ := a
  obtain ⟨rfl, hfail⟩ := Bool.and_eq_true_iff.mp h
  obtain ⟨hbatch, hready⟩ := s.sendBatch_spec disseminate send
  have hfail : (disseminate && send) = false := Eq.mp (Bool.not_eq_true' _) hfail
  rw [hfail, if_neg Bool.false_ne_true, List.append_nil] at hready
  unfold kept
  rw [hbatch, hready, List.length_drop]
  have hpos : 0 < s.batch.length := List.length_pos_iff.mpr hne
  have hsize : 0 < dissemBatchSize := by decide
  omega

theorem KeepsTxns.kept {turns : List (TxnTurn τ)} {s : TxnThread τ} (h : KeepsTxns turns s) :
    s.kept = (received turns).length := by
  rw [← h, List.length_append, List.length_map]
  rfl

/-- Nothing is lost as long as no turn drops a batch; and what is lost does not
come back. -/
theorem run_txns {turns : List (TxnTurn τ)} {s : TxnThread τ}
    (h : (txnDisseminationThread τ).Run (fun _ _ => True) turns s) :
    ((∀ turn ∈ turns, turn.drops = false) → KeepsTxns turns s) ∧
      s.kept + (turns.countP TxnTurn.drops) ≤ (received turns).length := by
  refine h.invariant_trace (fun turns s => ((∀ turn ∈ turns, turn.drops = false) →
    KeepsTxns turns s) ∧ s.kept + (turns.countP TxnTurn.drops) ≤ (received turns).length) ?_ ?_
  · refine ⟨fun _ => ?_, le_rfl⟩
    exact List.append_nil _
  intro turns s turn s' ih _ hstep
  obtain ⟨ih, hle⟩ := ih
  have hold : (∀ turn' ∈ turns ++ [turn], turn'.drops = false) → KeepsTxns turns s :=
    fun hall => ih fun turn' hturn => hall turn' (List.mem_append_left _ hturn)
  rw [List.countP_append, List.countP_singleton]
  cases turn with
  | newTxn txnBatch =>
    obtain rfl : s' = s.newTxn txnBatch := hstep
    rw [received_snoc]
    constructor
    · intro hall
      show s.txnReady.flatten ++ (s.batch ++ txnBatch).map Prod.snd = _
      rw [List.map_append, ← List.append_assoc, hold hall, received_snoc]
    · have hkept : (s.newTxn txnBatch).kept = s.kept + txnBatch.length := by
        show _ + (s.batch ++ txnBatch).length = _
        rw [List.length_append, ← Nat.add_assoc]
        rfl
      rw [hkept, List.length_append, List.length_map]
      simp only [TxnTurn.drops, Bool.false_eq_true, if_false]
      omega
  | sendBatch a =>
    obtain ⟨-, hne, rfl⟩ := hstep
    rw [received_sendBatch]
    constructor
    · intro hall
      show _ ++ _ = _
      rw [s.sendBatch_keeps (hall _ (by simp)), hold hall, received_sendBatch]
    · cases hdrops : (TxnTurn.sendBatch a : TxnTurn τ).drops with
      | true =>
        have hless := s.sendBatch_drops hne hdrops
        simp only [if_true]
        omega
      | false =>
        have hkeeps := congrArg List.length (s.sendBatch_keeps hdrops)
        rw [List.length_append, List.length_append, List.length_map, List.length_map] at hkeeps
        have hsame : (s.sendBatch a).kept = s.kept := hkeeps
        simp only [Bool.false_eq_true, if_false]
        omega

theorem keepsTxns_iff {turns : List (TxnTurn τ)} {s : TxnThread τ}
    (h : (txnDisseminationThread τ).Run (fun _ _ => True) turns s) :
    KeepsTxns turns s ↔ ∀ turn ∈ turns, turn.drops = false := by
  obtain ⟨hkeeps, hle⟩ := run_txns h
  refine ⟨fun hlaw turn hturn => ?_, hkeeps⟩
  have hzero : turns.countP TxnTurn.drops = 0 := by
    have hkept := hlaw.kept
    omega
  exact Bool.eq_false_iff.mpr (List.countP_eq_zero.mp hzero turn hturn)

end Txns

/-- **Nothing is lost unless a call fails**: the tails are all forwarded iff
every call over a tail that is not empty succeeds, and the transactions are all
accounted for iff no call fails after a batch has been drained. -/
theorem forwarded_unless_failed {β τ : Type} (inputs : List ((NodeId × List β) × Answers))
    {turns : List (TxnTurn τ)} {s : TxnThread τ}
    (h : (txnDisseminationThread τ).Run (fun _ _ => True) turns s) :
    (ForwardsTails inputs ↔ ∀ x ∈ inputs, x.1.2 ≠ [] → x.2.allOk) ∧
    (KeepsTxns turns s ↔ ∀ turn ∈ turns, turn.drops = false) :=
  ⟨forwardsTails_iff inputs, keepsTxns_iff h⟩

open Bitcoin (demoBlock demoGrant)

/-- The run in which one transaction arrives and is sent on, if the calls
succeed. -/
theorem run_one (a : Answers) : (txnDisseminationThread BitcoinTxn).Run (fun _ _ => True)
    [.newTxn [(0, demoGrant)], .sendBatch a]
    ((TxnThread.newTxn ⟨[], false, [], []⟩ [(0, demoGrant)]).sendBatch a) := by
  have hfirst : (txnDisseminationThread BitcoinTxn).Run (fun _ _ => True)
      [.newTxn [(0, demoGrant)]] (TxnThread.newTxn ⟨[], false, [], []⟩ [(0, demoGrant)]) :=
    .snoc .nil trivial rfl
  have hsecond : (txnDisseminationThread BitcoinTxn).step
      (TxnThread.newTxn ⟨[], false, [], []⟩ [(0, demoGrant)]) (.sendBatch a)
      ((TxnThread.newTxn ⟨[], false, [], []⟩ [(0, demoGrant)]).sendBatch a) :=
    ⟨rfl, by simp [TxnThread.newTxn], rfl⟩
  exact hfirst.snoc trivial hsecond

theorem forwarded_unless_failed_demo :
    ForwardsTails [((0, [demoBlock [], demoBlock [demoGrant]]), ⟨true, true, true⟩),
      ((1, []), ⟨true, false, true⟩)] ∧
    KeepsTxns [.newTxn [(0, demoGrant)], .sendBatch ⟨true, true, true⟩]
      ((TxnThread.newTxn ⟨[], false, [], []⟩ [(0, demoGrant)]).sendBatch ⟨true, true, true⟩) := by
  obtain ⟨htails, htxns⟩ := forwarded_unless_failed
    [((0, [demoBlock [], demoBlock [demoGrant]]), ⟨true, true, true⟩),
      ((1, []), ⟨true, false, true⟩)] (run_one ⟨true, true, true⟩)
  refine ⟨htails.mpr fun x hx hne => ?_, htxns.mpr fun turn hturn => ?_⟩
  · rcases List.mem_cons.mp hx with rfl | hx
    · rfl
    · rw [List.mem_singleton.mp hx] at hne
      exact absurd rfl hne
  · rcases List.mem_cons.mp hturn with rfl | hturn
    · rfl
    · rw [List.mem_singleton.mp hturn]
      rfl

/-- A failed `disseminate` is enough to lose a tail, and to lose a transaction. -/
theorem dissemination_loses :
    (¬ ∀ inputs : List ((NodeId × List Block) × Answers),
      (∀ x ∈ inputs, x.2.acquire = true ∧ x.2.send = true) → ForwardsTails inputs) ∧
    ¬ ∀ (turns : List (TxnTurn BitcoinTxn)) s,
      (txnDisseminationThread BitcoinTxn).Run (fun _ _ => True) turns s →
      (∀ a, .sendBatch a ∈ turns → a.acquire = true ∧ a.send = true) → KeepsTxns turns s := by
  constructor
  · intro h
    have hlost := h [((0, [demoBlock []]), ⟨true, false, true⟩)] fun x hx => by
      rw [List.mem_singleton.mp hx]
      exact ⟨rfl, rfl⟩
    exact absurd (congrArg List.length hlost) (by decide)
  · intro h
    have hlost := h _ _ (run_one ⟨true, false, true⟩) fun a ha => by
      have ha : a = ⟨true, false, true⟩ := by simpa using ha
      rw [ha]
      exact ⟨rfl, rfl⟩
    exact absurd (congrArg List.length hlost) (by decide)

end Copycat
