import Copycat.Lib.StableQueue
import Mathlib.Data.List.DropRight

/-!
# `TimeQueue`

The queue of the vote timers (`src/utils/time_queue.rs`), over any type of
data and any order of time. `inner` is the `VecDeque`, front first. The tick
that wakes the waiting task (`notify`) does not touch it.

`push` looks for its place from the back and goes past the entries that are
later, so it comes behind those with the same time; `pop` takes the front;
`remove` looks for the data from the front. `stable_with_removal` says that for
any calls the queue is the one `Lib.StableQueue` describes.
-/

namespace Copycat

open Copycat.Lib Copycat.Lib.StableQueue

/-- `TimeEvent`. -/
structure TimeEvent (ι α : Type) where
  data : α
  time : ι
deriving DecidableEq, Repr

/-- `TimeQueue`. -/
structure TimeQueue (ι α : Type) where
  inner : List (TimeEvent ι α)
deriving DecidableEq, Repr

namespace TimeQueue

variable {ι α : Type}

/-- `TimeQueue::new`. -/
def new : TimeQueue ι α where
  inner := []

/-- `pop`. -/
def pop (q : TimeQueue ι α) : TimeQueue ι α × Option α :=
  match q.inner with
  | [] => (q, none)
  | te :: rest => (⟨rest⟩, some te.data)

/-- The loop of `remove`, from index `idx` on. -/
def removeIdx [BEq α] (data : α) : List (TimeEvent ι α) → Nat → Option Nat
  | [], _ => none
  | te :: rest, idx => if te.data == data then some idx else removeIdx data rest (idx + 1)

/-- `remove`. -/
def remove [BEq α] (q : TimeQueue ι α) (data : α) : TimeQueue ι α × Option α :=
  match removeIdx data q.inner 0 with
  | none => (q, none)
  | some idx => (⟨q.inner.eraseIdx idx⟩, q.inner[idx]?.map TimeEvent.data)

/-! ## What leaves -/

theorem removeIdx_cases [BEq α] (data : α) (inner : List (TimeEvent ι α)) :
    ∀ idx, (∃ pre te post, inner = pre ++ te :: post ∧
        (∀ te' ∈ pre, (te'.data == data) = false) ∧ (te.data == data) = true ∧
        removeIdx data inner idx = some (idx + pre.length)) ∨
      ((∀ te ∈ inner, (te.data == data) = false) ∧ removeIdx data inner idx = none) := by
  induction inner with
  | nil => exact fun _ => Or.inr ⟨fun _ hte => absurd hte (by simp), rfl⟩
  | cons te inner ih =>
    intro idx
    rw [removeIdx]
    cases hte : te.data == data with
    | true =>
      refine Or.inl ⟨[], te, inner, rfl, fun _ h => absurd h (by simp), hte, ?_⟩
      rw [if_pos rfl]
      rfl
    | false =>
      have hskip : ∀ {pre : List (TimeEvent ι α)}, (∀ te' ∈ pre, (te'.data == data) = false) →
          ∀ te' ∈ te :: pre, (te'.data == data) = false := by
        intro pre hpre te' hmem
        rcases List.mem_cons.mp hmem with rfl | hmem
        · exact hte
        · exact hpre te' hmem
      rw [if_neg (by simp)]
      rcases ih (idx + 1) with ⟨pre, found, post, hinner, hpre, hfound, hidx⟩ | ⟨hnone, hidx⟩
      · refine Or.inl ⟨te :: pre, found, post, by rw [hinner]; rfl, hskip hpre, hfound, ?_⟩
        rw [hidx, List.length_cons]
        congr 1
        omega
      · exact Or.inr ⟨hskip hnone, hidx⟩

/-- `remove` takes out the first entry with the data, if there is one. -/
theorem remove_cases [BEq α] (q : TimeQueue ι α) (data : α) :
    (∃ pre te post, q.inner = pre ++ te :: post ∧ (∀ te' ∈ pre, (te'.data == data) = false) ∧
        (te.data == data) = true ∧ q.remove data = (⟨pre ++ post⟩, some te.data)) ∨
      ((∀ te ∈ q.inner, (te.data == data) = false) ∧ q.remove data = (q, none)) := by
  rcases removeIdx_cases data q.inner 0 with
    ⟨pre, te, post, hinner, hpre, hte, hidx⟩ | ⟨hnone, hidx⟩
  · refine Or.inl ⟨pre, te, post, hinner, hpre, hte, ?_⟩
    rw [Nat.zero_add] at hidx
    simp only [remove, hidx]
    rw [hinner, List.eraseIdx_append_of_length_le (Nat.le_refl _),
      List.getElem?_append_right (Nat.le_refl _), Nat.sub_self]
    rfl
  · refine Or.inr ⟨hnone, ?_⟩
    simp only [remove, hidx]

/-! ## Where an entry goes -/

variable [LinearOrder ι]

/-- The loop of `push` over the first `n` entries, the last one first. -/
def insertIdx (inner : List (TimeEvent ι α)) (time : ι) : (n : Nat) → n ≤ inner.length → Nat → Nat
  | 0, _, insertIdx => insertIdx
  | idx + 1, h, insertIdx =>
    if inner[idx].time > time then TimeQueue.insertIdx inner time idx (Nat.le_of_succ_le h) idx
    else insertIdx

/-- `push`. -/
def push (q : TimeQueue ι α) (data : α) (time : ι) : TimeQueue ι α where
  inner := q.inner.insertIdx
    (insertIdx q.inner time q.inner.length (Nat.le_refl _) q.inner.length) ⟨data, time⟩

/-- The entries `push` goes past. -/
def later (time : ι) (te : TimeEvent ι α) : Bool := decide (te.time > time)

/-- The loop stops behind the last entry that is not later. -/
theorem insertIdx_eq (time : ι) {inner front : List (TimeEvent ι α)} :
    ∀ {back : List (TimeEvent ι α)} {n : Nat} (h : n ≤ inner.length), inner = front ++ back →
      n = front.length →
        insertIdx inner time n h n = (front.rdropWhile (later time)).length := by
  induction front using List.reverseRecOn with
  | nil =>
    rintro back n h - rfl
    rfl
  | append_singleton front te ih =>
    intro back n h hinner hn
    rw [List.length_append, List.length_singleton] at hn
    subst hn
    have hget : inner[front.length] = te := by
      simp [hinner]
    rw [insertIdx, hget, List.rdropWhile_concat]
    by_cases hlater : te.time > time
    · rw [if_pos hlater, if_pos (show later time te = true from decide_eq_true hlater)]
      exact ih _ (hinner.trans (List.append_assoc ..)) rfl
    · rw [if_neg hlater, if_neg (by simpa [later] using hlater), List.length_append]
      rfl

theorem insertIdx_append {β : Type} (front back : List β) (x : β) :
    (front ++ back).insertIdx front.length x = front ++ x :: back := by
  induction front with
  | nil => rfl
  | cons y front ih => exact congrArg (y :: ·) ih

/-- `VecDeque::insert`, which panics beyond the length, is called within it. -/
theorem insertIdx_le (inner : List (TimeEvent ι α)) (time : ι) :
    insertIdx inner time inner.length (Nat.le_refl _) inner.length ≤ inner.length := by
  rw [insertIdx_eq time (Nat.le_refl _) (List.append_nil inner).symm rfl]
  exact (List.rdropWhile_prefix (later time) (l := inner)).length_le

/-- The new entry comes behind the last one that is not later. -/
theorem push_inner (q : TimeQueue ι α) (data : α) (time : ι) :
    (q.push data time).inner = q.inner.rdropWhile (later time) ++
      ⟨data, time⟩ :: q.inner.rtakeWhile (later time) := by
  have hidx := insertIdx_eq time (Nat.le_refl _) (List.append_nil q.inner).symm rfl
  show q.inner.insertIdx _ _ = _
  rw [hidx]
  have hsplit : q.inner = q.inner.rdropWhile (later time) ++ q.inner.rtakeWhile (later time) :=
    List.rdropWhile_append_rtakeWhile.symm
  nth_rewrite 1 [hsplit]
  exact insertIdx_append _ _ _

/-- What `push` stays behind, in a queue ordered by time. -/
theorem time_le_of_mem_rdropWhile {inner : List (TimeEvent ι α)} {time : ι}
    (hsorted : inner.Pairwise fun te te' => te.time ≤ te'.time) :
    ∀ te ∈ inner.rdropWhile (later time), te.time ≤ time := by
  intro te hte
  have hne := List.ne_nil_of_mem hte
  have hlast : ((inner.rdropWhile (later time)).getLast hne).time ≤ time := by
    have hnot := List.rdropWhile_last_not (later time) inner hne
    simpa [later] using hnot
  have hfront := hsorted.sublist (List.rdropWhile_prefix (later time) (l := inner)).sublist
  rw [← List.dropLast_append_getLast hne] at hte hfront
  rcases List.mem_append.mp hte with hmem | hmem
  · exact le_trans ((List.pairwise_append.mp hfront).2.2 te hmem _ (List.mem_singleton_self _))
      hlast
  · rw [List.mem_singleton.mp hmem]
    exact hlast

/-! ## The queue is stable -/

/-- One call, and what it returns. -/
def call [BEq α] (q : TimeQueue ι α) : QueueOp ι α → TimeQueue ι α × Option α
  | .push data time => (q.push data time, none)
  | .pop => q.pop
  | .remove data => q.remove data

/-- The queue after a sequence of calls. -/
def calls [BEq α] (q : TimeQueue ι α) (ops : List (QueueOp ι α)) : TimeQueue ι α :=
  ops.foldl (fun q op => (q.call op).1) q

theorem calls_append [BEq α] (q : TimeQueue ι α) (ops ops' : List (QueueOp ι α)) :
    q.calls (ops ++ ops') = (q.calls ops).calls ops' :=
  List.foldl_append ..

/-- A sequence of calls on the new queue, with what each one returned. -/
def run [BEq α] (ops : List (QueueOp ι α)) : TimeQueue ι α × List (QueueOp ι α × Option α) :=
  ops.foldl (fun acc op => ((acc.1.call op).1, acc.2 ++ [(op, (acc.1.call op).2)])) (new, [])

/-- The entry for what was pushed. -/
def entry (e : Arrival ι α) : TimeEvent ι α where
  data := e.data
  time := e.time

/-- The queue holds what the abstract one holds, in the order of service. -/
def Serves (q : TimeQueue ι α) (order : List (Arrival ι α)) (s : StableQueue ι α) : Prop :=
  Arranged order s ∧ q.inner = order.map entry

theorem Serves.sorted {q : TimeQueue ι α} {order : List (Arrival ι α)} {s : StableQueue ι α}
    (h : q.Serves order s) : q.inner.Pairwise fun te te' => te.time ≤ te'.time := by
  rw [h.2, List.pairwise_map]
  exact h.1.sorted.imp fun hab => hab.time_le

theorem Serves.push [BEq α] {q : TimeQueue ι α} {order : List (Arrival ι α)}
    {s : StableQueue ι α} (h : q.Serves order s) (data : α) (time : ι) :
    ∃ order' s', Step s (.push data time, none) s' ∧ (q.push data time).Serves order' s' := by
  have hsplit : order.map entry =
      q.inner.rdropWhile (later time) ++ q.inner.rtakeWhile (later time) := by
    rw [List.rdropWhile_append_rtakeWhile, h.2]
  obtain ⟨front, back, rfl, hfront, hback⟩ := List.map_eq_append_iff.mp hsplit
  obtain ⟨s', hs, harr⟩ := h.1.push data time
    (fun e he => time_le_of_mem_rdropWhile h.sorted (entry e)
      (hfront ▸ List.mem_map_of_mem he))
    (fun e he => of_decide_eq_true (List.mem_rtakeWhile_imp (p := later time)
      (show entry e ∈ q.inner.rtakeWhile (later time) from hback ▸ List.mem_map_of_mem he)))
  refine ⟨_, s', hs, harr, ?_⟩
  rw [push_inner, List.map_append, List.map_cons, hfront, hback]
  rfl

theorem Serves.pop [BEq α] {q : TimeQueue ι α} {order : List (Arrival ι α)}
    {s : StableQueue ι α} (h : q.Serves order s) :
    ∃ order' s', Step s (.pop, q.pop.2) s' ∧ q.pop.1.Serves order' s' := by
  obtain ⟨inner⟩ := q
  obtain ⟨harr, hinner⟩ := h
  dsimp only at hinner
  subst hinner
  cases order with
  | nil => exact ⟨[], s, harr.popEmpty, harr, rfl⟩
  | cons first rest =>
    obtain ⟨s', hs, hrest⟩ := harr.pop
    exact ⟨rest, s', hs, hrest, rfl⟩

theorem Serves.remove [BEq α] {q : TimeQueue ι α} {order : List (Arrival ι α)}
    {s : StableQueue ι α} (h : q.Serves order s) (data : α) :
    ∃ order' s', Step s (.remove data, (q.remove data).2) s' ∧
      (q.remove data).1.Serves order' s' := by
  rcases q.remove_cases data with ⟨pre, te, post, hinner, hpre, hte, hq⟩ | ⟨hnone, hq⟩
  · rw [hq]
    obtain ⟨front, tail, rfl, hfront, htail⟩ := List.map_eq_append_iff.mp (h.2.symm.trans hinner)
    obtain ⟨first, back, rfl, rfl, hback⟩ := List.map_eq_cons_iff.mp htail
    obtain ⟨s', hs, harr⟩ := h.1.remove
      (fun e he => hpre (entry e) (hfront ▸ List.mem_map_of_mem he)) hte
    refine ⟨front ++ back, s', hs, harr, ?_⟩
    rw [List.map_append, hfront, hback]
  · rw [hq]
    refine ⟨order, s, h.1.removeNone fun e he => hnone (entry e) ?_, h⟩
    rw [h.2]
    exact List.mem_map_of_mem he

theorem Serves.call [BEq α] {q : TimeQueue ι α} {order : List (Arrival ι α)}
    {s : StableQueue ι α} (h : q.Serves order s) (op : QueueOp ι α) :
    ∃ order' s', Step s (op, (q.call op).2) s' ∧ (q.call op).1.Serves order' s' := by
  cases op with
  | push data time => exact h.push data time
  | pop => exact h.pop
  | remove data => exact h.remove data

theorem run_append [BEq α] (ops : List (QueueOp ι α)) (op : QueueOp ι α) :
    run (ops ++ [op]) =
      (((run ops).1.call op).1, (run ops).2 ++ [(op, ((run ops).1.call op).2)]) := by
  unfold run
  rw [List.foldl_append]
  rfl

/-- Any calls on the code's queue are calls on the abstract one, with the same
results. -/
theorem run_serves [BEq α] (ops : List (QueueOp ι α)) :
    ∃ order s, (machine ι α).Run (fun _ _ => True) (run ops).2 s ∧ (run ops).1.Serves order s := by
  induction ops using List.reverseRecOn with
  | nil => exact ⟨[], _, .nil, arranged_empty, rfl⟩
  | append_singleton ops op ih =>
    obtain ⟨order, s, hrun, hserves⟩ := ih
    obtain ⟨order', s', hs, hserves'⟩ := hserves.call op
    rw [run_append]
    exact ⟨order', s', hrun.snoc trivial hs, hserves'⟩

theorem run_ops [BEq α] (ops : List (QueueOp ι α)) : (run ops).2.map Prod.fst = ops := by
  induction ops using List.reverseRecOn with
  | nil => rfl
  | append_singleton ops op ih =>
    rw [run_append, List.map_append, ih]
    rfl

/-- Without the results, a run is its calls. -/
theorem run_calls [BEq α] (ops : List (QueueOp ι α)) : (run ops).1 = calls new ops := by
  induction ops using List.reverseRecOn with
  | nil => rfl
  | append_singleton ops op ih =>
    rw [run_append, calls_append, ← ih]
    rfl

/-- **`TimeQueue` is a stable priority queue with removal.** Whatever calls are
made, they do and return what the abstract queue does and returns: `pop` the
earliest-pushed entry of the least time, `remove` the first entry with the data.
The queue holds the entries in the order of service, by time and then by the
order of the pushes, and these are the pushed ones without those handed out. -/
theorem stable_with_removal [BEq α] (ops : List (QueueOp ι α)) :
    ∃ (order : List (Arrival ι α)) (s : StableQueue ι α),
      (run ops).2.map Prod.fst = ops ∧
      (machine ι α).Run (fun _ _ => True) (run ops).2 s ∧
      (run ops).1.Serves order s ∧
      ((run ops).1.inner.Pairwise fun te te' => te.time ≤ te'.time) ∧
      ∃ gone : List (Arrival ι α), gone.map Arrival.data = (run ops).2.filterMap Prod.snd ∧
        (order ++ gone).Perm (arrivals ops) := by
  obtain ⟨order, s, hrun, hserves⟩ := run_serves ops
  obtain ⟨-, gone, hgone, hsum⟩ := kept_run hrun
  refine ⟨order, s, run_ops ops, hrun, hserves, hserves.sorted, gone, hgone, ?_⟩
  rw [run_ops, hserves.1.held, Multiset.coe_add] at hsum
  exact Multiset.coe_eq_coe.mp hsum

-- two timers of time 1: the one pushed first goes first, also after a removal
example : (run [.push 7 1, .push 8 0, .push 9 1, .remove 7, .push (7 : Nat) (1 : Nat), .pop, .pop,
    .pop]).2.filterMap Prod.snd = [7, 8, 9, 7] := by decide

end TimeQueue

end Copycat
