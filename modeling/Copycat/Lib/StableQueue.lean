import Copycat.Lib.Machine
import Mathlib.Data.List.Pairwise
import Mathlib.Data.Multiset.AddSub
import Mathlib.Order.CompletePartialOrder

/-!
# Stable priority queues

What a queue ordered by time is for: it serves the earliest of what was put in,
and of two with the same time the one that was put in first. Besides, the first
one with given data can be taken out.

`StableQueue` says this of an unordered multiset, in which everything has its
place among all that was ever pushed; `StableQueue.Step` says for each
operation what leaves. `Arranged` lists the multiset in the order in which it
is served. There is one such list (`Arranged.unique`), so an implementation
that keeps a list has to keep this one, and `Arranged.push`, `Arranged.pop` and
`Arranged.remove` say how it changes. Along a run nothing is lost or made up:
what is held and what was handed out is what was pushed (`kept_run`).
-/

namespace Copycat.Lib

variable {ι α : Type}

/-- The calls on a queue. -/
inductive QueueOp (ι α : Type)
  | push (data : α) (time : ι)
  | pop
  | remove (data : α)

/-- What was pushed, with its place among all pushes. -/
structure Arrival (ι α : Type) where
  place : Nat
  time : ι
  data : α

/-- What is held, and how many pushes there were. -/
structure StableQueue (ι α : Type) where
  pushed : Nat
  held : Multiset (Arrival ι α)

namespace StableQueue

/-- The data and times that were pushed, in order. -/
def pushes (ops : List (QueueOp ι α)) : List (α × ι) :=
  ops.filterMap fun
    | .push data time => some (data, time)
    | _ => none

/-- What was pushed, each with its place. -/
def arrivals (ops : List (QueueOp ι α)) : List (Arrival ι α) :=
  (pushes ops).zipIdx.map fun p => ⟨p.2, p.1.2, p.1.1⟩

theorem pushes_append (ops ops' : List (QueueOp ι α)) :
    pushes (ops ++ ops') = pushes ops ++ pushes ops' :=
  List.filterMap_append ..

theorem arrivals_push (ops : List (QueueOp ι α)) (data : α) (time : ι) :
    arrivals (ops ++ [.push data time]) =
      arrivals ops ++ [⟨(pushes ops).length, time, data⟩] := by
  unfold arrivals
  rw [pushes_append, List.zipIdx_append, List.map_append, Nat.zero_add]
  rfl

theorem arrivals_other {op : QueueOp ι α} (hop : pushes [op] = []) (ops : List (QueueOp ι α)) :
    arrivals (ops ++ [op]) = arrivals ops := by
  unfold arrivals
  rw [pushes_append, hop, List.append_nil]

/-! ## Nothing is lost -/

/-- What is held and what was handed out, in that order, is what was pushed. -/
def Kept (ops : List (QueueOp ι α)) (out : List α) (s : StableQueue ι α) : Prop :=
  s.pushed = (pushes ops).length ∧ ∃ gone : List (Arrival ι α),
    gone.map Arrival.data = out ∧ s.held + gone = arrivals ops

theorem Kept.push {ops : List (QueueOp ι α)} {out : List α} {s : StableQueue ι α}
    (h : Kept ops out s) (data : α) (time : ι) :
    Kept (ops ++ [.push data time]) out ⟨s.pushed + 1, ⟨s.pushed, time, data⟩ ::ₘ s.held⟩ := by
  obtain ⟨hpushed, gone, hgone, hsum⟩ := h
  refine ⟨?_, gone, hgone, ?_⟩
  · rw [pushes_append, List.length_append, ← hpushed]
    rfl
  · rw [arrivals_push, ← hpushed, ← Multiset.coe_add, ← hsum, Multiset.cons_add,
      Multiset.coe_singleton, Multiset.add_comm _ {_}, Multiset.singleton_add]

theorem Kept.stay {ops : List (QueueOp ι α)} {out : List α} {s : StableQueue ι α}
    (h : Kept ops out s) {op : QueueOp ι α} (hop : pushes [op] = []) :
    Kept (ops ++ [op]) out s := by
  unfold Kept
  rw [pushes_append, hop, List.append_nil, arrivals_other hop]
  exact h

theorem Kept.leave {ops : List (QueueOp ι α)} {out : List α} {n : Nat} {first : Arrival ι α}
    {rest : Multiset (Arrival ι α)} (h : Kept ops out ⟨n, first ::ₘ rest⟩)
    {op : QueueOp ι α} (hop : pushes [op] = []) :
    Kept (ops ++ [op]) (out ++ [first.data]) ⟨n, rest⟩ := by
  obtain ⟨hpushed, gone, hgone, hsum⟩ := h.stay hop
  refine ⟨hpushed, gone ++ [first], ?_, ?_⟩
  · rw [List.map_append, hgone]
    rfl
  · rw [← hsum, ← Multiset.coe_add, Multiset.coe_singleton, ← Multiset.add_assoc,
      Multiset.add_comm _ {first}, Multiset.singleton_add, Multiset.cons_add]

end StableQueue

/-! ## The order of service -/

variable [LinearOrder ι]

/-- The order of service: by time, and by place where the times are equal. -/
def Arrival.Before (a b : Arrival ι α) : Prop :=
  a.time < b.time ∨ a.time = b.time ∧ a.place < b.place

theorem Arrival.Before.asymm {a b : Arrival ι α} (h : a.Before b) :
    ¬ b.Before a := by
  rintro (hba | ⟨heq, hba⟩)
  · rcases h with hab | ⟨heq, -⟩
    · exact lt_asymm hab hba
    · exact absurd heq (ne_of_gt hba)
  · rcases h with hab | ⟨-, hab⟩
    · exact absurd heq (ne_of_gt hab)
    · exact Nat.lt_asymm hab hba

theorem Arrival.Before.time_le {a b : Arrival ι α} (h : a.Before b) :
    a.time ≤ b.time := by
  rcases h with h | ⟨h, -⟩
  · exact le_of_lt h
  · exact le_of_eq h

namespace StableQueue

/-- The list in which everything held is served. -/
structure Arranged (order : List (Arrival ι α)) (s : StableQueue ι α) : Prop where
  held : s.held = order
  sorted : order.Pairwise Arrival.Before
  placed : ∀ e ∈ order, e.place < s.pushed

theorem arranged_empty : Arranged ([] : List (Arrival ι α)) ⟨0, 0⟩ :=
  ⟨rfl, .nil, fun _ he => absurd he (by simp)⟩

/-- There is only one order of service. -/
theorem Arranged.unique {order order' : List (Arrival ι α)} {s : StableQueue ι α}
    (h : Arranged order s) (h' : Arranged order' s) : order = order' := by
  have hperm : order.Perm order' := Multiset.coe_eq_coe.mp (h.held.symm.trans h'.held)
  exact hperm.eq_of_pairwise (fun a b _ _ hab hba => absurd hba hab.asymm) h.sorted h'.sorted

/-- Taking one out leaves the others as they are. -/
theorem Arranged.without {pre post : List (Arrival ι α)} {first : Arrival ι α}
    {s : StableQueue ι α} (h : Arranged (pre ++ first :: post) s) :
    s.held = first ::ₘ ((pre ++ post : List (Arrival ι α)) : Multiset (Arrival ι α)) ∧
      Arranged (pre ++ post) ⟨s.pushed, ((pre ++ post : List (Arrival ι α)) : Multiset _)⟩ := by
  have hsub : (pre ++ post).Sublist (pre ++ first :: post) :=
    (List.Sublist.refl pre).append (List.sublist_cons_self first post)
  refine ⟨?_, rfl, h.sorted.sublist hsub, fun e he => h.placed e (hsub.subset he)⟩
  rw [h.held, Multiset.cons_coe, Multiset.coe_eq_coe]
  exact List.perm_middle

/-! ## The operations -/

variable [BEq α]

/-- What an operation does, and what it hands out. -/
inductive Step : StableQueue ι α → QueueOp ι α × Option α → StableQueue ι α → Prop
  | push {n : Nat} {held : Multiset (Arrival ι α)} (data : α) (time : ι) :
      Step ⟨n, held⟩ (.push data time, none) ⟨n + 1, ⟨n, time, data⟩ ::ₘ held⟩
  | pop {n : Nat} {first : Arrival ι α} {rest : Multiset (Arrival ι α)} :
      (∀ e ∈ rest, first.Before e) →
      Step ⟨n, first ::ₘ rest⟩ (.pop, some first.data) ⟨n, rest⟩
  | popEmpty {n : Nat} : Step ⟨n, 0⟩ (.pop, none) ⟨n, 0⟩
  | remove {n : Nat} {data : α} {first : Arrival ι α} {rest : Multiset (Arrival ι α)} :
      (first.data == data) = true → (∀ e ∈ rest, (e.data == data) = true → first.Before e) →
      Step ⟨n, first ::ₘ rest⟩ (.remove data, some first.data) ⟨n, rest⟩
  | removeNone {n : Nat} {data : α} {held : Multiset (Arrival ι α)} :
      (∀ e ∈ held, (e.data == data) = false) → Step ⟨n, held⟩ (.remove data, none) ⟨n, held⟩

/-- The queue as a machine, from the empty one. -/
def machine (ι α : Type) [LinearOrder ι] [BEq α] :
    Machine (StableQueue ι α) (QueueOp ι α × Option α) where
  start := ⟨0, 0⟩
  step := Step

theorem Kept.step {ops : List (QueueOp ι α)} {out : List α} {s s' : StableQueue ι α}
    {l : QueueOp ι α × Option α} (h : Kept ops out s) (hs : Step s l s') :
    Kept (ops ++ [l.1]) (out ++ l.2.toList) s' := by
  cases hs with
  | push data time =>
    rw [Option.toList_none, List.append_nil]
    exact h.push data time
  | pop => exact h.leave rfl
  | popEmpty =>
    rw [Option.toList_none, List.append_nil]
    exact h.stay rfl
  | remove => exact h.leave rfl
  | removeNone =>
    rw [Option.toList_none, List.append_nil]
    exact h.stay rfl

theorem kept_run {G : StableQueue ι α → QueueOp ι α × Option α → Prop}
    {tr : List (QueueOp ι α × Option α)} {s : StableQueue ι α} (h : (machine ι α).Run G tr s) :
    Kept (tr.map Prod.fst) (tr.filterMap Prod.snd) s := by
  refine h.invariant_trace (fun tr s => Kept (tr.map Prod.fst) (tr.filterMap Prod.snd) s) ?_ ?_
  · exact ⟨rfl, [], rfl, rfl⟩
  · intro tr s l s' hkept _ hs
    have hout : [l].filterMap Prod.snd = l.2.toList := by
      cases hl : l.2 with
      | none => simp [hl]
      | some data => simp [hl]
    rw [List.map_append, List.filterMap_append, hout]
    exact hkept.step hs

/-- What is pushed is served behind all that is not later, since that has been
there before. -/
theorem Arranged.push {front back : List (Arrival ι α)} {s : StableQueue ι α}
    (h : Arranged (front ++ back) s) (data : α) (time : ι) (hfront : ∀ e ∈ front, e.time ≤ time)
    (hback : ∀ e ∈ back, time < e.time) :
    ∃ s', Step s (.push data time, none) s' ∧
      Arranged (front ++ ⟨s.pushed, time, data⟩ :: back) s' := by
  obtain ⟨n, held⟩ := s
  refine ⟨_, .push data time, ?_, ?_, ?_⟩
  · show _ ::ₘ held = _
    rw [show held = _ from h.held, Multiset.cons_coe, Multiset.coe_eq_coe]
    exact List.perm_middle.symm
  · obtain ⟨hf, hb, hcross⟩ := List.pairwise_append.mp h.sorted
    refine List.pairwise_append.mpr ⟨hf, List.pairwise_cons.mpr ⟨?_, hb⟩, ?_⟩
    · exact fun e he => Or.inl (hback e he)
    · intro e he e' he'
      rcases List.mem_cons.mp he' with rfl | he'
      · rcases lt_or_eq_of_le (hfront e he) with hlt | heq
        · exact Or.inl hlt
        · exact Or.inr ⟨heq, h.placed e (List.mem_append_left _ he)⟩
      · exact hcross e he e' he'
  · intro e he
    have hcases : e = ⟨n, time, data⟩ ∨ e ∈ front ++ back := by
      rw [← List.mem_cons]
      exact List.perm_middle.mem_iff.mp he
    rcases hcases with rfl | he
    · exact Nat.lt_succ_self n
    · exact Nat.lt_succ_of_lt (h.placed e he)

/-- The first in the order leaves. -/
theorem Arranged.pop {first : Arrival ι α} {rest : List (Arrival ι α)} {s : StableQueue ι α}
    (h : Arranged (first :: rest) s) :
    ∃ s', Step s (.pop, some first.data) s' ∧ Arranged rest s' := by
  obtain ⟨n, held⟩ := s
  obtain ⟨hheld, hrest⟩ := Arranged.without (show Arranged ([] ++ first :: rest) _ from h)
  refine ⟨⟨n, rest⟩, ?_, hrest⟩
  rw [show held = _ from hheld]
  exact .pop fun e he => List.rel_of_pairwise_cons h.sorted he

theorem Arranged.popEmpty {s : StableQueue ι α} (h : Arranged [] s) : Step s (.pop, none) s := by
  obtain ⟨n, held⟩ := s
  rw [show held = 0 from h.held]
  exact .popEmpty

/-- The first in the order with the data leaves. -/
theorem Arranged.remove {pre post : List (Arrival ι α)} {first : Arrival ι α} {data : α}
    {s : StableQueue ι α} (h : Arranged (pre ++ first :: post) s)
    (hpre : ∀ e ∈ pre, (e.data == data) = false) (hfirst : (first.data == data) = true) :
    ∃ s', Step s (.remove data, some first.data) s' ∧ Arranged (pre ++ post) s' := by
  obtain ⟨n, held⟩ := s
  obtain ⟨hheld, hrest⟩ := h.without
  refine ⟨⟨n, (pre ++ post : List _)⟩, ?_, hrest⟩
  rw [show held = _ from hheld]
  refine .remove hfirst fun e he hdata => ?_
  rcases List.mem_append.mp (Multiset.mem_coe.mp he) with he | he
  · rw [hpre e he] at hdata
    exact absurd hdata (by simp)
  · exact List.rel_of_pairwise_cons (List.pairwise_append.mp h.sorted).2.1 he

theorem Arranged.removeNone {order : List (Arrival ι α)} {data : α} {s : StableQueue ι α}
    (h : Arranged order s) (hnone : ∀ e ∈ order, (e.data == data) = false) :
    Step s (.remove data, none) s := by
  obtain ⟨n, held⟩ := s
  refine .removeNone fun e he => hnone e ?_
  rw [show held = _ from h.held] at he
  exact Multiset.mem_coe.mp he

end StableQueue

end Copycat.Lib
