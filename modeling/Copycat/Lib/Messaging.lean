import Copycat.Lib.Machine
import Mathlib.Algebra.BigOperators.Group.Multiset.Basic
import Mathlib.Data.Multiset.Filter
import Mathlib.Data.Multiset.AddSub
import Mathlib.Logic.Function.Basic

/-!
# Nodes that exchange messages

Every node does one thing after the other, each of which may take messages in and may
send some. Messages are taken in any order, each once at most, and maybe never.

What a node does in a run of the network is a run of the node alone (`run_node`), so its
own invariants hold, and messages add up: what has been taken and what is on its way is
what was sent (`run_flight`).
-/

namespace Copycat.Lib

/-- Nodes `ν` with states `σ`. An action of `α` takes messages of `π` in; `turn` relates
the states before and after it, with the messages that are sent. -/
structure Messaging (ν σ α π : Type) where
  start : ν → σ
  takes : ν → α → Multiset π
  turn : ν → σ → α → Multiset π → σ → Prop

namespace Messaging

/-- The nodes, and the messages on their way. -/
structure Net (ν σ π : Type) where
  nodes : ν → σ
  flight : Multiset π

/-- What a node has done, and what it has sent. -/
structure Did (ν α π : Type) where
  node : ν
  act : α
  sent : Multiset π

variable {ν σ α π : Type} [DecidableEq ν] (M : Messaging ν σ α π)

inductive Step (s : Net ν σ π) : Did ν α π → Net ν σ π → Prop
  | turn {n : ν} {a : α} {out rest : Multiset π} {s' : σ} :
      s.flight = M.takes n a + rest → M.turn n (s.nodes n) a out s' →
      Step s ⟨n, a, out⟩ ⟨Function.update s.nodes n s', out + rest⟩

/-- The network as a machine. -/
def net : Machine (Net ν σ π) (Did ν α π) where
  start := ⟨M.start, 0⟩
  step := Step M

/-- A single node as a machine. -/
def node (n : ν) : Machine σ α where
  start := M.start n
  step s a s' := ∃ out, M.turn n s a out s'

/-- What a node has done, in order. -/
def acts (n : ν) (tr : List (Did ν α π)) : List α :=
  tr.filterMap fun d => if d.node = n then some d.act else none

/-- All messages that were sent. -/
def sent (tr : List (Did ν α π)) : Multiset π := (tr.map Did.sent).sum

/-- All messages that were taken. -/
def taken (tr : List (Did ν α π)) : Multiset π := (tr.map fun d => M.takes d.node d.act).sum

omit [DecidableEq ν] in
theorem mem_sum_map {f : Did ν α π → Multiset π} {tr : List (Did ν α π)} {p : π} :
    p ∈ (tr.map f).sum ↔ ∃ d ∈ tr, p ∈ f d := by
  induction tr with
  | nil => simp
  | cons d tr ih => simp [ih]

theorem acts_snoc (n : ν) (tr : List (Did ν α π)) (d : Did ν α π) :
    acts n (tr ++ [d]) = acts n tr ++ if d.node = n then [d.act] else [] := by
  unfold acts
  rw [List.filterMap_append]
  by_cases h : d.node = n
  · simp [h]
  · simp [h]

theorem mem_acts {n : ν} {tr : List (Did ν α π)} {a : α} :
    a ∈ acts n tr ↔ ∃ out, ⟨n, a, out⟩ ∈ tr := by
  unfold acts
  rw [List.mem_filterMap]
  refine ⟨fun h => ?_, fun h => ?_⟩
  · obtain ⟨d, hd, h⟩ := h
    split at h
    · rename_i hn
      refine ⟨d.sent, ?_⟩
      rw [← hn, ← Option.some.inj h]
      exact hd
    · exact absurd h (by simp)
  · obtain ⟨out, h⟩ := h
    exact ⟨_, h, if_pos rfl⟩

theorem mem_acts_mono {n : ν} {tr : List (Did ν α π)} {a : α} (h : a ∈ acts n tr)
    (d : Did ν α π) : a ∈ acts n (tr ++ [d]) := by
  rw [acts_snoc]
  exact List.mem_append_left _ h

omit [DecidableEq ν] in
theorem sent_snoc (tr : List (Did ν α π)) (d : Did ν α π) :
    sent (tr ++ [d]) = sent tr + d.sent := by
  simp [sent]

omit [DecidableEq ν] in
theorem taken_snoc (tr : List (Did ν α π)) (d : Did ν α π) :
    M.taken (tr ++ [d]) = M.taken tr + M.takes d.node d.act := by
  simp [taken]

variable {M} {G : Net ν σ π → Did ν α π → Prop} {tr : List (Did ν α π)} {s : Net ν σ π}

/-- **A node of a network runs by itself.** -/
theorem run_node (h : M.net.Run G tr s) (n : ν) :
    (M.node n).Run (fun _ _ => True) (acts n tr) (s.nodes n) := by
  refine h.project (N := M.node n) _ (fun s => s.nodes n) rfl fun s d s' hstep => ?_
  cases hstep with
  | @turn m a out rest s' _ hturn =>
    by_cases hm : m = n
    · subst hm
      refine Or.inr ⟨a, if_pos rfl, out, ?_⟩
      show M.turn m (s.nodes m) a out (Function.update s.nodes m s' m)
      rw [Function.update_self]
      exact hturn
    · exact Or.inl ⟨if_neg hm, Function.update_of_ne (Ne.symm hm) ..⟩

/-- **Nothing is lost and nothing comes twice.** -/
theorem run_flight (h : M.net.Run G tr s) : M.taken tr + s.flight = sent tr := by
  refine h.invariant_trace (fun tr s => M.taken tr + s.flight = sent tr) rfl ?_
  intro tr s d s' ih _ hstep
  cases hstep with
  | @turn n a out rest s' hflight _ =>
    rw [taken_snoc, sent_snoc, ← ih, hflight]
    show M.taken tr + M.takes n a + (out + rest) = M.taken tr + (M.takes n a + rest) + out
    ac_rfl

/-- What is taken was sent. -/
theorem mem_sent_of_take (h : M.net.Run G tr s) {n : ν} {a : α} (ha : a ∈ acts n tr) {p : π}
    (hp : p ∈ M.takes n a) : p ∈ sent tr := by
  obtain ⟨out, hd⟩ := mem_acts.mp ha
  rw [← run_flight h, Multiset.mem_add]
  exact Or.inl (mem_sum_map.mpr ⟨_, hd, hp⟩)

/-- Of any kind of message, no more are taken than were sent. -/
theorem countP_taken_le (h : M.net.Run G tr s) (p : π → Prop) [DecidablePred p] :
    (M.taken tr).countP p ≤ (sent tr).countP p := by
  rw [← run_flight h, Multiset.countP_add]
  exact Nat.le_add_right ..

/-! ## Evaluation -/

section Evaluation

variable {κ : Type} [DecidableEq π] {eval : ν → σ → κ → Option (α × Multiset π × σ)}

/-- A turn of one of the nodes, where a function says what it does, if the messages that
it takes are on their way. -/
def evalTurn (M : Messaging ν σ α π) (eval : ν → σ → κ → Option (α × Multiset π × σ))
    (s : Net ν σ π) (x : ν × κ) : Option (Did ν α π × Net ν σ π) :=
  (eval x.1 (s.nodes x.1) x.2).bind fun r =>
    if M.takes x.1 r.1 ≤ s.flight then
      some (⟨x.1, r.1, r.2.1⟩,
        ⟨Function.update s.nodes x.1 r.2.2, r.2.1 + (s.flight - M.takes x.1 r.1)⟩)
    else none

theorem evalTurn_step
    (heval : ∀ n s k a out s', eval n s k = some (a, out, s') → M.turn n s a out s')
    {x : ν × κ} {d : Did ν α π} {s' : Net ν σ π} (h : evalTurn M eval s x = some (d, s')) :
    M.net.step s d s' := by
  obtain ⟨⟨a, out, r⟩, hr, h⟩ := Option.bind_eq_some_iff.mp h
  split at h
  · rename_i hle
    obtain ⟨rfl, rfl⟩ := Prod.mk.inj (Option.some.inj h)
    exact .turn (add_tsub_cancel_of_le hle).symm (heval x.1 _ x.2 a out r hr)
  · exact absurd h (by simp)

end Evaluation

end Messaging

end Copycat.Lib
