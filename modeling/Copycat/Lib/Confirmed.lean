import Mathlib.Data.List.Infix

/-!
# Logs of a chain, so many places deep

A replica has a chain that may be replaced from some place on, and a log of it
that only grows: an entry goes from the chain to the log when so many others are
above it (`Confirmed.append`). Where no more than that many are replaced at a time
the log stays a beginning of the chain (`Confirmed.replace`), and replicas whose
chains part no deeper than that have logs of which one begins the other
(`Confirmed.agree`).
-/

namespace Copycat.Lib

variable {α : Type} {k k' : Nat} {log log' chain : List α}

/-- The log is a beginning of the chain, and what is in it is `k` deep. -/
structure Confirmed (k : Nat) (log chain : List α) : Prop where
  start : log <+: chain
  deep : log ≠ [] → log.length + k ≤ chain.length

theorem confirmed_nil (k : Nat) (chain : List α) : Confirmed k [] chain :=
  ⟨List.nil_prefix, fun h => absurd rfl h⟩

theorem Confirmed.append {log suf : List α} {x : α} (hk : k ≤ suf.length) :
    Confirmed k (log ++ [x]) (log ++ x :: suf) where
  start := ⟨suf, by rw [List.append_assoc, List.singleton_append]⟩
  deep _ := by
    simp only [List.length_append, List.length_cons, List.length_nil]
    omega

/-- What is confirmed is below the place where the chain parts from another. -/
theorem Confirmed.start_of_le {common rest : List α} (h : Confirmed k log (common ++ rest))
    (hk : rest.length ≤ k) : log <+: common := by
  by_cases hnil : log = []
  · exact hnil ▸ List.nil_prefix
  · have hdeep := h.deep hnil
    rw [List.length_append] at hdeep
    exact List.prefix_of_prefix_length_le h.start (List.prefix_append ..) (by omega)

/-- No more than `k` places are replaced, and the chain gets no shorter. -/
theorem Confirmed.replace {anc old new : List α} (h : Confirmed k log (anc ++ old))
    (hk : old.length ≤ k) (hlong : old.length ≤ new.length) :
    Confirmed k log (anc ++ new) where
  start := (h.start_of_le hk).trans (List.prefix_append ..)
  deep hne := by
    have hdeep := h.deep hne
    rw [List.length_append] at hdeep ⊢
    omega

/-- Two chains part no deeper than one of the logs is confirmed. -/
theorem Confirmed.agree {common rest rest' : List α} (h : Confirmed k log (common ++ rest))
    (h' : Confirmed k' log' (common ++ rest')) (hk : rest.length ≤ k ∨ rest'.length ≤ k') :
    log <+: log' ∨ log' <+: log := by
  rcases hk with hk | hk
  · have hlog := (h.start_of_le hk).trans (List.prefix_append common rest')
    exact List.prefix_or_prefix_of_prefix hlog h'.start
  · have hlog := (h'.start_of_le hk).trans (List.prefix_append common rest)
    exact List.prefix_or_prefix_of_prefix h.start hlog

end Copycat.Lib
