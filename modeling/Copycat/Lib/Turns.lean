import Mathlib.Algebra.Order.BigOperators.Group.List
import Mathlib.Algebra.Order.Ring.Nat
import Mathlib.Data.List.Range
import Mathlib.Data.Nat.ModEq
import Mathlib.Tactic.Common

/-!
# A queue taken in turns

A queue of `n` places is worked off from the front: what stands there leaves,
or goes to the back and waits for its next turn. Turn `τ` is the turn of place
`τ % n`; a turn whose place has left is passed over. `due` is the queue before
a turn, as the list of the turns its places come next, and the rules say what a
turn does to it: `due_passed`, `due_leaves` and `due_waits`. Every place has a turn in every round
(`exists_turn`).

When a place leaves is said by a table over all turns at once. A table whose
entries ask only about earlier turns exists (`exists_table`).
-/

namespace Copycat.Lib

/-- Before turn `τ`, the place of turn `σ` has not left. -/
def Waits (n : Nat) (leaves : Nat → Bool) (τ σ : Nat) : Prop :=
  ∀ τ' < τ, leaves τ' = true → τ' % n ≠ σ % n

instance (n : Nat) (leaves : Nat → Bool) (τ σ : Nat) : Decidable (Waits n leaves τ σ) :=
  inferInstanceAs (Decidable (∀ τ', τ' < τ → leaves τ' = true → τ' % n ≠ σ % n))

/-- The queue before turn `τ`: the next turn of each place still in it. -/
def due (n : Nat) (leaves : Nat → Bool) (τ : Nat) : List Nat :=
  (List.range' τ n).filter fun σ => Waits n leaves τ σ

/-- An entry that asks only about earlier entries can be filled in. -/
theorem exists_table (P : Nat → (Nat → Bool) → Prop)
    (hP : ∀ τ f g, (∀ i < τ, f i = g i) → P τ f → P τ g) :
    ∃ f : Nat → Bool, ∀ τ, f τ = true ↔ P τ f := by
  classical
  let F : (τ : Nat) → ((i : Nat) → i < τ → Bool) → Bool := fun τ before =>
    decide (P τ fun i => if h : i < τ then before i h else false)
  refine ⟨WellFounded.fix (C := fun _ => Bool) Nat.lt_wfRel.wf F, fun τ => ?_⟩
  have hagree : ∀ i < τ, WellFounded.fix (C := fun _ => Bool) Nat.lt_wfRel.wf F i =
      if _ : i < τ then WellFounded.fix (C := fun _ => Bool) Nat.lt_wfRel.wf F i else false :=
    fun i hi => by rw [dif_pos hi]
  rw [WellFounded.fix_eq]
  show decide (P τ _) = true ↔ _
  rw [decide_eq_true_iff]
  exact ⟨hP τ _ _ fun i hi => (hagree i hi).symm, hP τ _ _ hagree⟩

section Due

variable {n : Nat} {leaves : Nat → Bool} {τ σ : Nat}

theorem mem_due : σ ∈ due n leaves τ ↔ (τ ≤ σ ∧ σ < τ + n) ∧ Waits n leaves τ σ := by
  rw [due, List.mem_filter, List.mem_range'_1, decide_eq_true_iff]

/-- Before the first turn everything is in the queue. -/
theorem due_zero : due n leaves 0 = List.range n := by
  rw [due, List.range_eq_range']
  exact List.filter_eq_self.mpr fun σ _ => decide_eq_true fun τ' h => absurd h (by omega)

/-- The turns of one round are of different places. -/
theorem mod_ne_of_round (h : τ < σ) (h' : σ < τ + n) : τ % n ≠ σ % n := by
  intro he
  have hd : n ∣ σ - τ := (Nat.modEq_iff_dvd' h.le).mp he
  have := Nat.le_of_dvd (by omega) hd
  omega

/-- The rest of the round is not touched by the turn. -/
theorem waits_succ (h : τ < σ) (h' : σ < τ + n) :
    Waits n leaves (τ + 1) σ ↔ Waits n leaves τ σ := by
  refine ⟨fun hw τ' hτ => hw τ' (by omega), fun hw τ' hτ hl => ?_⟩
  rcases Nat.lt_succ_iff_lt_or_eq.mp hτ with hlt | he
  · exact hw τ' hlt hl
  · rw [he]
    exact mod_ne_of_round h h'

/-- The queue before a turn and after it have the rest of the round in common. -/
theorem due_round (leaves : Nat → Bool) (τ : Nat) (hn : 0 < n) :
    ∃ rest, due n leaves τ = (if Waits n leaves τ τ then τ :: rest else rest) ∧
      due n leaves (τ + 1) =
        (if Waits n leaves (τ + 1) τ then rest ++ [τ + n] else rest) := by
  obtain ⟨m, rfl⟩ : ∃ m, n = m + 1 := ⟨n - 1, by omega⟩
  refine ⟨(List.range' (τ + 1) m).filter fun σ => Waits (m + 1) leaves τ σ, ?_, ?_⟩
  · rw [due, List.range'_succ, List.filter_cons]
    by_cases h : Waits (m + 1) leaves τ τ
    · rw [if_pos (decide_eq_true h), if_pos h]
    · rw [if_neg (fun he => h (of_decide_eq_true he)), if_neg h]
  · have hrest : ((List.range' (τ + 1) m).filter fun σ => Waits (m + 1) leaves (τ + 1) σ) =
        (List.range' (τ + 1) m).filter fun σ => Waits (m + 1) leaves τ σ := by
      refine List.filter_congr fun σ hσ => ?_
      obtain ⟨hlo, hhi⟩ := List.mem_range'_1.mp hσ
      rw [decide_eq_decide]
      exact waits_succ (by omega) (by omega)
    have hlast : Waits (m + 1) leaves (τ + 1) (τ + (m + 1)) ↔
        Waits (m + 1) leaves (τ + 1) τ := by
      unfold Waits
      rw [Nat.add_mod_right]
    rw [due, List.range'_1_concat, List.filter_append, hrest,
      show τ + 1 + m = τ + (m + 1) by omega, List.filter_singleton]
    by_cases h : Waits (m + 1) leaves (τ + 1) τ
    · rw [if_pos h, decide_eq_true (hlast.mpr h)]
      rfl
    · rw [if_neg h, decide_eq_false (fun hw => h (hlast.mp hw))]
      exact List.append_nil _

/-- A place that has left has no turn. -/
theorem due_passed (hn : 0 < n) (h : ¬ Waits n leaves τ τ) :
    due n leaves (τ + 1) = due n leaves τ := by
  obtain ⟨rest, hnow, hnext⟩ := due_round leaves τ hn
  rw [hnow, hnext, if_neg h, if_neg fun hw => h fun τ' hτ => hw τ' (by omega)]

/-- A place that leaves at its turn was at the front. -/
theorem due_leaves (hn : 0 < n) (h : Waits n leaves τ τ) (hl : leaves τ = true) :
    due n leaves τ = τ :: due n leaves (τ + 1) := by
  obtain ⟨rest, hnow, hnext⟩ := due_round leaves τ hn
  rw [hnow, hnext, if_pos h, if_neg fun hw => hw τ (Nat.lt_succ_self τ) hl rfl]

/-- A place that does not leave at its turn goes to the back. -/
theorem due_waits (hn : 0 < n) (h : Waits n leaves τ τ) (hl : leaves τ = false) :
    ∃ rest, due n leaves τ = τ :: rest ∧ due n leaves (τ + 1) = rest ++ [τ + n] := by
  obtain ⟨rest, hnow, hnext⟩ := due_round leaves τ hn
  refine ⟨rest, by rw [hnow, if_pos h], ?_⟩
  rw [hnext, if_pos]
  intro τ' hτ hl'
  rcases Nat.lt_succ_iff_lt_or_eq.mp hτ with hlt | he
  · exact h τ' hlt hl'
  · rw [he, hl] at hl'
    exact absurd hl' (by simp)

/-- Every place has a turn in the round that starts at `τ`. -/
theorem exists_turn {i : Nat} (hi : i < n) (τ : Nat) :
    ∃ σ, (τ ≤ σ ∧ σ < τ + n) ∧ σ % n = i := by
  have hlt := Nat.mod_lt (i + n - τ % n) (by omega : 0 < n)
  refine ⟨τ + (i + n - τ % n) % n, by omega, ?_⟩
  rw [Nat.add_mod_mod, show τ + (i + n - τ % n) = i + n * (τ / n + 1) by
    have := Nat.mod_add_div τ n
    have := Nat.mod_lt τ (by omega : 0 < n)
    rw [Nat.mul_add, Nat.mul_one]
    omega, Nat.add_mul_mod_self_left, Nat.mod_eq_of_lt hi]

/-- The queue is empty from some turn on exactly when every place leaves. -/
theorem exists_due_nil :
    (∃ τ, due n leaves τ = []) ↔ ∀ i < n, ∃ τ, leaves τ = true ∧ τ % n = i := by
  refine ⟨fun ⟨τ, hnil⟩ i hi => ?_, fun hall => ?_⟩
  · obtain ⟨σ, hround, hmod⟩ := exists_turn hi τ
    have hnot : ¬ Waits n leaves τ σ := fun hw => by
      have hmem : σ ∈ due n leaves τ := mem_due.mpr ⟨hround, hw⟩
      rw [hnil] at hmem
      exact absurd hmem (by simp)
    simp only [Waits, not_forall, not_not] at hnot
    obtain ⟨τ', _, hl, he⟩ := hnot
    exact ⟨τ', hl, he.trans hmod⟩
  · choose turn hturn using hall
    let last := (List.range n).attach.map fun i => turn i.1 (List.mem_range.mp i.2)
    refine ⟨last.sum + 1, List.eq_nil_iff_forall_not_mem.mpr fun σ hσ => ?_⟩
    obtain ⟨hbound, hw⟩ := mem_due.mp hσ
    have hi : σ % n < n := Nat.mod_lt _ (by omega)
    have hle : turn (σ % n) hi ≤ last.sum :=
      List.le_sum_of_mem
        (List.mem_map.mpr ⟨⟨σ % n, List.mem_range.mpr hi⟩, List.mem_attach .., rfl⟩)
    exact hw _ (Nat.lt_succ_of_le hle) (hturn _ hi).1 (hturn _ hi).2

/-- While something is in the queue there is a next turn, and what the turns
passed over preserve still holds at it. -/
theorem exists_next_turn {P : Nat → Prop}
    (hpass : ∀ σ, ¬ Waits n leaves σ σ → P σ → P (σ + 1)) (hτ : P τ)
    (hne : due n leaves τ ≠ []) : ∃ σ, τ ≤ σ ∧ P σ ∧ Waits n leaves σ σ := by
  obtain ⟨σ, hσ⟩ := List.exists_mem_of_ne_nil _ hne
  obtain ⟨⟨hle, hlt⟩, hw⟩ := mem_due.mp hσ
  -- on how far ahead that turn is
  obtain ⟨d, rfl⟩ := Nat.exists_eq_add_of_le hle
  clear hne hσ hle
  induction d generalizing τ with
  | zero => exact ⟨τ, le_refl τ, hτ, hw⟩
  | succ d ih =>
    by_cases hnow : Waits n leaves τ τ
    · exact ⟨τ, le_refl τ, hτ, hnow⟩
    · have hstep : τ + 1 + d = τ + (d + 1) := by omega
      obtain ⟨σ, hle, hσ⟩ := ih (hpass τ hnow hτ)
        (by rw [hstep]; exact (waits_succ (by omega) hlt).mpr hw) (by omega)
      exact ⟨σ, by omega, hσ⟩

end Due

end Copycat.Lib
