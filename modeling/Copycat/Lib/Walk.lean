import Mathlib

/-!
# Walks over successor lists

A graph given by the list of successors of each point, as worklist loops see
it. `Reach` is reachability; `Reach.detour` says what a change at one point
does to it. The loops that walk such a graph need not remember where they have
been to end: when a measure falls along every edge, `reached` finds what can be
reached, each point has a weight larger than the weights of its successors
together (`exists_weight`), and the weight of a frontier falls with every point
taken off it (`drain_lt`).
-/

namespace Copycat.Lib

variable {α : Type} {succ succ' : α → List α}

/-- `b` can be reached from `a`. -/
def Reach (succ : α → List α) : α → α → Prop :=
  Relation.ReflTransGen fun a b => b ∈ succ a

namespace Reach

theorem refl (a : α) : Reach succ a a :=
  Relation.ReflTransGen.refl

theorem tail {a b c : α} (h : Reach succ a b) (hc : c ∈ succ b) : Reach succ a c :=
  Relation.ReflTransGen.tail h hc

theorem head {a b c : α} (hb : b ∈ succ a) (h : Reach succ b c) : Reach succ a c :=
  Relation.ReflTransGen.head hb h

theorem mono (hsub : ∀ a, ∀ b ∈ succ a, b ∈ succ' a) {a b : α} (h : Reach succ a b) :
    Reach succ' a b :=
  Relation.ReflTransGen.mono (fun a b hb => hsub a b hb) _ _ h

/-- The first edge of a walk. -/
theorem head_cases {a b : α} (h : Reach succ a b) :
    a = b ∨ ∃ c ∈ succ a, Reach succ c b := by
  rcases Relation.ReflTransGen.cases_head h with rfl | ⟨c, hc, h'⟩
  · exact Or.inl rfl
  · exact Or.inr ⟨c, hc, h'⟩

/-- A measure that falls along edges falls along walks. -/
theorem measure_le {m : α → Nat} (hm : ∀ a, ∀ b ∈ succ a, m b < m a) {a b : α}
    (h : Reach succ a b) : m b ≤ m a := by
  induction h with
  | refl => exact Nat.le_refl _
  | tail _ hc ih => exact Nat.le_trans (Nat.le_of_lt (hm _ _ hc)) ih

/-- Where the edges are the same off one point, a walk stays or comes through
that point. -/
theorem detour {h : α} (hoff : ∀ a, a ≠ h → ∀ b ∈ succ a, b ∈ succ' a) {a b : α}
    (hab : Reach succ a b) : Reach succ' a b ∨ (Reach succ' a h ∧ Reach succ h b) := by
  induction hab with
  | refl => exact Or.inl (refl a)
  | @tail b c hab hc ih =>
    rcases ih with ih | ⟨hah, hhb⟩
    · by_cases hb : b = h
      · subst hb
        exact Or.inr ⟨ih, (refl b).tail hc⟩
      · exact Or.inl (ih.tail (hoff b hb c hc))
    · exact Or.inr ⟨hah, hhb.tail hc⟩

end Reach

/-- The points that walks of length at most `n` lead to. -/
def reached (succ : α → List α) : Nat → α → List α
  | 0, a => [a]
  | n + 1, a => a :: (succ a).flatMap (reached succ n)

theorem reach_of_mem_reached : ∀ {n : Nat} {a b : α}, b ∈ reached succ n a → Reach succ a b := by
  intro n
  induction n with
  | zero =>
    intro a b h
    rw [List.mem_singleton.mp h]
    exact Reach.refl a
  | succ n ih =>
    intro a b h
    rcases List.mem_cons.mp h with rfl | h
    · exact Reach.refl b
    · obtain ⟨c, hc, hb⟩ := List.mem_flatMap.mp h
      exact Reach.head hc (ih hb)

/-- Where a measure falls along edges, walks of bounded length lead
everywhere. -/
theorem Reach.mem_reached {m : α → Nat} (hm : ∀ a, ∀ b ∈ succ a, m b < m a) :
    ∀ {n : Nat} {a b : α}, m a ≤ n → Reach succ a b → b ∈ reached succ n a := by
  intro n
  induction n with
  | zero =>
    intro a b hle h
    rcases h.head_cases with rfl | ⟨c, hc, -⟩
    · exact List.mem_singleton_self a
    · have := hm a c hc
      exact absurd hle (by omega)
  | succ n ih =>
    intro a b hle h
    rcases h.head_cases with rfl | ⟨c, hc, hcb⟩
    · exact List.mem_cons_self
    · have hlt := hm a c hc
      refine List.mem_cons_of_mem _ (List.mem_flatMap.mpr ⟨c, hc, ih ?_ hcb⟩)
      omega

/-! ## Weights -/

/-- The number of walks of length at most `n` that start in a point. -/
def walks (succ : α → List α) : Nat → α → Nat
  | 0, _ => 1
  | n + 1, a => 1 + ((succ a).map (walks succ n)).sum

theorem walks_stable {m : α → Nat} (hm : ∀ a, ∀ b ∈ succ a, m b < m a) :
    ∀ {n n' : Nat} {a : α}, m a < n → m a < n' → walks succ n a = walks succ n' a := by
  intro n
  induction n with
  | zero => intro n' a h _; exact absurd h (Nat.not_lt_zero _)
  | succ n ih =>
    intro n' a h h'
    cases n' with
    | zero => exact absurd h' (Nat.not_lt_zero _)
    | succ n' =>
      unfold walks
      have hmap : (succ a).map (walks succ n) = (succ a).map (walks succ n') := by
        apply List.map_congr_left
        intro b hb
        have := hm a b hb
        exact ih (by omega) (by omega)
      rw [hmap]

/-- Every point can be given more weight than its successors have together. -/
theorem exists_weight {m : α → Nat} (hm : ∀ a, ∀ b ∈ succ a, m b < m a) :
    ∃ w : α → Nat, ∀ a, ((succ a).map w).sum < w a := by
  refine ⟨fun a => walks succ (m a + 1) a, fun a => ?_⟩
  have hmap : (succ a).map (fun b => walks succ (m b + 1) b) = (succ a).map (walks succ (m a)) := by
    apply List.map_congr_left
    intro b hb
    exact walks_stable hm (Nat.lt_succ_self _) (hm a b hb)
  show ((succ a).map fun b => walks succ (m b + 1) b).sum < walks succ (m a + 1) a
  rw [hmap, walks]
  omega

/-- Taking a point off the frontier and putting its successors on makes the
frontier lighter. -/
theorem drain_lt {w : α → Nat} (hw : ∀ a, ((succ a).map w).sum < w a) (a : α) (rest : List α) :
    ((rest ++ succ a).map w).sum < ((a :: rest).map w).sum := by
  rw [List.map_append, List.sum_append, List.map_cons, List.sum_cons]
  have := hw a
  omega

end Copycat.Lib
