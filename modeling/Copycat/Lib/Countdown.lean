import Mathlib.Data.Finset.Card
import Mathlib.Data.Set.Insert

/-!
# Counting down to the turn of a node

Nodes wait for their turn, each behind those of its parents that were waiting
when it came, with a counter that is meant to say how many these are. A node
whose turn it is (`take`) leaves, and the counters of those it held back go
down by one.

`Sound` counters never say too little: then a counter at zero means that nothing
holds the node back, and no counter goes below zero (`Sound.count_pos`). They
may say too much, and a node with such a counter is never reached. `Exact`
counters say what they should; with them, and with every node that is not held
back among the `ready` ones, an empty ready list means that nobody waits
(`Live.drained`).
-/

namespace Copycat.Lib

variable {κ : Type}

/-- The nodes that wait, who holds back whom, and the counters. -/
structure Countdown (κ : Type) where
  waiting : Set κ
  holds : κ → κ → Prop
  count : κ → Nat

namespace Countdown

/-- Two countdowns are equal if they are so entry by entry. -/
theorem eq_of_iff {s s' : Countdown κ} (hwaiting : ∀ x, x ∈ s.waiting ↔ x ∈ s'.waiting)
    (hholds : ∀ p x, s.holds p x ↔ s'.holds p x) (hcount : ∀ x, s.count x = s'.count x) :
    s = s' := by
  obtain ⟨w, h, c⟩ := s
  obtain ⟨w', h', c'⟩ := s'
  congr 1
  · exact Set.ext hwaiting
  · exact funext fun p => funext fun x => propext (hholds p x)
  · exact funext hcount

/-- Nothing holds the node back. -/
def Free (s : Countdown κ) (x : κ) : Prop := ∀ p, ¬ s.holds p x

open Classical

/-- A new node, behind its waiting parents. -/
noncomputable def add (s : Countdown κ) (x : κ) (parents : List κ) (n : Nat) : Countdown κ where
  waiting := insert x s.waiting
  holds p y := s.holds p y ∨ (y = x ∧ p ∈ parents ∧ p ∈ s.waiting)
  count y := if y = x then n else s.count y

/-- A node leaves. -/
noncomputable def take (s : Countdown κ) (x : κ) : Countdown κ where
  waiting := fun y => y ≠ x ∧ y ∈ s.waiting
  holds p y := p ≠ x ∧ s.holds p y
  count y := if y = x then 0 else if s.holds x y then s.count y - 1 else s.count y

theorem count_add_self (s : Countdown κ) (x : κ) (parents : List κ) (n : Nat) :
    (s.add x parents n).count x = n := if_pos rfl

theorem count_add_of_ne (s : Countdown κ) {x y : κ} (h : y ≠ x) (parents : List κ) (n : Nat) :
    (s.add x parents n).count y = s.count y := if_neg h

theorem count_take_self (s : Countdown κ) (x : κ) : (s.take x).count x = 0 := if_pos rfl

theorem count_take_of_holds {s : Countdown κ} {x y : κ} (hne : y ≠ x) (h : s.holds x y) :
    (s.take x).count y = s.count y - 1 := (if_neg hne).trans (if_pos h)

theorem count_take_of_not_holds {s : Countdown κ} {x y : κ} (hne : y ≠ x) (h : ¬ s.holds x y) :
    (s.take x).count y = s.count y := (if_neg hne).trans (if_neg h)

/-- Only waiting nodes hold back waiting nodes, and a counter says at least how
many hold its node back. -/
structure Sound (s : Countdown κ) : Prop where
  ends : ∀ p y, s.holds p y → p ∈ s.waiting ∧ y ∈ s.waiting
  bound : ∀ y ∈ s.waiting, ∀ F : Finset κ, (∀ p ∈ F, s.holds p y) → F.card ≤ s.count y

/-- Who is held back has a counter above zero, so no counter goes below it. -/
theorem Sound.count_pos {s : Countdown κ} (h : s.Sound) {p y : κ} (hp : s.holds p y) :
    0 < s.count y := by
  have := h.bound y (h.ends p y hp).2 {p} fun q hq => Finset.mem_singleton.mp hq ▸ hp
  rwa [Finset.card_singleton] at this

/-- At zero there is nothing left to wait for. -/
theorem Sound.free {s : Countdown κ} (h : s.Sound) {y : κ} (hy : s.count y = 0) : s.Free y := by
  intro p hp
  have := h.count_pos hp
  omega

/-- A new node comes with a counter no smaller than the number of its waiting
parents. -/
theorem Sound.add {s : Countdown κ} (h : s.Sound) {x : κ} (hx : x ∉ s.waiting)
    {parents : List κ} {n : Nat}
    (hn : ∀ F : Finset κ, (∀ p ∈ F, p ∈ parents ∧ p ∈ s.waiting) → F.card ≤ n) :
    (s.add x parents n).Sound where
  ends p y hp := by
    rcases hp with hp | ⟨rfl, -, hp⟩
    · exact ⟨Set.mem_insert_of_mem x (h.ends p y hp).1, Set.mem_insert_of_mem x (h.ends p y hp).2⟩
    · exact ⟨Set.mem_insert_of_mem _ hp, Set.mem_insert _ _⟩
  bound y hy F hF := by
    by_cases hyx : y = x
    · rw [hyx, count_add_self]
      refine hn F fun p hp => ?_
      rcases hF p hp with hold | ⟨-, hnew⟩
      · exact absurd (h.ends p y hold).2 (hyx ▸ hx)
      · exact hnew
    · rw [count_add_of_ne s hyx]
      refine h.bound y (hy.resolve_left hyx) F fun p hp => ?_
      rcases hF p hp with hold | ⟨hyx', -⟩
      · exact hold
      · exact absurd hyx' hyx

/-- Taking a free node lowers the counters of exactly those it holds, once each. -/
theorem Sound.take {s : Countdown κ} (h : s.Sound) {x : κ} (hfree : s.Free x) :
    (s.take x).Sound where
  ends p y hp := by
    have hends := h.ends p y hp.2
    have hyx : y ≠ x := fun e => hfree p (e ▸ hp.2)
    exact ⟨⟨hp.1, hends.1⟩, hyx, hends.2⟩
  bound y hy F hF := by
    have hxF : x ∉ F := fun hx => (hF x hx).1 rfl
    by_cases hxy : s.holds x y
    · rw [count_take_of_holds hy.1 hxy]
      have := h.bound y hy.2 (insert x F) fun p hp => by
        rcases Finset.mem_insert.mp hp with rfl | hp
        · exact hxy
        · exact (hF p hp).2
      rw [Finset.card_insert_of_notMem hxF] at this
      omega
    · rw [count_take_of_not_holds hy.1 hxy]
      exact h.bound y hy.2 F fun p hp => (hF p hp).2

/-- Adding a node frees none and holds none back but itself. -/
theorem Free.add {s : Countdown κ} {x y : κ} (hy : s.Free y) (hne : y ≠ x) (parents : List κ)
    (n : Nat) : (s.add x parents n).Free y := by
  intro p hp
  rcases hp with hp | ⟨hyx, -⟩
  · exact hy p hp
  · exact hne hyx

/-- A new node is free when none of its parents waits. -/
theorem free_add_self {s : Countdown κ} (h : s.Sound) {x : κ} (hx : x ∉ s.waiting)
    {parents : List κ} (hparents : ∀ p ∈ parents, p ∉ s.waiting) (n : Nat) :
    (s.add x parents n).Free x := by
  intro p hp
  rcases hp with hp | ⟨-, hmem, hw⟩
  · exact hx (h.ends p x hp).2
  · exact hparents p hmem hw

/-- A node that leaves holds nobody back any more. -/
theorem Free.take {s : Countdown κ} {x y : κ} (hy : s.Free y) : (s.take x).Free y :=
  fun p hp => hy p hp.2

/-! ## Counters that are right -/

/-- The counter says how many hold the node back. -/
def Exact (s : Countdown κ) (y : κ) : Prop :=
  ∃ F : Finset κ, (∀ p, p ∈ F ↔ s.holds p y) ∧ F.card = s.count y

/-- Every waiting node is ready, or its counter is right and above zero. -/
def Live (s : Countdown κ) (ready : List κ) : Prop :=
  ∀ y ∈ s.waiting, y ∈ ready ∨ (s.Exact y ∧ ¬ s.Free y)

/-- More nodes may be ready than have to be. -/
theorem Live.mono {s : Countdown κ} {ready ready' : List κ} (h : s.Live ready)
    (hsub : ∀ x ∈ s.waiting, x ∈ ready → x ∈ ready') : s.Live ready' := by
  intro y hy
  rcases h y hy with hr | hr
  · exact Or.inl (hsub y hy hr)
  · exact Or.inr hr

/-- With nobody ready, nobody waits: the one of least rank is not held back. -/
theorem Live.drained {s : Countdown κ} (h : s.Live []) (hs : s.Sound) (rank : κ → Nat)
    (hrank : ∀ p y, s.holds p y → rank p < rank y) (x : κ) : x ∉ s.waiting := by
  induction hr : rank x using Nat.strong_induction_on generalizing x with
  | _ r ih =>
    intro hx
    rcases h x hx with hready | ⟨-, hheld⟩
    · exact absurd hready (by simp)
    · refine hheld fun p hp => ?_
      exact ih (rank p) (hr ▸ hrank p x hp) p rfl (hs.ends p x hp).1

/-- A new node holds nobody yet, so the other counters stay right. -/
theorem Exact.add {s : Countdown κ} {x y : κ} (h : s.Exact y) (hne : y ≠ x) (parents : List κ)
    (n : Nat) : (s.add x parents n).Exact y := by
  obtain ⟨F, hF, hcard⟩ := h
  refine ⟨F, fun p => ?_, ?_⟩
  · rw [hF]
    constructor
    · exact Or.inl
    · intro hp
      rcases hp with hp | ⟨hyx, -⟩
      · exact hp
      · exact absurd hyx hne
  · rw [hcard, count_add_of_ne s hne]

/-- A new node whose counter is the number of its waiting parents starts right. -/
theorem exact_add_self {s : Countdown κ} (hs : s.Sound) {x : κ} (hx : x ∉ s.waiting)
    {parents : List κ} {F : Finset κ} (hF : ∀ p, p ∈ F ↔ p ∈ parents ∧ p ∈ s.waiting) :
    (s.add x parents F.card).Exact x := by
  refine ⟨F, fun p => ?_, (count_add_self ..).symm⟩
  rw [hF]
  constructor
  · exact fun hp => Or.inr ⟨rfl, hp⟩
  · intro hp
    rcases hp with hp | ⟨-, hp⟩
    · exact absurd (hs.ends p x hp).2 hx
    · exact hp

/-- A new node is ready, or its counter is right and above zero. -/
theorem Live.add {s : Countdown κ} {x : κ} {parents : List κ} {n : Nat} {ready ready' : List κ}
    (h : s.Live ready) (hsub : ∀ y ∈ ready, y ∈ ready')
    (hnew : x ∈ ready' ∨ ((s.add x parents n).Exact x ∧ ¬ (s.add x parents n).Free x)) :
    (s.add x parents n).Live ready' := by
  intro y hy
  by_cases hyx : y = x
  · rw [hyx]
    exact hnew
  · rcases h y (hy.resolve_left hyx) with hr | ⟨hexact, hheld⟩
    · exact Or.inl (hsub y hr)
    · exact Or.inr ⟨hexact.add hyx parents n, fun hfree => hheld fun p hp => hfree p (Or.inl hp)⟩

/-- Taking a node lowers the counters as it lowers the numbers they stand for. -/
theorem Exact.take {s : Countdown κ} {x y : κ} (h : s.Exact y) (hne : y ≠ x) :
    (s.take x).Exact y := by
  obtain ⟨F, hF, hcard⟩ := h
  refine ⟨F.erase x, fun p => ?_, ?_⟩
  · rw [Finset.mem_erase, hF]
    rfl
  · by_cases hxy : s.holds x y
    · rw [count_take_of_holds hne hxy,
        Finset.card_erase_of_mem ((hF x).mpr hxy), hcard]
    · rw [count_take_of_not_holds hne hxy,
        Finset.erase_eq_of_notMem fun hx => hxy ((hF x).mp hx), hcard]

/-- Taking a node: who has counted down to zero is ready now. -/
theorem Live.take {s : Countdown κ} {x : κ} {ready ready' : List κ} (h : s.Live ready)
    (hsub : ∀ y ∈ ready, y ≠ x → y ∈ ready')
    (hnew : ∀ y ∈ s.waiting, s.holds x y → s.count y - 1 = 0 → y ∈ ready') :
    (s.take x).Live ready' := by
  intro y hy
  rcases h y hy.2 with hr | ⟨hexact, hheld⟩
  · exact Or.inl (hsub y hr hy.1)
  · by_cases hfree : (s.take x).Free y
    · left
      -- only `x` held it back, so its counter was one
      have hxy : s.holds x y := by
        by_contra hno
        exact hheld fun p hp => hfree p ⟨fun e => hno (e ▸ hp), hp⟩
      refine hnew y hy.2 hxy ?_
      obtain ⟨F, hF, hcard⟩ := hexact.take hy.1
      have hempty : F = ∅ := Finset.eq_empty_of_forall_notMem fun p hp => hfree p ((hF p).mp hp)
      rw [hempty, Finset.card_empty] at hcard
      rw [count_take_of_holds hy.1 hxy] at hcard
      exact hcard.symm
    · exact Or.inr ⟨hexact.take hy.1, hfree⟩

end Countdown

end Copycat.Lib
