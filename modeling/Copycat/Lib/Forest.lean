import Mathlib.Data.Set.Card
import Mathlib.Logic.Relation
import Mathlib.Order.CompletePartialOrder

/-!
# Forests given by a parent-to-child relation

A relation `E` in which every node has at most one parent and which climbs
along some rank is a forest. `Desc E x d z` says that `z` lies `d` edges below
`x`. The facts a recursion over such a forest needs are all here: the way up
is unique (`Desc.up`), so two children of one node have disjoint subtrees
(`IsForest.disjoint`).
-/

namespace Copycat.Lib

variable {α : Type} {E E' : α → α → Prop} {rank : α → Nat}

/-- `z` lies `d` edges below `x`. -/
inductive Desc (E : α → α → Prop) : α → Nat → α → Prop
  | refl (x : α) : Desc E x 0 x
  | step {x y z : α} {d : Nat} : E x y → Desc E y d z → Desc E x (d + 1) z

/-- At most one parent each, and no cycles. -/
structure IsForest (E : α → α → Prop) (rank : α → Nat) : Prop where
  parent : ∀ x y z, E x z → E y z → x = y
  climb : ∀ x y, E x y → rank x < rank y

theorem Desc.zero_iff {x z : α} : Desc E x 0 z ↔ x = z := by
  constructor
  · intro h
    cases h
    rfl
  · rintro rfl
    exact .refl x

theorem Desc.succ_iff {x z : α} {d : Nat} :
    Desc E x (d + 1) z ↔ ∃ y, E x y ∧ Desc E y d z := by
  constructor
  · intro h
    cases h with
    | step he hd => exact ⟨_, he, hd⟩
  · rintro ⟨y, he, hd⟩
    exact .step he hd

/-- One step further down. -/
theorem Desc.snoc {x y z : α} {d : Nat} (h : Desc E x d y) (he : E y z) : Desc E x (d + 1) z := by
  induction h with
  | refl x => exact .step he (.refl z)
  | step hxy _ ih => exact .step hxy (ih he)

/-- The last step of a descent. -/
theorem Desc.snoc_inv {x z : α} {d : Nat} (h : Desc E x (d + 1) z) :
    ∃ y, Desc E x d y ∧ E y z := by
  induction d generalizing x with
  | zero =>
    obtain ⟨y, he, hd⟩ := Desc.succ_iff.mp h
    obtain rfl := Desc.zero_iff.mp hd
    exact ⟨x, .refl x, he⟩
  | succ d ih =>
    obtain ⟨y, he, hd⟩ := Desc.succ_iff.mp h
    obtain ⟨w, hw, hwz⟩ := ih hd
    exact ⟨w, .step he hw, hwz⟩

/-- Every step down raises the rank. -/
theorem Desc.rank_le (hF : IsForest E rank) {x z : α} {d : Nat} (h : Desc E x d z) :
    rank x + d ≤ rank z := by
  induction h with
  | refl x => exact Nat.le_refl _
  | step he _ ih =>
    have := hF.climb _ _ he
    omega

/-- The way up is unique: of two nodes above `z`, the higher one is above the
lower one. -/
theorem Desc.up (hF : IsForest E rank) {x y z : α} {d e : Nat} (hx : Desc E x d z)
    (hy : Desc E y e z) (hde : d ≤ e) : Desc E y (e - d) x := by
  induction d generalizing z e with
  | zero =>
    obtain rfl := Desc.zero_iff.mp hx
    exact hy
  | succ d ih =>
    obtain ⟨e, rfl⟩ : ∃ e', e = e' + 1 := ⟨e - 1, by omega⟩
    obtain ⟨p, hp, hpz⟩ := hx.snoc_inv
    obtain ⟨q, hq, hqz⟩ := hy.snoc_inv
    obtain rfl := hF.parent _ _ _ hpz hqz
    have := ih hp hq (by omega)
    rwa [show e + 1 - (d + 1) = e - d by omega]

/-- What is below two siblings is apart: going up from a common descendant leads
to one parent each time. -/
private theorem IsForest.disjoint_le (hF : IsForest E rank) {h x y z : α} {d e : Nat}
    (hx : E h x) (hy : E h y) (hne : x ≠ y) (hxz : Desc E x d z) (hyz : Desc E y e z)
    (hde : d ≤ e) : False := by
  have hyx := hxz.up hF hyz hde
  cases hk : e - d with
  | zero =>
    rw [hk] at hyx
    exact hne (Desc.zero_iff.mp hyx).symm
  | succ k =>
    -- `x` hangs below `y`, so its parent `h` does too
    rw [hk] at hyx
    obtain ⟨p, hp, hpx⟩ := hyx.snoc_inv
    obtain rfl := hF.parent _ _ _ hpx hx
    have := hp.rank_le hF
    have := hF.climb _ _ hy
    omega

/-- Two children of one node have disjoint subtrees. -/
theorem IsForest.disjoint (hF : IsForest E rank) {h x y z : α} {d e : Nat} (hx : E h x)
    (hy : E h y) (hne : x ≠ y) (hxz : Desc E x d z) (hyz : Desc E y e z) : False := by
  rcases Nat.le_total d e with h' | h'
  · exact hF.disjoint_le hx hy hne hxz hyz h'
  · exact hF.disjoint_le hy hx (Ne.symm hne) hyz hxz h'

/-! ## Without circles

A relation with finitely many parents climbs along the number of nodes above. -/

open Relation (TransGen)

/-- The nodes above `x`. -/
def Above (E : α → α → Prop) (x : α) : Set α := fun y => TransGen E y x

/-- With finitely many parents, only finitely many nodes are above any one. -/
theorem above_finite (hfin : {x | ∃ y, E x y}.Finite) (x : α) : (Above E x).Finite := by
  refine hfin.subset fun y hy => ?_
  obtain ⟨z, hyz, -⟩ := TransGen.head'_iff.mp hy
  exact ⟨z, hyz⟩

/-- Below an edge there is more above, namely the node the edge comes from. -/
theorem above_ssubset (hacyclic : ∀ x, ¬ TransGen E x x) {x y : α} (h : E x y) :
    Above E x ⊂ Above E y := by
  refine (Set.ssubset_iff_of_subset fun z hz => TransGen.tail hz h).mpr ⟨x, ?_, hacyclic x⟩
  exact TransGen.single h

/-- There is a rank along which the relation climbs, and it is bounded. -/
theorem exists_rank_of_acyclic (hfin : {x | ∃ y, E x y}.Finite)
    (hacyclic : ∀ x, ¬ TransGen E x x) :
    ∃ (rank : α → Nat) (bound : Nat),
      (∀ x y, E x y → rank x < rank y) ∧ ∀ x, rank x ≤ bound := by
  refine ⟨fun x => (Above E x).ncard, {x | ∃ y, E x y}.ncard, fun x y h => ?_, fun x => ?_⟩
  · exact Set.ncard_lt_ncard (above_ssubset hacyclic h) (above_finite hfin y)
  · refine Set.ncard_le_ncard (fun y hy => ?_) hfin
    obtain ⟨z, hyz, -⟩ := TransGen.head'_iff.mp hy
    exact ⟨z, hyz⟩

end Copycat.Lib
