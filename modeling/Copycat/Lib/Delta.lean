import Mathlib.Data.Finset.Basic
import Mathlib.Data.Finset.Lattice.Lemmas
import Mathlib.Data.List.Duplicate
import Mathlib.Tactic.Tauto

/-!
# A set kept as a base plus a delta

Code that wants to know what a large set would look like after a speculative
sequence of insertions and removals does not copy the set: it keeps the base
`U` untouched and carries two small sets, the elements to `add` and the
elements to `del`. `Reps d U S` says that the pair `d` over the base `U`
stands for the set `S`.

The two side conditions of `Reps` are what makes the four update rules below
correct, and they are the only thing a caller has to keep: an added element is
never an element of the base, and never also deleted. `take` and `put` move
forward (consume an element that must be present, produce one that must be
absent); `unput` and `untake` are the same moves backwards.

`put_put` is the one rule with a trap in it. Producing the *same* element
twice in a row is harmless unless the first `put` cancelled a deletion of a
base element: then the second one adds an element the base already has, and
the pair stands for nothing any more.
-/

namespace Copycat.Lib

variable {α : Type} [DecidableEq α]

/-- The elements to add to, and to delete from, a base set. -/
structure Delta (α : Type) where
  add : Finset α
  del : Finset α

namespace Delta

/-- `d` over the base `U` stands for `S`. -/
structure Reps (d : Delta α) (U S : Finset α) : Prop where
  add_base : ∀ k ∈ d.add, k ∉ U
  add_del : ∀ k ∈ d.add, k ∉ d.del
  mem : ∀ k, k ∈ S ↔ k ∈ d.add ∨ (k ∈ U ∧ k ∉ d.del)

omit [DecidableEq α] in
/-- The empty delta stands for the base itself. -/
theorem reps_empty (U : Finset α) : Reps ⟨∅, ∅⟩ U U :=
  ⟨by simp, by simp, by simp⟩

/-- Merging a delta into its base yields the set it stands for. -/
theorem Reps.merge {d : Delta α} {U S : Finset α} (h : d.Reps U S) :
    (U ∪ d.add) \ d.del = S := by
  ext k
  rw [h.mem]
  have := h.add_del k
  simp only [Finset.mem_sdiff, Finset.mem_union]
  tauto

/-- Consume `k`: an added element is un-added, a base element is deleted;
`none` when `k` is not there. -/
def take (d : Delta α) (U : Finset α) (k : α) : Option (Delta α) :=
  if k ∈ d.add then some { d with add := d.add.erase k }
  else if k ∈ U ∧ k ∉ d.del then some { d with del := insert k d.del }
  else none

/-- Produce `k`: a deletion is cancelled, otherwise `k` is added. -/
def put (d : Delta α) (k : α) : Delta α :=
  if k ∈ d.del then { d with del := d.del.erase k } else { d with add := insert k d.add }

/-- Undo a production of `k`. -/
def unput (d : Delta α) (k : α) : Delta α :=
  if k ∈ d.add then { d with add := d.add.erase k } else { d with del := insert k d.del }

/-- Undo a consumption of `k`. -/
def untake (d : Delta α) (k : α) : Delta α :=
  { d with add := insert k d.add }

/-- `put` deletes nothing. -/
theorem put_del_subset (d : Delta α) (k : α) : (d.put k).del ⊆ d.del := by
  unfold put
  split
  · exact Finset.erase_subset _ _
  · exact Finset.Subset.refl _

theorem puts_del_subset (ks : List α) : ∀ d : Delta α, (ks.foldl Delta.put d).del ⊆ d.del := by
  induction ks with
  | nil => intro d; exact Finset.Subset.refl _
  | cons k ks ih => intro d; exact (ih (d.put k)).trans (put_del_subset d k)

/-- Consuming an absent element fails. -/
theorem Reps.take_none {d : Delta α} {U S : Finset α} {k : α} (h : d.Reps U S)
    (hk : k ∉ S) : d.take U k = none := by
  rw [h.mem] at hk
  push Not at hk
  unfold take
  rw [if_neg hk.1, if_neg (fun hu => hu.2 (hk.2 hu.1))]

/-- Consuming a present element succeeds and stands for its removal. The
deletions grow by base elements only. -/
theorem Reps.take_some {d : Delta α} {U S : Finset α} {k : α} (h : d.Reps U S)
    (hk : k ∈ S) :
    ∃ d', d.take U k = some d' ∧ d'.Reps U (S.erase k) ∧
      ∀ j ∈ d'.del, j ∈ d.del ∨ (j = k ∧ j ∈ U) := by
  unfold take
  by_cases ha : k ∈ d.add
  · rw [if_pos ha]
    refine ⟨_, rfl, ⟨?_, ?_, ?_⟩, fun j hj => Or.inl hj⟩
    · intro j hj
      exact h.add_base j (Finset.mem_of_mem_erase hj)
    · intro j hj
      exact h.add_del j (Finset.mem_of_mem_erase hj)
    · intro j
      have hkU := h.add_base k ha
      by_cases hjk : j = k
      · subst hjk
        simp [hkU]
      · simp [hjk, h.mem j]
  · have hU : k ∈ U ∧ k ∉ d.del := by
      rcases (h.mem k).mp hk with h1 | h1
      · exact absurd h1 ha
      · exact h1
    rw [if_neg ha, if_pos hU]
    refine ⟨_, rfl, ⟨h.add_base, ?_, ?_⟩, ?_⟩
    · intro j hj
      have hne : j ≠ k := fun e => ha (e ▸ hj)
      simp [hne, h.add_del j hj]
    · intro j
      by_cases hjk : j = k
      · subst hjk
        simp [ha]
      · simp [hjk, h.mem j]
    · intro j hj
      rcases Finset.mem_insert.mp hj with rfl | hj'
      · exact Or.inr ⟨rfl, hU.1⟩
      · exact Or.inl hj'

/-- Producing an absent element, whose deletion (if any) deletes something
real, stands for its insertion. -/
theorem Reps.put {d : Delta α} {U S : Finset α} {k : α} (h : d.Reps U S)
    (hk : k ∉ S) (hdel : k ∈ d.del → k ∈ U) : (d.put k).Reps U (insert k S) := by
  rw [h.mem] at hk
  push Not at hk
  unfold Delta.put
  by_cases hd : k ∈ d.del
  · rw [if_pos hd]
    refine ⟨h.add_base, ?_, ?_⟩
    · intro j hj hjd
      exact h.add_del j hj (Finset.mem_of_mem_erase hjd)
    · intro j
      by_cases hjk : j = k
      · subst hjk
        simp [hdel hd]
      · simp [hjk, h.mem j]
  · rw [if_neg hd]
    have hkU : k ∉ U := fun hu => hd (hk.2 hu)
    refine ⟨?_, ?_, ?_⟩
    · intro j hj
      rcases Finset.mem_insert.mp hj with rfl | hj'
      · exact hkU
      · exact h.add_base j hj'
    · intro j hj
      rcases Finset.mem_insert.mp hj with rfl | hj'
      · exact hd
      · exact h.add_del j hj'
    · intro j
      by_cases hjk : j = k
      · subst hjk
        simp
      · simp [hjk, h.mem j]

/-- Producing the same element twice stands for one insertion, provided the
element is not in the base. -/
theorem Reps.put_put {d : Delta α} {U S : Finset α} {k : α} (h : d.Reps U S)
    (hk : k ∉ S) (hU : k ∈ d.del → k ∉ U) : ((d.put k).put k).Reps U (insert k S) := by
  by_cases hd : k ∈ d.del
  · -- the first `put` only forgets a deletion that deleted nothing
    have hfst : (d.put k).Reps U S := by
      unfold Delta.put
      rw [if_pos hd]
      refine ⟨h.add_base, ?_, ?_⟩
      · intro j hj hjd
        exact h.add_del j hj (Finset.mem_of_mem_erase hjd)
      · intro j
        rw [h.mem]
        by_cases hjk : j = k
        · subst hjk
          simp [hU hd]
        · simp [hjk]
    refine hfst.put hk ?_
    unfold Delta.put
    rw [if_pos hd]
    simp
  · have hfst := h.put hk (fun hx => absurd hx hd)
    have heq : (d.put k).put k = d.put k := by
      unfold Delta.put
      simp [hd]
    rw [heq]
    exact hfst

/-- Undoing a production stands for the removal. -/
theorem Reps.unput {d : Delta α} {U S : Finset α} (h : d.Reps U S) (k : α) :
    (d.unput k).Reps U (S.erase k) := by
  unfold Delta.unput
  by_cases ha : k ∈ d.add
  · rw [if_pos ha]
    refine ⟨fun j hj => h.add_base j (Finset.mem_of_mem_erase hj),
      fun j hj => h.add_del j (Finset.mem_of_mem_erase hj), ?_⟩
    intro j
    by_cases hjk : j = k
    · subst hjk
      simp [h.add_base j ha]
    · simp [hjk, h.mem j]
  · rw [if_neg ha]
    refine ⟨h.add_base, ?_, ?_⟩
    · intro j hj
      have hne : j ≠ k := fun e => ha (e ▸ hj)
      simp [hne, h.add_del j hj]
    · intro j
      by_cases hjk : j = k
      · subst hjk
        simp [ha]
      · simp [hjk, h.mem j]

/-- What `unput` deletes: an element that was there, unless it was deleted
already. -/
theorem Reps.unput_del {d : Delta α} {U S : Finset α} (h : d.Reps U S) {k : α}
    (hk : k ∈ S) : ∀ j ∈ (d.unput k).del, j ∈ d.del ∨ (j = k ∧ j ∈ U) := by
  intro j hj
  unfold Delta.unput at hj
  by_cases ha : k ∈ d.add
  · rw [if_pos ha] at hj
    exact Or.inl hj
  · rw [if_neg ha] at hj
    rcases Finset.mem_insert.mp hj with rfl | hj'
    · rcases (h.mem j).mp hk with h1 | h1
      · exact absurd h1 ha
      · exact Or.inr ⟨rfl, h1.1⟩
    · exact Or.inl hj'

/-- Undoing a consumption of an absent, undeleted element stands for its
insertion. -/
theorem Reps.untake {d : Delta α} {U S : Finset α} {k : α} (h : d.Reps U S)
    (hk : k ∉ d.del) (hU : k ∉ S ∨ k ∈ d.add) : (d.untake k).Reps U (insert k S) := by
  have hkU : k ∉ U := by
    rcases hU with hS | ha
    · exact fun hu => hS ((h.mem k).mpr (Or.inr ⟨hu, hk⟩))
    · exact h.add_base k ha
  refine ⟨?_, ?_, ?_⟩
  · intro j hj
    rcases Finset.mem_insert.mp hj with rfl | hj'
    · exact hkU
    · exact h.add_base j hj'
  · intro j hj
    rcases Finset.mem_insert.mp hj with rfl | hj'
    · exact hk
    · exact h.add_del j hj'
  · intro j
    simp only [Delta.untake, Finset.mem_insert, h.mem]
    tauto

/-! ## Lists of moves -/

/-- Undoing the consumption of every element of a list. -/
theorem Reps.untakes {U : Finset α} {ks : List α} :
    ∀ {d : Delta α} {S : Finset α}, d.Reps U S →
      (∀ k ∈ ks, k ∉ d.del ∧ (k ∉ S ∨ k ∈ d.add)) →
      (ks.foldl Delta.untake d).Reps U (S ∪ ks.toFinset) ∧
          (ks.foldl Delta.untake d).del = d.del := by
  induction ks with
  | nil =>
    intro d S h _
    refine ⟨?_, rfl⟩
    rw [List.toFinset_nil, Finset.union_empty]
    exact h
  | cons k ks ih =>
    intro d S h hks
    obtain ⟨hk, hkS⟩ := hks k (List.mem_cons_self ..)
    have hrest : ∀ j ∈ ks, j ∉ (d.untake k).del ∧ (j ∉ insert k S ∨ j ∈ (d.untake k).add) := by
      intro j hj
      obtain ⟨hjd, hjS⟩ := hks j (List.mem_cons_of_mem _ hj)
      refine ⟨hjd, ?_⟩
      show j ∉ insert k S ∨ j ∈ insert k d.add
      by_cases hjk : j = k
      · exact Or.inr (hjk ▸ Finset.mem_insert_self k d.add)
      · rcases hjS with h1 | h1
        · exact Or.inl (by simp [hjk, h1])
        · exact Or.inr (Finset.mem_insert_of_mem h1)
    obtain ⟨hreps, hdel⟩ := ih (h.untake hk hkS) hrest
    refine ⟨?_, hdel⟩
    have : S ∪ (k :: ks).toFinset = insert k S ∪ ks.toFinset := by
      ext j
      simp only [Finset.mem_union, List.mem_toFinset, List.mem_cons, Finset.mem_insert]
      tauto
    rw [this]
    exact hreps

/-- Undoing the production of every element of a list. What it deletes are
elements of the list. -/
theorem Reps.unputs {U : Finset α} (ks : List α) :
    ∀ {d : Delta α} {S : Finset α}, d.Reps U S →
      (ks.foldl Delta.unput d).Reps U (S \ ks.toFinset) ∧
      ∀ j ∈ (ks.foldl Delta.unput d).del, j ∈ d.del ∨ j ∈ ks := by
  induction ks with
  | nil => intro d S h; exact ⟨by simpa using h, fun j hj => Or.inl hj⟩
  | cons k ks ih =>
    intro d S h
    obtain ⟨hreps, hdel⟩ := ih (h.unput k)
    constructor
    · have : S \ (k :: ks).toFinset = S.erase k \ ks.toFinset := by
        ext j
        simp only [Finset.mem_sdiff, List.mem_toFinset, List.mem_cons, Finset.mem_erase]
        tauto
      rw [this]
      exact hreps
    · intro j hj
      rcases hdel j hj with h1 | h1
      · unfold Delta.unput at h1
        split at h1
        · exact Or.inl h1
        · rcases Finset.mem_insert.mp h1 with rfl | h2
          · exact Or.inr (List.mem_cons_self ..)
          · exact Or.inl h2
      · exact Or.inr (List.mem_cons_of_mem _ h1)

/-- Distinct elements that are all there are deleted from the base only. -/
theorem Reps.unputs_del {U : Finset α} {ks : List α} (hnd : ks.Nodup) :
    ∀ {d : Delta α} {S : Finset α}, d.Reps U S → (∀ k ∈ ks, k ∈ S) →
      ∀ j ∈ (ks.foldl Delta.unput d).del, j ∈ d.del ∨ j ∈ U := by
  induction ks with
  | nil => intro d S _ _ j hj; exact Or.inl hj
  | cons k ks ih =>
    intro d S h hks j hj
    rw [List.nodup_cons] at hnd
    have hrest : ∀ i ∈ ks, i ∈ S.erase k := by
      intro i hi
      exact Finset.mem_erase.mpr
        ⟨fun e => hnd.1 (e ▸ hi), hks i (List.mem_cons_of_mem _ hi)⟩
    rcases ih hnd.2 (h.unput k) hrest j hj with h1 | h1
    · rcases h.unput_del (hks k (List.mem_cons_self ..)) j h1 with h2 | h2
      · exact Or.inl h2
      · exact Or.inr h2.2
    · exact Or.inr h1

/-- Consuming a list succeeds iff its elements are distinct and all there. -/
theorem Reps.takes {U : Finset α} {ks : List α} :
    ∀ {d : Delta α} {S : Finset α}, d.Reps U S → ks.Nodup → (∀ k ∈ ks, k ∈ S) →
      ∃ d', ks.foldlM (fun d k => take d U k) d = some d' ∧ d'.Reps U (S \ ks.toFinset) ∧
        ∀ j ∈ d'.del, j ∈ d.del ∨ (j ∈ ks ∧ j ∈ U) := by
  induction ks with
  | nil => intro d S h _ _; exact ⟨d, rfl, by simpa using h, fun j hj => Or.inl hj⟩
  | cons k ks ih =>
    intro d S h hnd hks
    rw [List.nodup_cons] at hnd
    obtain ⟨d₁, hd₁, hreps₁, hdel₁⟩ := h.take_some (hks k (List.mem_cons_self ..))
    have hrest : ∀ i ∈ ks, i ∈ S.erase k := by
      intro i hi
      exact Finset.mem_erase.mpr
        ⟨fun e => hnd.1 (e ▸ hi), hks i (List.mem_cons_of_mem _ hi)⟩
    obtain ⟨d₂, hd₂, hreps₂, hdel₂⟩ := ih hreps₁ hnd.2 hrest
    refine ⟨d₂, ?_, ?_, ?_⟩
    · rw [List.foldlM_cons, hd₁]
      exact hd₂
    · have : S \ (k :: ks).toFinset = S.erase k \ ks.toFinset := by
        ext j
        simp only [Finset.mem_sdiff, List.mem_toFinset, List.mem_cons, Finset.mem_erase]
        tauto
      rw [this]
      exact hreps₂
    · intro j hj
      rcases hdel₂ j hj with h1 | h1
      · rcases hdel₁ j h1 with h2 | h2
        · exact Or.inl h2
        · exact Or.inr ⟨h2.1 ▸ List.mem_cons_self .., h2.2⟩
      · exact Or.inr ⟨List.mem_cons_of_mem _ h1.1, h1.2⟩

/-- The converse of `takes`. -/
theorem Reps.takes_inv {U : Finset α} {ks : List α} :
    ∀ {d d' : Delta α} {S : Finset α}, d.Reps U S →
      ks.foldlM (fun d k => take d U k) d = some d' → ks.Nodup ∧ ∀ k ∈ ks, k ∈ S := by
  induction ks with
  | nil => intro d d' S _ _; exact ⟨List.nodup_nil, by simp⟩
  | cons k ks ih =>
    intro d d' S h htake
    rw [List.foldlM_cons] at htake
    by_cases hk : k ∈ S
    · obtain ⟨d₁, hd₁, hreps₁, -⟩ := h.take_some hk
      rw [hd₁] at htake
      obtain ⟨hnd, hks⟩ := ih hreps₁ htake
      refine ⟨List.nodup_cons.mpr ⟨fun hmem => ?_, hnd⟩, ?_⟩
      · exact absurd (hks k hmem) (by simp)
      · intro j hj
        rcases List.mem_cons.mp hj with rfl | hj'
        · exact hk
        · exact Finset.mem_of_mem_erase (hks j hj')
    · rw [h.take_none hk] at htake
      exact absurd htake (by simp)

/-- Producing distinct elements, none of them there. -/
theorem Reps.puts {U : Finset α} {ks : List α} :
    ∀ {d : Delta α} {S : Finset α}, d.Reps U S → ks.Nodup →
      (∀ k ∈ ks, k ∉ S ∧ (k ∈ d.del → k ∈ U)) →
      (ks.foldl Delta.put d).Reps U (S ∪ ks.toFinset) := by
  induction ks with
  | nil =>
    intro d S h _ _
    rw [List.toFinset_nil, Finset.union_empty]
    exact h
  | cons k ks ih =>
    intro d S h hnd hks
    rw [List.nodup_cons] at hnd
    obtain ⟨hk, hkd⟩ := hks k (List.mem_cons_self ..)
    have hrest : ∀ j ∈ ks, j ∉ insert k S ∧ (j ∈ (d.put k).del → j ∈ U) := by
      intro j hj
      have hjk : j ≠ k := fun e => hnd.1 (e ▸ hj)
      obtain ⟨hjS, hjd⟩ := hks j (List.mem_cons_of_mem _ hj)
      exact ⟨by simp [hjk, hjS], fun hx => hjd (put_del_subset d k hx)⟩
    have : S ∪ (k :: ks).toFinset = insert k S ∪ ks.toFinset := by
      ext j
      simp only [Finset.mem_union, List.mem_toFinset, List.mem_cons, Finset.mem_insert]
      tauto
    rw [this]
    exact ih (h.put hk hkd) hnd.2 hrest

/-! ## Without the side conditions

What the moves do to a single element, for a pair that need not stand for any
set. `Has` is what `take` looks at. -/

/-- `k` can be consumed. -/
def Has (d : Delta α) (U : Finset α) (k : α) : Prop :=
  k ∈ d.add ∨ (k ∈ U ∧ k ∉ d.del)

theorem untakes_add (ks : List α) : ∀ (d : Delta α) (k : α),
    k ∈ (ks.foldl untake d).add ↔ k ∈ d.add ∨ k ∈ ks := by
  induction ks with
  | nil => intro d k; simp
  | cons j ks ih =>
    intro d k
    rw [List.foldl_cons, ih]
    simp only [untake, Finset.mem_insert, List.mem_cons]
    tauto

theorem untakes_del (ks : List α) : ∀ d : Delta α, (ks.foldl untake d).del = d.del := by
  induction ks with
  | nil => intro d; rfl
  | cons j ks ih => intro d; exact ih (d.untake j)

/-- Producing other elements. -/
theorem puts_other {k : α} {ks : List α} (hk : k ∉ ks) : ∀ d : Delta α,
    (k ∈ (ks.foldl put d).add ↔ k ∈ d.add) ∧ (k ∈ (ks.foldl put d).del ↔ k ∈ d.del) := by
  induction ks with
  | nil => intro d; exact ⟨Iff.rfl, Iff.rfl⟩
  | cons j ks ih =>
    intro d
    rw [List.mem_cons, not_or] at hk
    obtain ⟨hadd, hdel⟩ := ih hk.2 (d.put j)
    rw [List.foldl_cons, hadd, hdel]
    unfold put
    split
    · simp [hk.1]
    · simp [hk.1]

/-- Producing `k`: it is not deleted any more, and added unless the one
production was of a deleted element. -/
theorem puts_self {k : α} {ks : List α} (hk : k ∈ ks) : ∀ d : Delta α,
    k ∉ (ks.foldl put d).del ∧
      (k ∈ (ks.foldl put d).add ↔ k ∈ d.add ∨ k ∉ d.del ∨ List.Duplicate k ks) := by
  induction ks with
  | nil => exact absurd hk (by simp)
  | cons j ks ih =>
    intro d
    rw [List.foldl_cons]
    by_cases hjk : k = j
    · subst hjk
      -- the first one takes it out of `del`, or into `add`
      have hdel : k ∉ (d.put k).del := by
        unfold put
        split
        · simp
        · next h => exact h
      have hadd : k ∈ (d.put k).add ↔ k ∈ d.add ∨ k ∉ d.del := by
        unfold put
        split
        · next h => simp [h]
        · next h => simp [h]
      rw [List.duplicate_cons_self_iff]
      by_cases hmem : k ∈ ks
      · obtain ⟨h₁, h₂⟩ := ih hmem (d.put k)
        refine ⟨h₁, ?_⟩
        rw [h₂]
        constructor
        · intro _
          exact Or.inr (Or.inr hmem)
        · intro _
          exact Or.inr (Or.inl hdel)
      · obtain ⟨h₁, h₂⟩ := puts_other hmem (d.put k)
        refine ⟨by rw [h₂]; exact hdel, ?_⟩
        rw [h₁, hadd]
        simp [hmem]
    · have hmem : k ∈ ks := (List.mem_cons.mp hk).resolve_left hjk
      obtain ⟨h₁, h₂⟩ := ih hmem (d.put j)
      obtain ⟨hadd, hdel⟩ := puts_other (show k ∉ [j] by simpa using hjk) d
      rw [List.foldl_cons, List.foldl_nil] at hadd hdel
      refine ⟨h₁, ?_⟩
      rw [h₂, hadd, hdel, List.duplicate_cons_iff_of_ne hjk]

/-- Additions and deletions the other way round. -/
def flip (d : Delta α) : Delta α := ⟨d.del, d.add⟩

theorem flip_unput (d : Delta α) (k : α) : (d.unput k).flip = d.flip.put k := by
  unfold unput put
  by_cases hk : k ∈ d.add
  · rw [if_pos hk, if_pos (show k ∈ d.flip.del from hk)]
    rfl
  · rw [if_neg hk, if_neg (show k ∉ d.flip.del from hk)]
    rfl

/-- Undoing productions is producing, the other way round. -/
theorem flip_unputs (ks : List α) : ∀ d : Delta α,
    (ks.foldl unput d).flip = ks.foldl put d.flip := by
  induction ks with
  | nil => exact fun _ => rfl
  | cons k ks ih =>
    intro d
    rw [List.foldl_cons, List.foldl_cons, ih, flip_unput]

/-- Undoing the production of other elements. -/
theorem unputs_other {k : α} {ks : List α} (hk : k ∉ ks) (d : Delta α) :
    (k ∈ (ks.foldl unput d).add ↔ k ∈ d.add) ∧ (k ∈ (ks.foldl unput d).del ↔ k ∈ d.del) := by
  have hputs := puts_other hk d.flip
  rw [← flip_unputs] at hputs
  exact hputs.symm

/-- Undoing the production of `k`: it is not added any more, and deleted unless
the one production was of an added element. -/
theorem unputs_self {k : α} {ks : List α} (hk : k ∈ ks) (d : Delta α) :
    k ∉ (ks.foldl unput d).add ∧
      (k ∈ (ks.foldl unput d).del ↔ k ∈ d.del ∨ k ∉ d.add ∨ List.Duplicate k ks) := by
  have hputs := puts_self hk d.flip
  rw [← flip_unputs] at hputs
  exact hputs

/-- What consuming a list of elements does to `k`. -/
structure Taken (d : Delta α) (U : Finset α) (ks : List α) (d' : Delta α) : Prop where
  had : ∀ k ∈ ks, d.Has U k
  other : ∀ k, k ∉ ks → (k ∈ d'.add ↔ k ∈ d.add) ∧ (k ∈ d'.del ↔ k ∈ d.del)
  add : ∀ k ∈ d'.add, k ∈ d.add
  del : ∀ k ∈ d'.del, k ∈ d.del ∨ k ∈ U
  again : ∀ k ∈ ks, d'.Has U k → k ∈ d.add ∧ k ∈ U ∧ k ∉ d.del

theorem take_taken {d d' : Delta α} {U : Finset α} {k : α} (h : d.take U k = some d') :
    Taken d U [k] d' := by
  unfold take at h
  split at h
  · next hadd =>
    rw [Option.some.injEq] at h
    subst h
    refine ⟨?_, ?_, ?_, fun j hj => Or.inl hj, ?_⟩
    · intro j hj
      rw [List.mem_singleton.mp hj]
      exact Or.inl hadd
    · intro j hj
      rw [List.mem_singleton] at hj
      simp [hj]
    · intro j hj
      exact Finset.mem_of_mem_erase hj
    · intro j hj hhas
      rw [List.mem_singleton.mp hj] at hhas ⊢
      refine ⟨hadd, ?_⟩
      unfold Has at hhas
      simpa using hhas
  · next hadd =>
    split at h
    · next hU =>
      rw [Option.some.injEq] at h
      subst h
      refine ⟨?_, ?_, fun j hj => hj, ?_, ?_⟩
      · intro j hj
        rw [List.mem_singleton.mp hj]
        exact Or.inr hU
      · intro j hj
        rw [List.mem_singleton] at hj
        simp [hj]
      · intro j hj
        rcases Finset.mem_insert.mp hj with he | hj
        · rw [he]
          exact Or.inr hU.1
        · exact Or.inl hj
      · intro j hj hhas
        rw [List.mem_singleton.mp hj] at hhas
        unfold Has at hhas
        simp [hadd] at hhas
    · exact absurd h (by simp)

/-- Consuming only takes away. -/
theorem Taken.has {d d' : Delta α} {U : Finset α} {ks : List α} (h : Taken d U ks d') {k : α}
    (hk : d'.Has U k) : d.Has U k := by
  by_cases hmem : k ∈ ks
  · exact h.had k hmem
  · obtain ⟨hadd, hdel⟩ := h.other k hmem
    unfold Has at hk ⊢
    rwa [hadd, hdel] at hk

theorem takes_taken {U : Finset α} {ks : List α} : ∀ {d d' : Delta α},
    ks.foldlM (fun d k => take d U k) d = some d' → Taken d U ks d' := by
  induction ks with
  | nil =>
    intro d d' h
    have he : d = d' := Option.some.inj h
    subst he
    exact ⟨fun k hk => absurd hk (by simp), fun k _ => ⟨Iff.rfl, Iff.rfl⟩, fun k hk => hk,
      fun k hk => Or.inl hk, fun k hk => absurd hk (by simp)⟩
  | cons j ks ih =>
    intro d d' h
    rw [List.foldlM_cons] at h
    obtain ⟨d₁, h₁, h₂⟩ := Option.bind_eq_some_iff.mp h
    have t₁ := take_taken h₁
    have t₂ := ih h₂
    refine ⟨?_, ?_, fun k hk => t₁.add k (t₂.add k hk), ?_, ?_⟩
    · intro k hk
      rcases List.mem_cons.mp hk with he | hk
      · exact t₁.had k (by simp [he])
      · exact t₁.has (t₂.had k hk)
    · intro k hk
      rw [List.mem_cons, not_or] at hk
      obtain ⟨ha₁, hd₁⟩ := t₁.other k (by simpa using hk.1)
      obtain ⟨ha₂, hd₂⟩ := t₂.other k hk.2
      exact ⟨ha₂.trans ha₁, hd₂.trans hd₁⟩
    · intro k hk
      rcases t₂.del k hk with hk | hk
      · exact t₁.del k hk
      · exact Or.inr hk
    · intro k hk hhas
      by_cases hkj : k = j
      · exact t₁.again k (by simp [hkj]) (t₂.has hhas)
      · obtain ⟨ha, hu, hd⟩ := t₂.again k ((List.mem_cons.mp hk).resolve_left hkj) hhas
        obtain ⟨ha₁, hd₁⟩ := t₁.other k (by simpa using hkj)
        exact ⟨ha₁.mp ha, hu, fun h => hd (hd₁.mpr h)⟩

/-- Distinct elements that can be consumed can all be consumed. -/
theorem takes_some {U : Finset α} {ks : List α} : ∀ {d : Delta α}, ks.Nodup →
    (∀ k ∈ ks, d.Has U k) → ∃ d', ks.foldlM (fun d k => take d U k) d = some d' := by
  induction ks with
  | nil => intro d _ _; exact ⟨d, rfl⟩
  | cons j ks ih =>
    intro d hnd hall
    rw [List.nodup_cons] at hnd
    obtain ⟨d₁, h₁⟩ : ∃ d₁, d.take U j = some d₁ := by
      unfold take
      rcases hall j (by simp) with ha | hU
      · rw [if_pos ha]
        exact ⟨_, rfl⟩
      · by_cases ha : j ∈ d.add
        · rw [if_pos ha]
          exact ⟨_, rfl⟩
        · rw [if_neg ha, if_pos hU]
          exact ⟨_, rfl⟩
    have t₁ := take_taken h₁
    obtain ⟨d', hd'⟩ := ih (d := d₁) hnd.2 (by
      intro k hk
      have hkj : k ≠ j := fun he => hnd.1 (he ▸ hk)
      obtain ⟨ha, hd⟩ := t₁.other k (by simpa using hkj)
      have := hall k (List.mem_cons_of_mem _ hk)
      unfold Has at this ⊢
      rwa [ha, hd])
    refine ⟨d', ?_⟩
    rw [List.foldlM_cons, h₁]
    exact hd'

end Delta

end Copycat.Lib
