import Mathlib.Algebra.BigOperators.Group.Finset.Basic
import Mathlib.Data.Finset.Sym
import Mathlib.Data.List.AList
import Mathlib.Data.Set.Card

/-!
# Pairs that are taken apart

Keys are added in pairs, each under the other, and taken one by one. When the first of
a pair is taken the second one has to wait for its turn, so that a pair is counted
once when it is touched and once when it is finished. However often keys are taken,
known ones and others, the pairs that have been added are those touched and those that
are still whole (`Good.added_eq`).
-/

namespace Copycat.Lib

variable {κ : Type} [DecidableEq κ]

/-- The keys that are left with their mates, the keys whose mate has been taken, and
the pairs that have been added, touched and finished. -/
structure Pairing (κ : Type) where
  mate : AList fun _ : κ => κ
  waiting : Finset κ
  added : ℕ
  touched : ℕ
  finished : ℕ

namespace Pairing

/-- Add a pair. -/
def add (p : Pairing κ) (a b : κ) : Pairing κ :=
  { p with mate := (p.mate.insert a b).insert b a, added := p.added + 1 }

/-- Take a key, if it is there. -/
def take (p : Pairing κ) (a : κ) : Pairing κ :=
  match p.mate.lookup a with
  | none => p
  | some b =>
    if a ∈ p.waiting then
      { p with
        mate := p.mate.erase a
        waiting := p.waiting.erase a
        finished := p.finished + 1 }
    else
      { p with
        mate := p.mate.erase a
        waiting := insert b p.waiting
        touched := p.touched + 1 }

/-- The keys. -/
def keys (p : Pairing κ) : Finset κ := p.mate.keys.toFinset

/-- The pairs that are whole. -/
def whole (p : Pairing κ) : Set (Sym2 κ) :=
  {s | ∃ a b, s = s(a, b) ∧ p.mate.lookup a = some b ∧ p.mate.lookup b = some a}

variable {p : Pairing κ} {a b c d : κ}

theorem mem_keys : a ∈ p.keys ↔ ∃ b, p.mate.lookup a = some b := by
  rw [keys, List.mem_toFinset, ← AList.mem_keys, ← AList.lookup_isSome, Option.isSome_iff_exists]

theorem card_keys (p : Pairing κ) : p.keys.card = p.mate.entries.length := by
  rw [keys, List.toFinset_card_of_nodup p.mate.keys_nodup]
  exact List.length_map ..

/-! ## Lookups -/

theorem lookup_add (p : Pairing κ) (a b c : κ) : (p.add a b).mate.lookup c =
    if c = b then some a else if c = a then some b else p.mate.lookup c := by
  show AList.lookup c ((p.mate.insert a b).insert b a) = _
  by_cases hb : c = b
  · rw [if_pos hb, hb, AList.lookup_insert]
  · rw [if_neg hb, AList.lookup_insert_ne hb]
    by_cases ha : c = a
    · rw [if_pos ha, ha, AList.lookup_insert]
    · rw [if_neg ha, AList.lookup_insert_ne ha]

theorem mate_take (p : Pairing κ) (a : κ) : (p.take a).mate = p.mate.erase a := by
  unfold take
  split
  · rename_i h
    have hmem : a ∉ p.mate := AList.lookup_eq_none.mp h
    refine AList.ext ?_
    exact (List.kerase_of_notMem_keys hmem).symm
  · split <;> rfl

theorem lookup_take (p : Pairing κ) (a c : κ) :
    (p.take a).mate.lookup c = if c = a then none else p.mate.lookup c := by
  rw [mate_take]
  by_cases hc : c = a
  · rw [if_pos hc, hc, AList.lookup_erase]
  · rw [if_neg hc, AList.lookup_erase_ne hc]

/-- After several keys have been taken the others are there. -/
theorem lookup_foldl_take (l : List κ) : ∀ (p : Pairing κ) (c : κ),
    (l.foldl take p).mate.lookup c = if c ∈ l then none else p.mate.lookup c := by
  induction l with
  | nil => exact fun p c => (if_neg List.not_mem_nil).symm
  | cons a l ih =>
    intro p c
    rw [List.foldl_cons, ih, lookup_take]
    by_cases hl : c ∈ l
    · rw [if_pos hl, if_pos (List.mem_cons_of_mem a hl)]
    · rw [if_neg hl]
      by_cases hc : c = a
      · rw [if_pos hc, if_pos (hc ▸ List.mem_cons_self)]
      · rw [if_neg hc, if_neg (by simp [hc, hl])]

/-! ## The invariant -/

/-- A key has its mate, and either both are there or it waits; the counters agree. -/
structure Good (p : Pairing κ) : Prop where
  mates : ∀ a b, p.mate.lookup a = some b → a ≠ b ∧
    (a ∉ p.waiting ∧ p.mate.lookup b = some a ∨ a ∈ p.waiting ∧ p.mate.lookup b = none)
  waiting : p.waiting ⊆ p.keys
  added : 2 * p.added + p.waiting.card = 2 * p.touched + p.keys.card
  touched : p.touched = p.finished + p.waiting.card

theorem good_new : (⟨∅, ∅, 0, 0, 0⟩ : Pairing κ).Good where
  mates a b h := absurd h (by simp)
  waiting := Finset.empty_subset _
  added := rfl
  touched := rfl

theorem notMem_keys (h : p.mate.lookup a = none) : a ∉ p.keys := by
  intro hmem
  obtain ⟨b, hb⟩ := mem_keys.mp hmem
  exact absurd (h.symm.trans hb) (by simp)

theorem keys_add (p : Pairing κ) (a b : κ) : (p.add a b).keys = insert b (insert a p.keys) := by
  ext c
  rw [mem_keys, Finset.mem_insert, Finset.mem_insert, mem_keys]
  simp only [lookup_add]
  by_cases hcb : c = b
  · simp [hcb]
  · rw [if_neg hcb, or_iff_right hcb]
    by_cases hca : c = a
    · simp [hca]
    · rw [if_neg hca, or_iff_right hca]

/-- A pair of keys that are new, also as mates. -/
theorem Good.add (h : p.Good) (hne : a ≠ b) (ha : p.mate.lookup a = none)
    (hb : p.mate.lookup b = none) (hnew : ∀ c d, p.mate.lookup c = some d → d ≠ a ∧ d ≠ b) :
    (p.add a b).Good := by
  refine ⟨fun c d hcd => ?_, ?_, ?_, h.touched⟩
  · rw [lookup_add] at hcd
    simp only [lookup_add]
    by_cases hcb : c = b
    · rw [if_pos hcb, Option.some.injEq] at hcd
      subst hcb hcd
      refine ⟨hne.symm, Or.inl ⟨fun hw => notMem_keys hb (h.waiting hw), ?_⟩⟩
      rw [if_neg hne, if_pos rfl]
    · rw [if_neg hcb] at hcd
      by_cases hca : c = a
      · rw [if_pos hca, Option.some.injEq] at hcd
        subst hca hcd
        exact ⟨hne, Or.inl ⟨fun hw => notMem_keys ha (h.waiting hw), if_pos rfl⟩⟩
      · rw [if_neg hca] at hcd
        obtain ⟨hda, hdb⟩ := hnew c d hcd
        rw [if_neg hdb, if_neg hda]
        exact h.mates c d hcd
  · rw [keys_add]
    exact h.waiting.trans ((Finset.subset_insert a _).trans (Finset.subset_insert b _))
  · have hbkeys : b ∉ insert a p.keys := by
      rw [Finset.mem_insert, not_or]
      exact ⟨hne.symm, notMem_keys hb⟩
    have hadded := h.added
    rw [keys_add, Finset.card_insert_of_notMem hbkeys,
      Finset.card_insert_of_notMem (notMem_keys ha)]
    show 2 * (p.added + 1) + p.waiting.card = 2 * p.touched + _
    omega

theorem keys_take (p : Pairing κ) (a : κ) : (p.take a).keys = p.keys.erase a := by
  ext c
  rw [mem_keys, Finset.mem_erase, mem_keys]
  simp only [lookup_take]
  by_cases hc : c = a
  · simp [hc]
  · rw [if_neg hc, and_iff_right hc]

/-- Whose mate a key is, when it is taken. -/
theorem Good.mate_of (h : p.Good) (hab : p.mate.lookup a = some b)
    (hcd : p.mate.lookup c = some a) : c = b ∧ a ∉ p.waiting := by
  obtain ⟨-, hmates⟩ := h.mates c a hcd
  rcases hmates with ⟨-, hac⟩ | ⟨-, hnone⟩
  · rw [hab, Option.some.injEq] at hac
    subst hac
    obtain ⟨-, hboth⟩ := h.mates a b hab
    rcases hboth with ⟨hw, -⟩ | ⟨-, hnone⟩
    · exact ⟨rfl, hw⟩
    · exact absurd (hnone.symm.trans hcd) (by simp)
  · exact absurd (hnone.symm.trans hab) (by simp)

/-- Taking the second of a pair. -/
theorem take_second (hab : p.mate.lookup a = some b) (hw : a ∈ p.waiting) : p.take a =
    ⟨p.mate.erase a, p.waiting.erase a, p.added, p.touched, p.finished + 1⟩ := by
  rw [take, hab]
  exact if_pos hw

/-- Taking the first of a pair: its mate waits then. -/
theorem take_first (hab : p.mate.lookup a = some b) (hw : a ∉ p.waiting) : p.take a =
    ⟨p.mate.erase a, insert b p.waiting, p.added, p.touched + 1, p.finished⟩ := by
  rw [take, hab]
  exact if_neg hw

theorem Good.take_second (h : p.Good) (hab : p.mate.lookup a = some b) (hw : a ∈ p.waiting) :
    (p.take a).Good := by
  have hkey : a ∈ p.keys := mem_keys.mpr ⟨b, hab⟩
  have hcard := Finset.card_erase_of_mem hkey
  have hpos : 0 < p.keys.card := Finset.card_pos.mpr ⟨a, hkey⟩
  have hwcard := Finset.card_erase_of_mem hw
  have hwpos : 0 < p.waiting.card := Finset.card_pos.mpr ⟨a, hw⟩
  have hadded := h.added
  have htouched := h.touched
  have htake := Pairing.take_second hab hw
  have hw₁ : (p.take a).waiting = p.waiting.erase a := by rw [htake]
  have hadded₁ : (p.take a).added = p.added := by rw [htake]
  have htouched₁ : (p.take a).touched = p.touched := by rw [htake]
  have hfinished₁ : (p.take a).finished = p.finished + 1 := by rw [htake]
  refine ⟨fun c d hcd => ?_, ?_, ?_, ?_⟩
  · rw [lookup_take] at hcd
    split at hcd
    · exact absurd hcd (by simp)
    · rename_i hca
      have hda : d ≠ a := by
        rintro rfl
        exact (h.mate_of hab hcd).2 hw
      rw [lookup_take, if_neg hda, hw₁, Finset.mem_erase, and_iff_right hca]
      exact h.mates c d hcd
  · rw [hw₁, keys_take]
    exact Finset.erase_subset_erase a h.waiting
  · rw [hadded₁, htouched₁, hw₁, keys_take]
    omega
  · rw [htouched₁, hfinished₁, hw₁]
    omega

theorem Good.take_first (h : p.Good) (hab : p.mate.lookup a = some b) (hw : a ∉ p.waiting) :
    (p.take a).Good := by
  have hkey : a ∈ p.keys := mem_keys.mpr ⟨b, hab⟩
  have hcard := Finset.card_erase_of_mem hkey
  have hpos : 0 < p.keys.card := Finset.card_pos.mpr ⟨a, hkey⟩
  obtain ⟨hne, hmates⟩ := h.mates a b hab
  have hba : p.mate.lookup b = some a := (hmates.resolve_right fun hboth => hw hboth.1).2
  have hbw : b ∉ p.waiting := (h.mate_of hba hab).2
  have hwcard := Finset.card_insert_of_notMem hbw
  have hadded := h.added
  have htouched := h.touched
  have htake := Pairing.take_first hab hw
  have hw₁ : (p.take a).waiting = insert b p.waiting := by rw [htake]
  have hadded₁ : (p.take a).added = p.added := by rw [htake]
  have htouched₁ : (p.take a).touched = p.touched + 1 := by rw [htake]
  have hfinished₁ : (p.take a).finished = p.finished := by rw [htake]
  refine ⟨fun c d hcd => ?_, ?_, ?_, ?_⟩
  · rw [lookup_take] at hcd
    split at hcd
    · exact absurd hcd (by simp)
    · rename_i hca
      rw [lookup_take, hw₁, Finset.mem_insert]
      by_cases hda : d = a
      · obtain ⟨rfl, -⟩ := h.mate_of hab (hda ▸ hcd)
        exact ⟨hda ▸ hca, Or.inr ⟨Or.inl rfl, if_pos hda⟩⟩
      · have hcb : c ≠ b := by
          rintro rfl
          rw [hba, Option.some.injEq] at hcd
          exact hda hcd.symm
        rw [if_neg hda, or_iff_right hcb]
        exact h.mates c d hcd
  · rw [hw₁, keys_take]
    refine Finset.insert_subset (Finset.mem_erase.mpr ⟨hne.symm, mem_keys.mpr ⟨a, hba⟩⟩) ?_
    exact fun c hc => Finset.mem_erase.mpr ⟨fun hca => hw (hca ▸ hc), h.waiting hc⟩
  · rw [hadded₁, htouched₁, hw₁, keys_take]
    omega
  · rw [htouched₁, hfinished₁, hw₁]
    omega

theorem Good.take (h : p.Good) (a : κ) : (p.take a).Good := by
  cases hab : p.mate.lookup a with
  | none =>
    have hsame : p.take a = p := by rw [Pairing.take, hab]
    exact hsame.symm ▸ h
  | some b =>
    by_cases hw : a ∈ p.waiting
    · exact h.take_second hab hw
    · exact h.take_first hab hw

/-! ## Whole pairs -/

/-- A key that does not wait is in one whole pair. -/
theorem Good.card_whole (h : p.Good) : 2 * p.whole.ncard = (p.keys \ p.waiting).card := by
  classical
  -- the pair of a key
  obtain ⟨pair, hpair⟩ : ∃ pair : κ → Sym2 κ, ∀ a b,
      p.mate.lookup a = some b → pair a = s(a, b) := by
    refine ⟨fun a => s(a, (p.mate.lookup a).getD a), fun a b hab => ?_⟩
    dsimp only
    rw [hab]
    rfl
  have hboth : ∀ a ∈ p.keys \ p.waiting, ∃ b, a ≠ b ∧ p.mate.lookup a = some b ∧
      p.mate.lookup b = some a ∧ b ∈ p.keys \ p.waiting := by
    intro a ha
    obtain ⟨hkey, hw⟩ := Finset.mem_sdiff.mp ha
    obtain ⟨b, hab⟩ := mem_keys.mp hkey
    obtain ⟨hne, hmates⟩ := h.mates a b hab
    have hba := (hmates.resolve_right fun hx => hw hx.1).2
    exact ⟨b, hne, hab, hba, Finset.mem_sdiff.mpr ⟨mem_keys.mpr ⟨a, hba⟩, (h.mate_of hba hab).2⟩⟩
  have himage : p.whole = ((p.keys \ p.waiting).image pair : Finset (Sym2 κ)) := by
    ext x
    rw [Finset.mem_coe, Finset.mem_image]
    constructor
    · rintro ⟨a, b, rfl, hab, hba⟩
      exact ⟨a, Finset.mem_sdiff.mpr ⟨mem_keys.mpr ⟨b, hab⟩, (h.mate_of hab hba).2⟩,
        hpair a b hab⟩
    · rintro ⟨a, ha, rfl⟩
      obtain ⟨b, -, hab, hba, -⟩ := hboth a ha
      exact ⟨a, b, hpair a b hab, hab, hba⟩
  rw [himage, Set.ncard_coe_finset, Finset.card_eq_sum_card_image pair, mul_comm]
  refine (Finset.sum_const_nat fun x hx => ?_).symm
  obtain ⟨a, ha, rfl⟩ := Finset.mem_image.mp hx
  obtain ⟨b, hne, hab, hba, hb⟩ := hboth a ha
  have hfibre : (p.keys \ p.waiting).filter (fun c => pair c = pair a) = {a, b} := by
    ext c
    rw [Finset.mem_filter, Finset.mem_insert, Finset.mem_singleton]
    constructor
    · rintro ⟨hc, hca⟩
      obtain ⟨d, -, hcd, -, -⟩ := hboth c hc
      rw [hpair a b hab, hpair c d hcd] at hca
      rcases Sym2.eq_iff.mp hca with ⟨hca, -⟩ | ⟨hcb, -⟩
      · exact Or.inl hca
      · exact Or.inr hcb
    · rintro (rfl | rfl)
      · exact ⟨ha, rfl⟩
      · exact ⟨hb, by rw [hpair a c hab, hpair c a hba, Sym2.eq_swap]⟩
  rw [hfibre, Finset.card_pair hne]

theorem whole_finite (p : Pairing κ) : p.whole.Finite := by
  refine p.keys.sym2.finite_toSet.subset ?_
  rintro s ⟨a, b, rfl, hab, hba⟩
  exact Finset.mk_mem_sym2_iff.mpr ⟨mem_keys.mpr ⟨b, hab⟩, mem_keys.mpr ⟨a, hba⟩⟩

/-- The pairs added are those touched and those that are whole. -/
theorem Good.added_eq (h : p.Good) : p.added = p.touched + p.whole.ncard ∧
    p.finished ≤ p.touched := by
  have hwhole := h.card_whole
  have hcard := Finset.card_sdiff_of_subset h.waiting
  have hle := Finset.card_le_card h.waiting
  have hadded := h.added
  have htouched := h.touched
  omega

end Pairing

end Copycat.Lib
