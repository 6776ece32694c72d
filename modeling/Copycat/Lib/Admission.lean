import Mathlib.Data.Set.Insert
import Mathlib.Order.Bounds.Basic
import Mathlib.Tactic.Tauto

/-!
# Admission in order of dependencies

Items name other items they depend on by key, and some items are good. Items
are delivered in any order. One whose dependencies have all been admitted is
admitted if it is good and dropped if it is not; one that misses some waits
under each key it misses, and is looked at again when one of these is admitted.

`Works` is that procedure, one item off the worklist at a time; the items that
waited for an admitted one are put in front of the list. What it computes does
not depend on the order: `Law.admitted_iff` says that everything delivered and
`Admissible` is admitted in the end, and nothing else. Their keys are the least
set closed under the rule of admission (`Law.keys_least`). In which order it is
admitted does depend on the deliveries, but dependencies come first and nothing
comes twice (`Works.ordered`).
-/

namespace Copycat.Lib

variable {κ τ : Type}

/-- What is known about the items: their keys, the keys they depend on, and
which of them are good. -/
structure Items (κ τ : Type) where
  key : τ → κ
  deps : τ → List κ
  good : τ → Prop

/-- What has been admitted, and what waits under each key. -/
structure Admission (κ τ : Type) where
  admitted : Set τ
  waits : κ → Set τ

namespace Admission

variable {R : Items κ τ}

theorem eq_of_mem {s s' : Admission κ τ} (ha : ∀ t, t ∈ s.admitted ↔ t ∈ s'.admitted)
    (hw : ∀ d t, t ∈ s.waits d ↔ t ∈ s'.waits d) : s = s' := by
  obtain ⟨a, w⟩ := s
  obtain ⟨a', w'⟩ := s'
  congr 1
  · exact Set.ext ha
  · exact funext fun d => Set.ext (hw d)

def empty (κ τ : Type) : Admission κ τ where
  admitted := ∅
  waits := fun _ => ∅

/-- An item with this key has been admitted. -/
def Has (R : Items κ τ) (s : Admission κ τ) (d : κ) : Prop :=
  ∃ p ∈ s.admitted, R.key p = d

/-- An item waits under every key it misses. -/
def park (R : Items κ τ) (s : Admission κ τ) (t : τ) : Admission κ τ where
  admitted := s.admitted
  waits := fun d x => x ∈ s.waits d ∨ (x = t ∧ d ∈ R.deps t ∧ ¬ s.Has R d)

/-- An item is admitted, and nothing waits for it any more. -/
def accept (R : Items κ τ) (s : Admission κ τ) (t : τ) : Admission κ τ where
  admitted := insert t s.admitted
  waits := fun d x => d ≠ R.key t ∧ x ∈ s.waits d

/-- The worklist procedure: from a state, over a list of items, to a state,
with the items admitted on the way. -/
inductive Works (R : Items κ τ) :
    Admission κ τ → List τ → Admission κ τ → List τ → Prop
  | done (s : Admission κ τ) : Works R s [] s []
  | known {s s' : Admission κ τ} {t : τ} {work out : List τ} :
      t ∈ s.admitted → Works R s work s' out → Works R s (t :: work) s' out
  | drops {s s' : Admission κ τ} {t : τ} {work out : List τ} :
      t ∉ s.admitted → (∀ d ∈ R.deps t, s.Has R d) → ¬ R.good t →
      Works R s work s' out → Works R s (t :: work) s' out
  | parks {s s' : Admission κ τ} {t : τ} {work out : List τ} :
      t ∉ s.admitted → (∃ d ∈ R.deps t, ¬ s.Has R d) →
      Works R (s.park R t) work s' out → Works R s (t :: work) s' out
  | accepts {s s' : Admission κ τ} {t : τ} {work out : List τ} (children : List τ) :
      t ∉ s.admitted → (∀ d ∈ R.deps t, s.Has R d) → R.good t →
      (∀ c, c ∈ children ↔ c ∈ s.waits (R.key t)) →
      Works R (s.accept R t) (children ++ work) s' out →
      Works R s (t :: work) s' (t :: out)

/-- Delivered, good, and with dependencies that are so, too; `parent` names
them. -/
inductive Admissible (R : Items κ τ) (D : Set τ) : τ → Prop
  | intro {t : τ} (parent : κ → τ) : t ∈ D → R.good t →
      (∀ d ∈ R.deps t, R.key (parent d) = d) →
      (∀ d ∈ R.deps t, Admissible R D (parent d)) → Admissible R D t

theorem Admissible.delivered {D : Set τ} {t : τ} (h : Admissible R D t) : t ∈ D := by
  cases h with
  | intro _ hD _ _ _ => exact hD

theorem Admissible.of_deps {D : Set τ} {t : τ} (hD : t ∈ D) (hgood : R.good t)
    (hdeps : ∀ d ∈ R.deps t, ∃ p, Admissible R D p ∧ R.key p = d) : Admissible R D t := by
  classical
  refine .intro (fun d => if h : ∃ p, Admissible R D p ∧ R.key p = d then h.choose else t) hD hgood
    (fun d hd => ?_) (fun d hd => ?_)
  · rw [dif_pos (hdeps d hd)]
    exact (hdeps d hd).choose_spec.2
  · rw [dif_pos (hdeps d hd)]
    exact (hdeps d hd).choose_spec.1

/-- More deliveries make no item inadmissible. -/
theorem Admissible.mono {D D' : Set τ} (hsub : ∀ t, Admissible R D t → t ∈ D') {t : τ}
    (h : Admissible R D t) : Admissible R D' t := by
  induction h with
  | intro parent hD hgood hkey hdeps ih =>
    exact .intro parent (hsub _ (.intro parent hD hgood hkey hdeps)) hgood hkey ih

/-! ## What the procedure computes -/

/-- Where a delivered item can be, with `work` still to do. -/
structure Law (R : Items κ τ) (D : Set τ) (work : List τ) (s : Admission κ τ) : Prop where
  sound : ∀ t ∈ s.admitted, Admissible R D t
  placed : ∀ t ∈ D, t ∈ s.admitted ∨ t ∈ work ∨
    ((∀ d ∈ R.deps t, s.Has R d) ∧ ¬ R.good t) ∨
    ((∃ d ∈ R.deps t, ¬ s.Has R d) ∧ ∀ d ∈ R.deps t, ¬ s.Has R d → t ∈ s.waits d)
  work : ∀ t ∈ work, t ∈ D
  waits : ∀ d, ∀ t ∈ s.waits d, t ∈ D

theorem law_empty (R : Items κ τ) : Law R ∅ [] (empty κ τ) where
  sound _ ht := ht.elim
  placed _ ht := ht.elim
  work _ ht := absurd ht (by simp)
  waits _ _ ht := ht.elim

/-- New deliveries go on the worklist. -/
theorem Law.deliver {D : Set τ} {s : Admission κ τ} (h : Law R D [] s) (batch : List τ) :
    Law R (fun t => t ∈ D ∨ t ∈ batch) batch s where
  sound t ht := (h.sound t ht).mono fun x hx => Or.inl hx.delivered
  placed t ht := by
    rcases ht with ht | ht
    · rcases h.placed t ht with hp | hp | hp
      · exact Or.inl hp
      · exact absurd hp (by simp)
      · exact Or.inr (Or.inr hp)
    · exact Or.inr (Or.inl ht)
  work _ ht := Or.inr ht
  waits d t ht := Or.inl (h.waits d t ht)

/-- An item that is done with leaves the worklist. -/
theorem Law.pop {D : Set τ} {s : Admission κ τ} {t : τ} {work : List τ}
    (h : Law R D (t :: work) s)
    (ht : t ∈ s.admitted ∨ ((∀ d ∈ R.deps t, s.Has R d) ∧ ¬ R.good t) ∨
      ((∃ d ∈ R.deps t, ¬ s.Has R d) ∧ ∀ d ∈ R.deps t, ¬ s.Has R d → t ∈ s.waits d)) :
    Law R D work s where
  sound := h.sound
  placed x hx := by
    rcases h.placed x hx with hp | hp | hp
    · exact Or.inl hp
    · rcases List.mem_cons.mp hp with rfl | hp
      · rcases ht with ht | ht
        · exact Or.inl ht
        · exact Or.inr (Or.inr ht)
      · exact Or.inr (Or.inl hp)
    · exact Or.inr (Or.inr hp)
  work x hx := h.work x (List.mem_cons_of_mem _ hx)
  waits := h.waits

theorem Law.park {D : Set τ} {s : Admission κ τ} {t : τ} {work : List τ}
    (h : Law R D (t :: work) s) : Law R D (t :: work) (s.park R t) where
  sound := h.sound
  placed x hx := by
    rcases h.placed x hx with hp | hp | hp | ⟨hmiss, hall⟩
    · exact Or.inl hp
    · exact Or.inr (Or.inl hp)
    · exact Or.inr (Or.inr (Or.inl hp))
    · exact Or.inr (Or.inr (Or.inr ⟨hmiss, fun d hd hd' => Or.inl (hall d hd hd')⟩))
  work := h.work
  waits d x hx := by
    rcases hx with hx | ⟨rfl, -⟩
    · exact h.waits d x hx
    · exact h.work x (List.mem_cons_self ..)

/-- Admitting an item: what waited for it is on the worklist again. -/
theorem Law.accept {D : Set τ} {s : Admission κ τ} {t : τ} {work children : List τ}
    (h : Law R D (t :: work) s) (hdeps : ∀ d ∈ R.deps t, s.Has R d) (hgood : R.good t)
    (hchildren : ∀ c, c ∈ children ↔ c ∈ s.waits (R.key t)) :
    Law R D (children ++ work) (s.accept R t) where
  sound x hx := by
    rcases hx with rfl | hx
    · refine .of_deps (h.work x (List.mem_cons_self ..)) hgood fun d hd => ?_
      obtain ⟨p, hp, hk⟩ := hdeps d hd
      exact ⟨p, h.sound p hp, hk⟩
    · exact h.sound x hx
  placed x hx := by
    have hmono : ∀ d, s.Has R d → (s.accept R t).Has R d := by
      intro d hd
      obtain ⟨p, hp, hk⟩ := hd
      exact ⟨p, Set.mem_insert_of_mem t hp, hk⟩
    rcases h.placed x hx with hp | hp | ⟨hmet, hbad⟩ | ⟨hmiss, hall⟩
    · exact Or.inl (Set.mem_insert_of_mem t hp)
    · rcases List.mem_cons.mp hp with rfl | hp
      · exact Or.inl (Set.mem_insert x s.admitted)
      · exact Or.inr (Or.inl (List.mem_append_right _ hp))
    · exact Or.inr (Or.inr (Or.inl ⟨fun d hd => hmono d (hmet d hd), hbad⟩))
    · by_cases hkey : R.key t ∈ R.deps x ∧ ¬ s.Has R (R.key t)
      · have := (hchildren x).mpr (hall _ hkey.1 hkey.2)
        exact Or.inr (Or.inl (List.mem_append_left _ this))
      · -- it misses the same keys as before
        have hsame : ∀ d ∈ R.deps x, ¬ s.Has R d → d ≠ R.key t ∧ ¬ (s.accept R t).Has R d := by
          intro d hd hd'
          have hne : d ≠ R.key t := fun e => hkey ⟨e ▸ hd, e ▸ hd'⟩
          refine ⟨hne, fun hhas => ?_⟩
          obtain ⟨p, hp, hk⟩ := hhas
          rcases hp with rfl | hp
          · exact hne hk.symm
          · exact hd' ⟨p, hp, hk⟩
        obtain ⟨d, hd, hd'⟩ := hmiss
        refine Or.inr (Or.inr (Or.inr ⟨⟨d, hd, (hsame d hd hd').2⟩, fun e he he' => ?_⟩))
        have hold : ¬ s.Has R e := fun hh => he' (hmono e hh)
        exact ⟨(hsame e he hold).1, hall e he hold⟩
  work x hx := by
    rcases List.mem_append.mp hx with hx | hx
    · exact h.waits _ x ((hchildren x).mp hx)
    · exact h.work x (List.mem_cons_of_mem _ hx)
  waits d x hx := h.waits d x hx.2

/-- The procedure keeps the law, and reports what it admits. -/
theorem Works.law {s s' : Admission κ τ} {work out : List τ} (h : Works R s work s' out) :
    ∀ {D : Set τ}, Law R D work s →
      Law R D [] s' ∧ ∀ t, t ∈ s'.admitted ↔ t ∈ s.admitted ∨ t ∈ out := by
  induction h with
  | done s =>
    intro D hlaw
    exact ⟨hlaw, by simp⟩
  | known ht _ ih =>
    intro D hlaw
    exact ih (hlaw.pop (Or.inl ht))
  | drops _ hdeps hbad _ ih =>
    intro D hlaw
    exact ih (hlaw.pop (Or.inr (Or.inl ⟨hdeps, hbad⟩)))
  | parks _ hmiss _ ih =>
    intro D hlaw
    exact ih (hlaw.park.pop (Or.inr (Or.inr ⟨hmiss, fun d hd hd' => Or.inr ⟨rfl, hd, hd'⟩⟩)))
  | @accepts s s' t work out children _ hdeps hgood hchildren _ ih =>
    intro D hlaw
    obtain ⟨hlaw', hout⟩ := ih (hlaw.accept hdeps hgood hchildren)
    refine ⟨hlaw', fun x => ?_⟩
    rw [hout, List.mem_cons]
    show (x = t ∨ x ∈ s.admitted) ∨ x ∈ out ↔ _
    tauto

/-- With nothing left to do, exactly the admissible items are admitted. -/
theorem Law.admitted_iff {D : Set τ} {s : Admission κ τ} (h : Law R D [] s) (t : τ) :
    t ∈ s.admitted ↔ Admissible R D t := by
  refine ⟨h.sound t, fun ht => ?_⟩
  induction ht with
  | @intro t parent hD hgood hkey _ ih =>
    have hmet : ∀ d ∈ R.deps t, s.Has R d := fun d hd => ⟨parent d, ih d hd, hkey d hd⟩
    rcases h.placed t hD with hp | hp | ⟨-, hbad⟩ | ⟨⟨d, hd, hd'⟩, -⟩
    · exact hp
    · exact absurd hp (by simp)
    · exact absurd hgood hbad
    · exact absurd (hmet d hd) hd'

/-- The sets of keys that the rule of admission does not lead out of. -/
def Closed (R : Items κ τ) (D : Set τ) (K : Set κ) : Prop :=
  ∀ t ∈ D, (∀ d ∈ R.deps t, d ∈ K) → R.good t → R.key t ∈ K

/-- The keys of what is admitted are the least closed set. -/
theorem Law.keys_least {D : Set τ} {s : Admission κ τ} (h : Law R D [] s) :
    IsLeast {K | Closed R D K} {k | s.Has R k} := by
  constructor
  · intro t ht hdeps hgood
    refine ⟨t, (h.admitted_iff t).mpr (.of_deps ht hgood fun d hd => ?_), rfl⟩
    obtain ⟨p, hp, hkey⟩ := hdeps d hd
    exact ⟨p, h.sound p hp, hkey⟩
  · intro K hK k hk
    obtain ⟨t, ht, rfl⟩ := hk
    replace ht := h.sound t ht
    induction ht with
    | intro parent hD hgood hkey _ ih =>
      exact hK _ hD (fun d hd => hkey d hd ▸ ih d hd) hgood

/-! ## In which order -/

/-- Nothing comes twice, or when it was there before, and everything comes after
what it depends on. -/
structure Ordered (R : Items κ τ) (s : Admission κ τ) (out : List τ) : Prop where
  nodup : out.Nodup
  new : ∀ t ∈ out, t ∉ s.admitted
  deps : ∀ pre t post, out = pre ++ t :: post →
    ∀ d ∈ R.deps t, s.Has R d ∨ ∃ p ∈ pre, R.key p = d

theorem ordered_nil (R : Items κ τ) (s : Admission κ τ) : Ordered R s [] where
  nodup := .nil
  new t ht := absurd ht (by simp)
  deps pre t post h := absurd h (by simp)

theorem Ordered.cons {s s' : Admission κ τ} {t : τ} {out : List τ} (h : Ordered R s' out)
    (hadmitted : ∀ x, x ∈ s'.admitted ↔ x = t ∨ x ∈ s.admitted) (hnew : t ∉ s.admitted)
    (hdeps : ∀ d ∈ R.deps t, s.Has R d) : Ordered R s (t :: out) := by
  refine ⟨List.nodup_cons.mpr ⟨fun ht => ?_, h.nodup⟩, fun x hx => ?_, fun pre x post he d hd => ?_⟩
  · exact h.new t ht ((hadmitted t).mpr (Or.inl rfl))
  · rcases List.mem_cons.mp hx with rfl | hx
    · exact hnew
    · exact fun hin => h.new x hx ((hadmitted x).mpr (Or.inr hin))
  · cases pre with
    | nil =>
      obtain ⟨rfl, -⟩ := List.cons.inj he
      exact Or.inl (hdeps d hd)
    | cons y pre =>
      obtain ⟨rfl, hrest⟩ := List.cons.inj he
      rcases h.deps pre x post hrest d hd with ⟨p, hp, hkey⟩ | ⟨p, hp, hkey⟩
      · rcases (hadmitted p).mp hp with rfl | hp
        · exact Or.inr ⟨p, List.mem_cons_self .., hkey⟩
        · exact Or.inl ⟨p, hp, hkey⟩
      · exact Or.inr ⟨p, List.mem_cons_of_mem _ hp, hkey⟩

/-- One worklist after the other. -/
theorem Ordered.append {s s' : Admission κ τ} {out out' : List τ} (h : Ordered R s out)
    (h' : Ordered R s' out') (hadmitted : ∀ x, x ∈ s'.admitted ↔ x ∈ s.admitted ∨ x ∈ out) :
    Ordered R s (out ++ out') := by
  refine ⟨?_, fun x hx => ?_, fun pre x post he d hd => ?_⟩
  · refine List.nodup_append.mpr ⟨h.nodup, h'.nodup, fun x hx y hy hxy => ?_⟩
    exact h'.new y hy ((hadmitted y).mpr (Or.inr (hxy ▸ hx)))
  · rcases List.mem_append.mp hx with hx | hx
    · exact h.new x hx
    · exact fun hin => h'.new x hx ((hadmitted x).mpr (Or.inl hin))
  · rcases List.append_eq_append_iff.mp he with ⟨l, rfl, hl⟩ | ⟨l, rfl, hl⟩
    · -- in the later list
      rcases h'.deps l x post hl d hd with ⟨p, hp, hkey⟩ | ⟨p, hp, hkey⟩
      · rcases (hadmitted p).mp hp with hp | hp
        · exact Or.inl ⟨p, hp, hkey⟩
        · exact Or.inr ⟨p, List.mem_append_left _ hp, hkey⟩
      · exact Or.inr ⟨p, List.mem_append_right _ hp, hkey⟩
    · cases l with
      | nil =>
        rw [List.nil_append] at hl
        rcases h'.deps [] x post hl.symm d hd with ⟨p, hp, hkey⟩ | ⟨p, hp, -⟩
        · rcases (hadmitted p).mp hp with hp | hp
          · exact Or.inl ⟨p, hp, hkey⟩
          · exact Or.inr ⟨p, by simpa using hp, hkey⟩
        · exact absurd hp (by simp)
      | cons y l =>
        obtain ⟨rfl, -⟩ := List.cons.inj hl
        exact h.deps pre x l rfl d hd

/-- What the procedure admits on the way comes in order. -/
theorem Works.ordered {s s' : Admission κ τ} {work out : List τ} (h : Works R s work s' out) :
    Ordered R s out := by
  induction h with
  | done s => exact ordered_nil R s
  | known _ _ ih => exact ih
  | drops _ _ _ _ ih => exact ih
  | parks _ _ _ ih => exact ⟨ih.nodup, ih.new, ih.deps⟩
  | accepts _ hnew hdeps _ _ _ ih => exact ih.cons (fun x => Iff.rfl) hnew hdeps

/-! ## What waits is not admitted -/

/-- Items wait under keys they miss, and what is admitted misses none. -/
structure Tight (R : Items κ τ) (s : Admission κ τ) : Prop where
  waits : ∀ d, ∀ t ∈ s.waits d, d ∈ R.deps t ∧ ¬ s.Has R d
  admitted : ∀ t ∈ s.admitted, ∀ d ∈ R.deps t, s.Has R d

theorem tight_empty (R : Items κ τ) : Tight R (empty κ τ) where
  waits _ _ ht := ht.elim
  admitted _ ht := ht.elim

theorem Tight.park {s : Admission κ τ} (h : Tight R s) (t : τ) : Tight R (s.park R t) where
  waits d x hx := by
    rcases hx with hx | ⟨rfl, hdeps, hmiss⟩
    · exact h.waits d x hx
    · exact ⟨hdeps, hmiss⟩
  admitted := h.admitted

theorem Tight.accept {s : Admission κ τ} (h : Tight R s) {t : τ}
    (hdeps : ∀ d ∈ R.deps t, s.Has R d) : Tight R (s.accept R t) where
  waits d x hx := by
    obtain ⟨hne, hx⟩ := hx
    obtain ⟨hd, hmiss⟩ := h.waits d x hx
    refine ⟨hd, fun hhas => ?_⟩
    obtain ⟨p, hp, hkey⟩ := hhas
    rcases hp with rfl | hp
    · exact hne hkey.symm
    · exact hmiss ⟨p, hp, hkey⟩
  admitted x hx d hd := by
    have hold : s.Has R d := by
      rcases hx with rfl | hx
      · exact hdeps d hd
      · exact h.admitted x hx d hd
    obtain ⟨p, hp, hkey⟩ := hold
    exact ⟨p, Set.mem_insert_of_mem t hp, hkey⟩

theorem Works.tight {s s' : Admission κ τ} {work out : List τ} (h : Works R s work s' out) :
    Tight R s → Tight R s' := by
  induction h with
  | done s => exact id
  | known _ _ ih => exact ih
  | drops _ _ _ _ ih => exact ih
  | parks _ _ _ ih => exact fun ht => ih (ht.park _)
  | accepts _ _ hdeps _ _ _ ih => exact fun ht => ih (ht.accept hdeps)

theorem Tight.not_admitted {s : Admission κ τ} (h : Tight R s) {d : κ} {t : τ}
    (ht : t ∈ s.waits d) : t ∉ s.admitted := by
  intro hin
  obtain ⟨hd, hmiss⟩ := h.waits d t ht
  exact hmiss (h.admitted t hin d hd)

end Admission

end Copycat.Lib
