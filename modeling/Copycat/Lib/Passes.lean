import Mathlib.Data.List.Basic

/-!
# One pass or two

A list of keys is looked up in a table, and what is found is taken in, one after
the other, into an accumulator that may refuse. This can be done in one pass
that stops at the first key that is missing or refused (`onePass`), or in two:
the first finds out what is missing, and only if that is nothing the second
takes in what was found (`twoPass`). Whatever the result is judged by, the two
accept the same keys (`onePass_accepts`). Where one pass just stops, two tell a
missing key from a refused one, and report all that are missing even when an
earlier one would have been refused (`onePass_rejects`).
-/

namespace Copycat.Lib

variable {κ α σ : Type} (look : κ → Option α) (take : σ → α → Option σ)

/-- Stop at the first key that is missing or refused. -/
def onePass : List κ → σ → Option σ
  | [], s => some s
  | key :: keys, s => (look key).bind fun x => (take s x).bind fun s' => onePass keys s'

/-- The keys that are missing. -/
def absent (keys : List κ) : List κ := keys.filter fun key => (look key).isNone

/-- Take in what is found only if nothing is missing. -/
def twoPass (keys : List κ) (s : σ) : Except (List κ) (Option σ) :=
  if absent look keys = [] then .ok ((keys.filterMap look).foldlM take s)
  else .error (absent look keys)

variable {look take}

theorem absent_cons_found {key : κ} {x : α} (h : look key = some x) (keys : List κ) :
    absent look (key :: keys) = absent look keys := by
  unfold absent
  rw [List.filter_cons_of_neg (by simp [h])]

theorem absent_cons_ne_nil {key : κ} (h : look key = none) (keys : List κ) :
    absent look (key :: keys) ≠ [] := by
  unfold absent
  rw [List.filter_cons_of_pos (by simp [h])]
  exact List.cons_ne_nil _ _

/-- One pass comes to the end only if nothing is missing, and then does what the
second of two passes does. -/
theorem onePass_eq (keys : List κ) : ∀ s : σ, onePass look take keys s =
    if absent look keys = [] then (keys.filterMap look).foldlM take s else none := by
  induction keys with
  | nil => exact fun _ => rfl
  | cons key keys ih =>
    intro s
    rw [onePass]
    cases hkey : look key with
    | none =>
      rw [if_neg (absent_cons_ne_nil hkey keys)]
      rfl
    | some x =>
      rw [absent_cons_found hkey, List.filterMap_cons_some hkey, List.foldlM_cons,
        Option.bind_some]
      by_cases hmiss : absent look keys = []
      · rw [if_pos hmiss]
        refine congrArg ((take s x).bind ·) (funext fun s' => ?_)
        rw [ih, if_pos hmiss]
      · rw [if_neg hmiss]
        cases take s x with
        | none => rfl
        | some s' => rw [Option.bind_some, ih, if_neg hmiss]

/-! ## Judging the result -/

theorem onePass_accepts {keys : List κ} {s : σ} {verdict : Option σ → Bool}
    (hnone : verdict none = false) : verdict (onePass look take keys s) = true ↔
      (twoPass look take keys s).map verdict = .ok true := by
  rw [onePass_eq, twoPass]
  split
  · rw [Except.map, Except.ok.injEq]
  · simp [Except.map, hnone]

theorem onePass_rejects {keys : List κ} {s : σ} {verdict : Option σ → Bool}
    (hnone : verdict none = false) : verdict (onePass look take keys s) = false ↔
      (twoPass look take keys s).map verdict = .ok false ∨
        (twoPass look take keys s).map verdict = .error (absent look keys) := by
  rw [onePass_eq, twoPass]
  split
  · simp [Except.map]
  · simp [Except.map, hnone]

end Copycat.Lib
