import Mathlib.MeasureTheory.Integral.IntervalIntegral.Basic

/-!
# A level that jumps at given times

`level jumps t` is the sum of all jumps up to time `t`. Its integral is what each
jump contributes from its own time on (`integral_level`), so an account that adds
up windows between jumps can be compared with the integral without looking at the
order of the jumps.
-/

namespace Copycat.Lib

open MeasureTheory

/-- The sum of the jumps, given by time and change, up to time `t`. -/
noncomputable def level (jumps : List (ℝ × ℝ)) (t : ℝ) : ℝ :=
  (jumps.map fun j => if j.1 ≤ t then j.2 else 0).sum

/-- What the jumps contribute up to time `t`. -/
def area (jumps : List (ℝ × ℝ)) (t : ℝ) : ℝ := (jumps.map fun j => j.2 * (t - j.1)).sum

theorem level_cons (j : ℝ × ℝ) (jumps : List (ℝ × ℝ)) (t : ℝ) :
    level (j :: jumps) t = (if j.1 ≤ t then j.2 else 0) + level jumps t := rfl

/-- The last jump adds a rectangle. -/
theorem area_snoc (jumps : List (ℝ × ℝ)) (j : ℝ × ℝ) (t : ℝ) :
    area (jumps ++ [j]) t = area jumps t + j.2 * (t - j.1) := by
  simp [area]

/-! ## One jump -/

theorem monotone_step (s : ℝ) : Monotone fun x : ℝ => if s ≤ x then (1 : ℝ) else 0 := by
  intro x y hxy
  dsimp only
  by_cases hx : s ≤ x
  · rw [if_pos hx, if_pos (hx.trans hxy)]
  · rw [if_neg hx]
    split
    · exact zero_le_one
    · exact le_rfl

theorem intervalIntegrable_step (s c a b : ℝ) :
    IntervalIntegrable (fun x : ℝ => if s ≤ x then c else 0) volume a b := by
  have h := ((monotone_step s).intervalIntegrable (μ := volume) (a := a) (b := b)).const_mul c
  refine h.congr fun x _ => ?_
  rw [mul_ite, mul_one, mul_zero]

/-- A jump contributes from its time on. -/
theorem integral_step {a s b : ℝ} (c : ℝ) (has : a ≤ s) (hsb : s ≤ b) :
    ∫ x in a..b, (if s ≤ x then c else 0) = c * (b - s) := by
  have hbefore : ∫ x in a..s, (if s ≤ x then c else 0) = ∫ _ in a..s, (0 : ℝ) :=
    intervalIntegral.integral_congr_Ioo_of_le has fun x hx => if_neg (not_le.mpr hx.2)
  have hafter : ∫ x in s..b, (if s ≤ x then c else 0) = ∫ _ in s..b, c :=
    intervalIntegral.integral_congr_Ioo_of_le hsb fun x hx => if_pos hx.1.le
  calc ∫ x in a..b, (if s ≤ x then c else 0)
      = (∫ x in a..s, (if s ≤ x then c else 0)) + ∫ x in s..b, (if s ≤ x then c else 0) :=
        (intervalIntegral.integral_add_adjacent_intervals (intervalIntegrable_step s c a s)
          (intervalIntegrable_step s c s b)).symm
    _ = c * (b - s) := by
        rw [hbefore, hafter, intervalIntegral.integral_zero, intervalIntegral.integral_const,
          smul_eq_mul, zero_add, mul_comm]

/-! ## All jumps -/

/-- A level with finitely many jumps has an integral. -/
theorem intervalIntegrable_level (jumps : List (ℝ × ℝ)) (a b : ℝ) :
    IntervalIntegrable (level jumps) volume a b := by
  induction jumps with
  | nil => exact intervalIntegrable_const
  | cons j jumps ih => exact (intervalIntegrable_step j.1 j.2 a b).add ih

/-- The integral of the level is the area. -/
theorem integral_level {jumps : List (ℝ × ℝ)} {a b : ℝ}
    (h : ∀ j ∈ jumps, a ≤ j.1 ∧ j.1 ≤ b) : ∫ x in a..b, level jumps x = area jumps b := by
  induction jumps with
  | nil => exact intervalIntegral.integral_zero
  | cons j jumps ih =>
    obtain ⟨⟨ha, hb⟩, hrest⟩ := List.forall_mem_cons.mp h
    simp only [level_cons]
    rw [intervalIntegral.integral_add (intervalIntegrable_step j.1 j.2 a b)
      (intervalIntegrable_level jumps a b), integral_step j.2 ha hb, ih hrest]
    rfl

end Copycat.Lib
