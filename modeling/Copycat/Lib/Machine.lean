import Mathlib.Data.List.Induction

/-!
# Labelled machines and their guarded runs

A stage of the pipeline is a state together with the calls its thread makes
on it. Everything proved about a stage is proved about *runs*: sequences of
calls from the fresh state, each one under a guard that says what the caller
promises at that point. `Machine.Run` is that notion once and for all, with
the labels of the run kept in order so that a statement can speak about what
was fed in and what came out.

`Run.invariant` is the induction every safety theorem goes through: the fresh
state satisfies the invariant, and a guarded step preserves it.
`Run.invariant_trace` is the same for invariants that read the history.
-/

namespace Copycat.Lib

/-- A fresh state and a labelled step relation. -/
structure Machine (σ ι : Type) where
  start : σ
  step : σ → ι → σ → Prop

namespace Machine

variable {σ ι : Type} {M : Machine σ ι} {G G' : σ → ι → Prop}

/-- The runs of `M` whose every step meets the guard `G`, oldest label
first. -/
inductive Run (M : Machine σ ι) (G : σ → ι → Prop) : List ι → σ → Prop
  | nil : Run M G [] M.start
  | snoc {tr : List ι} {s s' : σ} {i : ι} :
      Run M G tr s → G s i → M.step s i s' → Run M G (tr ++ [i]) s'

/-- The run without steps. -/
theorem Run.nil_inv {s : σ} (h : M.Run G [] s) : s = M.start := by
  generalize htr : ([] : List ι) = tr at h
  cases h with
  | nil => rfl
  | snoc _ _ _ => simp at htr

/-- The last step of a run. -/
theorem Run.snoc_inv (tr : List ι) {i : ι} {s : σ} (h : M.Run G (tr ++ [i]) s) :
    ∃ s₀, M.Run G tr s₀ ∧ G s₀ i ∧ M.step s₀ i s := by
  generalize htr : tr ++ [i] = tr' at h
  cases h with
  | nil => simp at htr
  | snoc hrun hg hs =>
    obtain ⟨rfl, hi⟩ := List.append_inj' htr rfl
    simp only [List.cons.injEq, and_true] at hi
    subst hi
    exact ⟨_, hrun, hg, hs⟩

/-- The invariant rule over histories. -/
theorem Run.invariant_trace (Inv : List ι → σ → Prop) (hstart : Inv [] M.start)
    (hstep : ∀ tr s i s', Inv tr s → G s i → M.step s i s' → Inv (tr ++ [i]) s')
    {tr : List ι} {s : σ} (h : M.Run G tr s) : Inv tr s := by
  induction h with
  | nil => exact hstart
  | snoc _ hg hs ih => exact hstep _ _ _ _ ih hg hs

/-- The invariant rule. -/
theorem Run.invariant (Inv : σ → Prop) (hstart : Inv M.start)
    (hstep : ∀ s i s', Inv s → G s i → M.step s i s' → Inv s')
    {tr : List ι} {s : σ} (h : M.Run G tr s) : Inv s := by
  induction h with
  | nil => exact hstart
  | snoc _ hg hs ih => exact hstep _ _ _ ih hg hs

/-- What a guard says of the labels alone holds of all labels of a run. -/
theorem Run.labels {P : ι → Prop} {tr : List ι} {s : σ} (h : M.Run (fun _ i => P i) tr s) :
    ∀ i ∈ tr, P i := by
  induction h with
  | nil => exact fun i hi => absurd hi (by simp)
  | snoc _ hg _ ih =>
    intro i hi
    rcases List.mem_append.mp hi with hi | hi
    · exact ih i hi
    · rw [List.mem_singleton.mp hi]
      exact hg

/-- Every label of a run is that of a step. -/
theorem Run.mem_step {tr : List ι} {s : σ} (h : M.Run G tr s) {i : ι} (hi : i ∈ tr) :
    ∃ s s', M.step s i s' := by
  induction h with
  | nil => exact absurd hi List.not_mem_nil
  | snoc _ _ hs ih =>
    rcases List.mem_append.mp hi with hi | hi
    · exact ih hi
    · rw [List.mem_singleton.mp hi]
      exact ⟨_, _, hs⟩

/-- A run under one guard is a run under another that its labels meet. -/
theorem Run.mono {tr : List ι} {s : σ} (h : M.Run G tr s) :
    (∀ s, ∀ i ∈ tr, G s i → G' s i) → M.Run G' tr s := by
  induction h with
  | nil => exact fun _ => .nil
  | snoc _ hg hs ih =>
    intro hG
    exact .snoc (ih fun s i hi => hG s i (by simp [hi])) (hG _ _ (by simp) hg) hs

/-- The same where the new guard may rest on the run so far. -/
theorem Run.strengthen {tr : List ι} {s : σ} (h : M.Run G tr s) :
    (∀ pre i suf s, tr = pre ++ i :: suf → M.Run G' pre s → G s i → G' s i) →
      M.Run G' tr s := by
  induction h with
  | nil => exact fun _ => .nil
  | @snoc tr s s' i _ hg hs ih =>
    intro hG
    have hrun := ih fun pre j suf s he => hG pre j (suf ++ [i]) s (by simp [he])
    exact hrun.snoc (hG tr i [] s rfl hrun hg) hs

/-- A part of a machine runs by itself: each step is one of the part, or leaves
it alone. -/
theorem Run.project {ρ κ : Type} {N : Machine ρ κ} (label : ι → Option κ) (part : σ → ρ)
    (hstart : part M.start = N.start)
    (hstep : ∀ s i s', M.step s i s' → (label i = none ∧ part s' = part s) ∨
      ∃ k, label i = some k ∧ N.step (part s) k (part s'))
    {tr : List ι} {s : σ} (h : M.Run G tr s) :
    N.Run (fun _ _ => True) (tr.filterMap label) (part s) := by
  induction h with
  | nil =>
    rw [hstart]
    exact .nil
  | snoc _ _ hs ih =>
    rw [List.filterMap_append]
    rcases hstep _ _ _ hs with ⟨hnone, hsame⟩ | ⟨k, hk, hs⟩
    · rw [List.filterMap_cons_none hnone, List.filterMap_nil, List.append_nil, hsame]
      exact ih
    · rw [List.filterMap_cons_some hk]
      exact .snoc ih trivial hs

/-! ## Paths between two states -/

/-- The guarded steps from one state to another, oldest label first. -/
inductive Path (M : Machine σ ι) (G : σ → ι → Prop) (s : σ) : List ι → σ → Prop
  | nil : Path M G s [] s
  | snoc {tr : List ι} {s₁ s₂ : σ} {i : ι} :
      Path M G s tr s₁ → G s₁ i → M.step s₁ i s₂ → Path M G s (tr ++ [i]) s₂

theorem Path.single {s s' : σ} {i : ι} (hg : G s i) (h : M.step s i s') : M.Path G s [i] s' :=
  .snoc .nil hg h

theorem Path.append {s s₁ s₂ : σ} {tr tr' : List ι} (h : M.Path G s tr s₁)
    (h' : M.Path G s₁ tr' s₂) : M.Path G s (tr ++ tr') s₂ := by
  induction h' with
  | nil => rwa [List.append_nil]
  | snoc _ hg hs ih =>
    rw [← List.append_assoc]
    exact .snoc ih hg hs

/-- The invariant rule for paths. -/
theorem Path.invariant (Inv : σ → Prop)
    (hstep : ∀ s i s', Inv s → G s i → M.step s i s' → Inv s')
    {tr : List ι} {s s' : σ} (h : M.Path G s tr s') (hs : Inv s) : Inv s' := by
  induction h with
  | nil => exact hs
  | snoc _ hg hst ih => exact hstep _ _ _ ih hg hst

/-- A run passes through the state its first labels lead to. -/
theorem Run.split (tr : List ι) : ∀ {tr' : List ι} {s : σ}, M.Run G (tr ++ tr') s →
    ∃ s₀, M.Run G tr s₀ ∧ M.Path G s₀ tr' s := by
  intro tr'
  induction tr' using List.reverseRecOn with
  | nil =>
    intro s h
    rw [List.append_nil] at h
    exact ⟨s, h, .nil⟩
  | append_singleton tr' i ih =>
    intro s h
    rw [← List.append_assoc] at h
    obtain ⟨s₁, h₁, hg, hs⟩ := h.snoc_inv
    obtain ⟨s₀, h₀, hp⟩ := ih h₁
    exact ⟨s₀, h₀, hp.snoc hg hs⟩

/-- A run goes on along a path. -/
theorem Run.append {tr tr' : List ι} {s s' : σ} (h : M.Run G tr s) (h' : M.Path G s tr' s') :
    M.Run G (tr ++ tr') s' := by
  induction h' with
  | nil => rwa [List.append_nil]
  | snoc _ hg hs ih =>
    rw [← List.append_assoc]
    exact .snoc ih hg hs

/-! ## Evaluated runs -/

section Evaluation

variable {κ : Type} {eval : σ → κ → Option (ι × σ)} {check : σ → ι → Bool}

/-- The run on given inputs, for a function that makes a step of each, as long as
all steps pass a check. -/
def evaluate (eval : σ → κ → Option (ι × σ)) (check : σ → ι → Bool) :
    List κ → σ → Option (List ι × σ)
  | [], s => some ([], s)
  | k :: ks, s =>
    (eval s k).bind fun r =>
      if check s r.1 then (evaluate eval check ks r.2).map fun rest => (r.1 :: rest.1, rest.2)
      else none

theorem Run.evaluated (heval : ∀ s k i s', eval s k = some (i, s') → M.step s i s')
    {ks : List κ} : ∀ {tr tr' : List ι} {s s' : σ}, M.Run (fun s i => check s i = true) tr s →
      evaluate eval check ks s = some (tr', s') →
      M.Run (fun s i => check s i = true) (tr ++ tr') s' := by
  induction ks with
  | nil =>
    intro tr tr' s s' h he
    obtain ⟨rfl, rfl⟩ := Prod.mk.inj (Option.some.inj he)
    rwa [List.append_nil]
  | cons k ks ih =>
    intro tr tr' s s' h he
    obtain ⟨⟨i, s₁⟩, hstep, he⟩ := Option.bind_eq_some_iff.mp he
    split at he
    · rename_i hcheck
      obtain ⟨⟨rest, s₂⟩, hrest, he⟩ := Option.map_eq_some_iff.mp he
      obtain ⟨rfl, rfl⟩ := Prod.mk.inj he
      have hrun := ih (h.snoc hcheck (heval s k i s₁ hstep)) hrest
      rwa [List.append_assoc] at hrun
    · exact absurd he (by simp)

/-- What evaluation finds is so at the end of a run. -/
theorem exists_run (eval : σ → κ → Option (ι × σ))
    (heval : ∀ s k i s', eval s k = some (i, s') → M.step s i s')
    (check : σ → ι → Bool) (ks : List κ) (q : List ι × σ → Bool)
    (h : (evaluate eval check ks M.start).any q = true) :
    ∃ tr s, M.Run (fun s i => check s i = true) tr s ∧ q (tr, s) = true := by
  obtain ⟨⟨tr, s⟩, he, hq⟩ := (Option.any_eq_true _ _).mp h
  exact ⟨tr, s, Run.evaluated heval .nil he, hq⟩

end Evaluation

end Machine

end Copycat.Lib
