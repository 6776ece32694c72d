import Mathlib.Algebra.BigOperators.Group.Multiset.Basic
import Mathlib.Data.Fintype.EquivFin
import Mathlib.Logic.Relation

/-!
# Tokens that are replaced by others

Any number of tokens are in flight. One is taken at a time, whichever, and
replaced by what `next` says; tokens on which `next` says nothing stay. This is
what messages do that are answered by messages, when the answer does not depend
on what was received before.

Such a system runs forever iff some token can be led back to itself
(`endless_iff`), given that only finitely many tokens can turn up at all. When
it does not, every token has a weight, the number of steps it causes, and so
there is a bound on the length of the runs (`exists_bound`).
-/

namespace Copycat.Lib

open Relation (ReflTransGen TransGen)

variable {α : Type} {next : α → Option (Multiset α)} {s s' : Multiset α}

/-- A token is handled. -/
inductive Spreads (next : α → Option (Multiset α)) : Multiset α → Multiset α → Prop
  | handle {a : α} {out rest : Multiset α} :
      next a = some out → Spreads next (a ::ₘ rest) (out + rest)

/-- Handling the first token makes the second. -/
def Leads (next : α → Option (Multiset α)) (a b : α) : Prop :=
  ∃ out, next a = some out ∧ b ∈ out

/-- The tokens that can turn up. -/
def Turns (next : α → Option (Multiset α)) (s : Multiset α) : Set α :=
  fun b => ∃ a ∈ s, ReflTransGen (Leads next) a b

/-- A run of `n` steps. -/
def Steps (next : α → Option (Multiset α)) (s : Multiset α) (n : Nat) : Prop :=
  ∃ f : Nat → Multiset α, f 0 = s ∧ ∀ i < n, Spreads next (f i) (f (i + 1))

/-- A run without end. -/
def Endless (next : α → Option (Multiset α)) (s : Multiset α) : Prop :=
  ∃ f : Nat → Multiset α, f 0 = s ∧ ∀ i, Spreads next (f i) (f (i + 1))

theorem Endless.steps (h : Endless next s) (n : Nat) : Steps next s n := by
  obtain ⟨f, hf, hstep⟩ := h
  exact ⟨f, hf, fun i _ => hstep i⟩

theorem Turns.lead {a b : α} (ha : a ∈ Turns next s) (hab : Leads next a b) :
    b ∈ Turns next s := by
  obtain ⟨a₀, ha₀, hreach⟩ := ha
  exact ⟨a₀, ha₀, hreach.tail hab⟩

/-- Only tokens that can turn up do. -/
theorem turns_of_spreads {s₀ : Multiset α} (h : Spreads next s s')
    (hs : ∀ a ∈ s, a ∈ Turns next s₀) : ∀ a ∈ s', a ∈ Turns next s₀ := by
  cases h with
  | @handle a out rest hnext =>
    intro b hb
    rcases Multiset.mem_add.mp hb with hb | hb
    · exact Turns.lead (hs a (Multiset.mem_cons_self a rest)) ⟨out, hnext, hb⟩
    · exact hs b (Multiset.mem_cons_of_mem hb)

/-! ## Without circles -/

/-- Where no token leads back to itself, each one has a weight: one more than
what it is replaced by. -/
theorem exists_weight_of_acyclic (hfin : (Turns next s).Finite)
    (hacyclic : ∀ b ∈ Turns next s, ¬ TransGen (Leads next) b b) :
    ∃ w : α → Nat, ∀ b ∈ Turns next s, ∀ out, next b = some out → w b = (out.map w).sum + 1 := by
  classical
  have : Finite (Turns next s) := hfin
  have : IsTrans (Turns next s) fun y x => TransGen (Leads next) x y :=
    ⟨fun _ _ _ hxy hyz => TransGen.trans hyz hxy⟩
  have : Std.Irrefl fun y x : Turns next s => TransGen (Leads next) x.1 y.1 :=
    ⟨fun x => hacyclic x.1 x.2⟩
  have hwf := Finite.wellFounded_of_trans_of_irrefl
    fun y x : Turns next s => TransGen (Leads next) x.1 y.1
  -- the same over all tokens
  have hall : WellFounded fun y x => x ∈ Turns next s ∧ Leads next x y := by
    refine ⟨fun x => ?_⟩
    by_cases hx : x ∈ Turns next s
    · have hacc : ∀ x : Turns next s,
          Acc (fun y x => x ∈ Turns next s ∧ Leads next x y) x.1 := by
        intro x
        induction x using hwf.induction with
        | h x ih => exact ⟨x.1, fun y hy => ih ⟨y, Turns.lead x.2 hy.2⟩ (TransGen.single hy.2)⟩
      exact hacc ⟨x, hx⟩
    · exact ⟨x, fun y hy => absurd hy.1 hx⟩
  refine ⟨hall.fix fun x ih => if (next x).isSome then
    (((next x).getD 0).map fun y => if h : x ∈ Turns next s ∧ Leads next x y then ih y h
      else 0).sum + 1 else 0, fun b hb out hout => ?_⟩
  rw [hall.fix_eq, if_pos (by rw [hout]; rfl), hout, Option.getD_some]
  congr 2
  refine Multiset.map_congr rfl fun y hy => ?_
  rw [dif_pos ⟨hb, out, hout, hy⟩]

/-- The total weight goes down by one in every step. -/
theorem weight_spreads {w : α → Nat} {R : Set α}
    (hw : ∀ b ∈ R, ∀ out, next b = some out → w b = (out.map w).sum + 1)
    (h : Spreads next s s') (hs : ∀ a ∈ s, a ∈ R) :
    (s.map w).sum = (s'.map w).sum + 1 := by
  cases h with
  | @handle a out rest hnext =>
    rw [Multiset.map_cons, Multiset.sum_cons, Multiset.map_add, Multiset.sum_add,
      hw a (hs a (Multiset.mem_cons_self a rest)) out hnext]
    omega

/-- Without circles the runs are bounded. -/
theorem exists_bound (hfin : (Turns next s).Finite)
    (hacyclic : ∀ b ∈ Turns next s, ¬ TransGen (Leads next) b b) :
    ∃ bound, ∀ n, Steps next s n → n ≤ bound := by
  obtain ⟨w, hw⟩ := exists_weight_of_acyclic hfin hacyclic
  refine ⟨(s.map w).sum, fun n hn => ?_⟩
  obtain ⟨f, hf, hstep⟩ := hn
  have hrun : ∀ i ≤ n, (∀ a ∈ f i, a ∈ Turns next s) ∧
      ((f i).map w).sum + i = (s.map w).sum := by
    intro i
    induction i with
    | zero =>
      intro _
      rw [hf]
      exact ⟨fun a ha => ⟨a, ha, .refl⟩, rfl⟩
    | succ i ih =>
      intro hi
      obtain ⟨hturns, hsum⟩ := ih (by omega)
      have hstep := hstep i (by omega)
      refine ⟨turns_of_spreads hstep hturns, ?_⟩
      have hless := weight_spreads hw hstep hturns
      omega
  have hsum := (hrun n le_rfl).2
  omega

/-! ## Around a circle -/

/-- A token that can be led to one that leads back to itself can be led on
forever. -/
theorem exists_walk {a b : α} (hab : ReflTransGen (Leads next) a b)
    (hcircle : TransGen (Leads next) b b) :
    ∃ c : Nat → α, c 0 = a ∧ ∀ n, Leads next (c n) (c (n + 1)) := by
  have hstep : ∀ x : {x // ReflTransGen (Leads next) x b},
      ∃ y : {x // ReflTransGen (Leads next) x b}, Leads next x.1 y.1 := by
    intro x
    rcases x.2.cases_head with hx | ⟨y, hxy, hy⟩
    · obtain ⟨y, hby, hy⟩ := TransGen.head'_iff.mp hcircle
      exact ⟨⟨y, hy⟩, by rw [hx]; exact hby⟩
    · exact ⟨⟨y, hy⟩, hxy⟩
  choose g hg using hstep
  refine ⟨fun n => (g^[n] ⟨a, hab⟩).1, rfl, fun n => ?_⟩
  dsimp only
  rw [Function.iterate_succ_apply']
  exact hg _

/-- The run that handles the tokens `c 0`, `c 1` and so on. -/
noncomputable def follow (c : Nat → α) (out : Nat → Multiset α) (s : Multiset α) :
    Nat → Multiset α
  | 0 => s
  | n + 1 =>
    letI := Classical.decEq α
    out n + (follow c out s n).erase (c n)

theorem endless_of_walk {c : Nat → α} (hstart : c 0 ∈ s)
    (hc : ∀ n, Leads next (c n) (c (n + 1))) : Endless next s := by
  let _ := Classical.decEq α
  choose out hout hmem using hc
  have hin : ∀ n, c n ∈ follow c out s n := by
    intro n
    cases n with
    | zero => exact hstart
    | succ n => exact Multiset.mem_add.mpr (Or.inl (hmem n))
  refine ⟨follow c out s, rfl, fun n => ?_⟩
  have hspread : Spreads next (c n ::ₘ (follow c out s n).erase (c n))
      (out n + (follow c out s n).erase (c n)) := .handle (hout n)
  rw [Multiset.cons_erase (hin n)] at hspread
  exact hspread

/-- **Runs without end** are those around a circle. -/
theorem endless_iff (hfin : (Turns next s).Finite) :
    Endless next s ↔ ∃ b ∈ Turns next s, TransGen (Leads next) b b := by
  constructor
  · intro h
    by_contra hno
    obtain ⟨bound, hbound⟩ := exists_bound hfin fun b hb hcircle => hno ⟨b, hb, hcircle⟩
    exact absurd (hbound (bound + 1) (h.steps _)) (by omega)
  · intro h
    obtain ⟨b, ⟨a, ha, hab⟩, hcircle⟩ := h
    obtain ⟨c, rfl, hc⟩ := exists_walk hab hcircle
    exact endless_of_walk ha hc

end Copycat.Lib
