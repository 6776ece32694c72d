import Copycat.Bitcoin.Management
import Mathlib.Data.List.Induction

/-!
# Paths from genesis and the two walk-back loops

`PathTo pool h p` reads the chain ending in `h` off the pool: `p` is the list
of its blocks, oldest first, down to the zero hash. Heights play no part in
it. `Heights` is the local law the pool keeps, every stored height is the
`blkHeight` of its parent; `height_pos_iff` turns it into the global one, a
height is positive exactly when the whole path is there, and is its length.

With that the loops of `validate_block` can be evaluated. `descendTo_eq` and
`findCommonAncester_eq` say what they return on two complete paths: the parts
of both above their common beginning. `findMissingAncestor_ok` is the loop of
the other branch, which ends at a hash the pool does not have.
-/

namespace Copycat.Bitcoin

open Copycat.Lib

variable {ids : IdScheme} {pool pool' : Hash → Option (Block × Nat)}

/-- `p` is the chain of pooled blocks from genesis to `h`, oldest first. -/
inductive PathTo (pool : Hash → Option (Block × Nat)) : Hash → List Block → Prop
  | genesis : PathTo pool 0 []
  | snoc {h : Hash} {b : Block} {n : Nat} {p : List Block} :
      pool h = some (b, n) → PathTo pool b.prev p → PathTo pool h (p ++ [b])

/-- Every block is pooled under its own id. -/
def Keyed (ids : IdScheme) (pool : Hash → Option (Block × Nat)) : Prop :=
  ∀ h b n, pool h = some (b, n) → ids.blkId b.header = h

/-- Every stored height is the one its parent gives it. -/
def Heights (pool : Hash → Option (Block × Nat)) : Prop :=
  ∀ h b n, pool h = some (b, n) → n = blkHeight pool b.prev

/-- `pool'` has every block of `pool`. -/
def Extends (pool pool' : Hash → Option (Block × Nat)) : Prop :=
  ∀ h b n, pool h = some (b, n) → ∃ n', pool' h = some (b, n')

theorem Keyed.ne_zero (hk : Keyed ids pool) {h : Hash} {x : Block × Nat}
    (hp : pool h = some x) : h ≠ 0 := by
  obtain ⟨b, n⟩ := x
  have := hk h b n hp
  rw [← this]
  exact ids.blkId_ne_zero b.header

theorem Keyed.rank_prev (hk : Keyed ids pool) {h : Hash} {b : Block} {n : Nat}
    (hp : pool h = some (b, n)) : ids.rank b.prev < ids.rank h := by
  have := ids.rank_prev b.header
  rwa [hk h b n hp] at this

theorem PathTo.mono (he : Extends pool pool') {h : Hash} {p : List Block}
    (hp : PathTo pool h p) : PathTo pool' h p := by
  induction hp with
  | genesis => exact .genesis
  | snoc hb _ ih =>
    obtain ⟨n', hn'⟩ := he _ _ _ hb
    exact .snoc hn' ih

/-- Only the zero hash has the empty path. -/
theorem PathTo.nil_iff {h : Hash} : PathTo pool h [] ↔ h = 0 := by
  constructor
  · intro hp
    generalize hq : ([] : List Block) = q at hp
    cases hp with
    | genesis => rfl
    | snoc _ _ => simp at hq
  · rintro rfl
    exact .genesis

/-- The last block of a non-empty path is the pooled block its end names. -/
theorem PathTo.snoc_inv {h : Hash} {p : List Block} {b : Block} (hp : PathTo pool h (p ++ [b])) :
    ∃ n, pool h = some (b, n) ∧ PathTo pool b.prev p := by
  generalize hq : p ++ [b] = q at hp
  cases hp with
  | genesis => simp at hq
  | snoc hb hp' =>
    obtain ⟨rfl, hbb⟩ := List.append_inj' hq rfl
    simp only [List.cons.injEq, and_true] at hbb
    subst hbb
    exact ⟨_, hb, hp'⟩

/-- A path ends in the zero hash or in a pooled block. -/
theorem PathTo.end_cases {h : Hash} {p : List Block} (hp : PathTo pool h p) :
    (h = 0 ∧ p = []) ∨
    ∃ b n q, p = q ++ [b] ∧ pool h = some (b, n) ∧ PathTo pool b.prev q := by
  cases hp with
  | genesis => exact Or.inl ⟨rfl, rfl⟩
  | snoc hb hp' => exact Or.inr ⟨_, _, _, rfl, hb, hp'⟩

/-- A hash has at most one path. -/
theorem PathTo.unique (hk : Keyed ids pool) {h : Hash} {p q : List Block}
    (hp : PathTo pool h p) (hq : PathTo pool h q) : p = q := by
  induction hp generalizing q with
  | genesis =>
    cases hq with
    | genesis => rfl
    | snoc hb _ => exact absurd rfl (hk.ne_zero hb)
  | snoc hb _ ih =>
    cases hq with
    | genesis => exact absurd rfl (hk.ne_zero hb)
    | snoc hb' hp' =>
      rw [hb] at hb'
      simp only [Option.some.injEq, Prod.mk.injEq] at hb'
      obtain ⟨rfl, rfl⟩ := hb'
      rw [ih hp']

/-- The blocks of a path are pooled. -/
theorem PathTo.mem_pooled {h : Hash} {p : List Block} (hp : PathTo pool h p) :
    ∀ b ∈ p, ∃ h n, pool h = some (b, n) := by
  induction hp with
  | genesis => intro b hb; exact absurd hb (by simp)
  | snoc hb _ ih =>
    intro b' hb'
    rcases List.mem_append.mp hb' with h1 | h1
    · exact ih b' h1
    · exact ⟨_, _, List.mem_singleton.mp h1 ▸ hb⟩

/-- A path is no longer than the rank of its end. -/
theorem PathTo.length_le_rank (hk : Keyed ids pool) {h : Hash} {p : List Block}
    (hp : PathTo pool h p) : p.length ≤ ids.rank h := by
  induction hp with
  | genesis => exact Nat.zero_le _
  | snoc hb _ ih =>
    have := hk.rank_prev hb
    rw [List.length_append, List.length_singleton]
    omega

/-! ## Heights -/

/-- A complete path gives its end the height `p.length`, and a positive one. -/
theorem PathTo.height (hk : Keyed ids pool) (hh : Heights pool) {h : Hash} {p : List Block}
    (hp : PathTo pool h p) : ∀ {b : Block} {n : Nat}, pool h = some (b, n) →
      n = p.length ∧ 0 < n := by
  induction hp with
  | genesis => intro b n hb; exact absurd rfl (hk.ne_zero hb)
  | @snoc h b' n' p hb' hp' ih =>
    intro b n hb
    rw [hb'] at hb
    simp only [Option.some.injEq, Prod.mk.injEq] at hb
    obtain ⟨rfl, rfl⟩ := hb
    have hn := hh _ _ _ hb'
    rw [List.length_append, List.length_singleton]
    generalize hq : b'.prev = q at hp' hn ih
    cases hp' with
    | genesis =>
      rw [blkHeight, if_pos rfl] at hn
      simp [hn]
    | snoc hb'' _ =>
      obtain ⟨hlen, hpos⟩ := ih hb''
      rw [blkHeight, if_neg (hk.ne_zero hb''), hb''] at hn
      simp only [hpos, if_true] at hn
      omega

/-- A positive height means that the whole path is pooled. -/
theorem exists_path_of_pos (hk : Keyed ids pool) (hh : Heights pool) :
    ∀ (r : Nat) {h : Hash} {b : Block} {n : Nat}, ids.rank h ≤ r → pool h = some (b, n) →
      0 < n → ∃ p, PathTo pool h p := by
  intro r
  induction r with
  | zero =>
    intro h b n hr hb _
    have := hk.rank_prev hb
    omega
  | succ r ih =>
    intro h b n hr hb hpos
    have hrank := hk.rank_prev hb
    have hn := hh _ _ _ hb
    by_cases h0 : b.prev = 0
    · exact ⟨_, .snoc hb (PathTo.nil_iff.mpr h0)⟩
    · rw [blkHeight, if_neg h0] at hn
      cases hpr : pool b.prev with
      | none => rw [hpr] at hn; dsimp only at hn; omega
      | some x =>
        obtain ⟨b', n'⟩ := x
        rw [hpr] at hn
        dsimp only at hn
        by_cases hn' : n' > 0
        · obtain ⟨p, hp⟩ := ih (by omega) hpr hn'
          exact ⟨_, .snoc hb hp⟩
        · rw [if_neg hn'] at hn
          omega

/-- A pooled block has a positive height iff all its ancestors down to the
zero hash are pooled. -/
theorem height_pos_iff (hk : Keyed ids pool) (hh : Heights pool) {h : Hash} {b : Block} {n : Nat}
    (hb : pool h = some (b, n)) : 0 < n ↔ ∃ p, PathTo pool h p :=
  ⟨exists_path_of_pos hk hh _ (Nat.le_refl _) hb, fun ⟨_, hp⟩ => (hp.height hk hh hb).2⟩

/-! ## The walk-back loops -/

/-- Walking a complete path down to `chainLength` splits it there. -/
theorem descendTo_eq (hk : Keyed ids pool) (hh : Heights pool) (chainLength : Nat) :
    ∀ {height : Nat} {a : Hash} {p : List Block}, PathTo pool a p → p.length = height →
      chainLength ≤ height →
      ∃ a' lo hi, p = lo ++ hi ∧ lo.length = chainLength ∧ PathTo pool a' lo ∧
        ∀ chain, descendTo pool chainLength height a chain = .ok (a', chain ++ hi.reverse) := by
  intro height
  induction height with
  | zero =>
    intro a p hp hlen hle
    exact ⟨a, p, [], by simp, by omega, hp, by simp [descendTo]⟩
  | succ height ih =>
    intro a p hp hlen hle
    by_cases hgt : height + 1 > chainLength
    · cases hp with
      | genesis => simp at hlen
      | @snoc _ b n p hb hp' =>
        have hn := ((PathTo.snoc hb hp').height hk hh hb).1
        simp only [List.length_append, List.length_singleton] at hlen hn
        obtain ⟨a', lo, hi, rfl, hlo, hpath, heq⟩ := ih hp' (by omega) (by omega)
        refine ⟨a', lo, hi ++ [b], by simp, hlo, hpath, fun chain => ?_⟩
        rw [descendTo, if_pos hgt, hb]
        dsimp only
        rw [if_pos (by omega), heq]
        simp
    · refine ⟨a, p, [], by simp, by omega, hp, fun chain => ?_⟩
      rw [descendTo, if_neg hgt]
      simp

/-- Two lists that do not begin with the same block. -/
def Apart (new old : List Block) : Prop :=
  ∀ x new' old', new = x :: new' → old ≠ x :: old'

theorem Apart.append {new old : List Block} (h : Apart new old) (hlen : new.length = old.length)
    {x y : Block} (hxy : x ≠ y) : Apart (new ++ [x]) (old ++ [y]) := by
  intro z new' old' hn ho
  cases new with
  | nil =>
    obtain rfl : old = [] := List.eq_nil_of_length_eq_zero hlen.symm
    simp only [List.nil_append, List.cons.injEq] at hn ho
    exact hxy (hn.1.trans ho.1.symm)
  | cons a new =>
    cases old with
    | nil => simp at hlen
    | cons c old =>
      simp only [List.cons_append, List.cons.injEq] at hn ho
      exact h z new old (by rw [hn.1]) (by rw [ho.1])

/-- Walking two complete paths of one length back to their common beginning. -/
theorem findCommonAncester_eq (hk : Keyed ids pool) (hh : Heights pool) :
    ∀ {m : Nat} {a c : Hash} {p q : List Block}, p.length = m → PathTo pool a p →
      PathTo pool c q → p.length = q.length →
      ∃ anc new old, p = anc ++ new ∧ q = anc ++ old ∧ Apart new old ∧
        ∀ (fuel : Nat) (nc oc : List Block),
          findCommonAncester pool fuel a c nc oc =
            if new.length < fuel then .ok (nc ++ new.reverse, oc ++ old.reverse)
            else .error .diverge := by
  intro m
  induction m with
  | zero =>
    intro a c p q hm hp hq hlen
    obtain rfl : p = [] := List.eq_nil_of_length_eq_zero hm
    obtain rfl : q = [] := List.eq_nil_of_length_eq_zero (by omega)
    obtain rfl := PathTo.nil_iff.mp hp
    obtain rfl := PathTo.nil_iff.mp hq
    refine ⟨[], [], [], rfl, rfl, fun x _ _ h => absurd h (by simp), fun fuel nc oc => ?_⟩
    cases fuel with
    | zero => simp [findCommonAncester]
    | succ fuel => simp [findCommonAncester]
  | succ m ih =>
    intro a c p q hm hp hq hlen
    by_cases hac : a = c
    · subst hac
      obtain rfl := hp.unique hk hq
      refine ⟨p, [], [], by simp, by simp, fun x _ _ h => absurd h (by simp),
        fun fuel nc oc => ?_⟩
      cases fuel with
      | zero => simp [findCommonAncester]
      | succ fuel => simp [findCommonAncester]
    · cases hp with
      | genesis => simp at hm
      | @snoc _ b n p hb hp' =>
        cases hq with
        | genesis => simp at hlen
        | @snoc _ b' n' q hb' hq' =>
          have hn := ((PathTo.snoc hb hp').height hk hh hb).1
          have hn' := ((PathTo.snoc hb' hq').height hk hh hb').1
          simp only [List.length_append, List.length_singleton] at hm hlen hn hn'
          obtain ⟨anc, new, old, rfl, rfl, hapart, heq⟩ := ih (by omega) hp' hq' (by omega)
          have hne : b ≠ b' := fun e => hac (by rw [← hk _ _ _ hb, ← hk _ _ _ hb', e])
          have hlen' : new.length = old.length := by simpa using hlen
          refine ⟨anc, new ++ [b], old ++ [b'], by simp, by simp,
            hapart.append hlen' hne, fun fuel nc oc => ?_⟩
          cases fuel with
          | zero => simp [findCommonAncester]
          | succ fuel =>
            rw [findCommonAncester, if_neg hac, hb, hb']
            dsimp only
            rw [if_pos (by omega), heq]
            simp

/-- The search for a missing ancestor ends at a hash that is not pooled. -/
theorem findMissingAncestor_ok (hk : Keyed ids pool) (hh : Heights pool) :
    ∀ (r : Nat) {parent : Hash}, ids.rank parent ≤ r → parent ≠ 0 →
      blkHeight pool parent = 0 →
      ∃ a, pool a = none ∧ a ≠ 0 ∧ ∀ fuel, r < fuel →
        findMissingAncestor pool fuel parent = .ok a := by
  intro r
  induction r with
  | zero =>
    intro parent hr h0 hbh
    refine ⟨parent, ?_, h0, ?_⟩
    · cases hp : pool parent with
      | none => rfl
      | some x =>
        have := hk.rank_prev (b := x.1) (n := x.2) hp
        omega
    · intro fuel hf
      obtain ⟨f, rfl⟩ := Nat.exists_eq_add_of_lt hf
      have hnone : pool parent = none := by
        cases hp : pool parent with
        | none => rfl
        | some x =>
          have := hk.rank_prev (b := x.1) (n := x.2) hp
          omega
      rw [show 0 + f + 1 = f + 1 by omega, findMissingAncestor, if_neg h0, hnone]
  | succ r ih =>
    intro parent hr h0 hbh
    cases hp : pool parent with
    | none =>
      refine ⟨parent, hp, h0, fun fuel hf => ?_⟩
      obtain ⟨f, rfl⟩ := Nat.exists_eq_add_of_lt hf
      rw [findMissingAncestor, if_neg h0, hp]
    | some x =>
      obtain ⟨b, n⟩ := x
      have hn : n = 0 := by
        rw [blkHeight, if_neg h0, hp] at hbh
        dsimp only at hbh
        split at hbh <;> omega
      subst hn
      have hb := hh _ _ _ hp
      have hprev : b.prev ≠ 0 := by
        intro h
        rw [blkHeight, if_pos h] at hb
        omega
      have := hk.rank_prev hp
      obtain ⟨a, ha, ha0, hfuel⟩ := ih (by omega) hprev hb.symm
      refine ⟨a, ha, ha0, fun fuel hf => ?_⟩
      obtain ⟨f, rfl⟩ := Nat.exists_eq_add_of_lt hf
      rw [findMissingAncestor, if_neg h0, hp]
      dsimp only
      rw [if_pos rfl]
      exact hfuel _ (by omega)

end Copycat.Bitcoin
