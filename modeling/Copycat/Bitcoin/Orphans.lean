import Copycat.Bitcoin.Management
import Copycat.Lib.Forest

/-!
# `update_orphans_and_return_tail`

The recursion that gives a whole tree of waiting blocks their heights once its
root is connected. It empties `orphan_blocks` while it iterates the sets it
took out of it and carries the deepest block found so far across siblings, in
whatever order the hash set yields them.

`Updated O s h ht r` is its contract, stated over the orphan map `O` before the
first call: below `h` everything has the height its depth gives it and no
waiting entry is left, everything else is as it was, and the block returned is
one of greatest depth. `updateOrphans_cases` proves it together with the only
other possible outcome, running out of fuel, which takes a tree deeper than
the fuel: the recursion neither panics nor loops.
-/

namespace Copycat.Bitcoin

open Copycat.Lib

/-- `c` waits for `p`. -/
def Listed (orphans : Hash → Option (Finset Hash)) (p c : Hash) : Prop :=
  ∃ children, orphans p = some children ∧ c ∈ children

/-- What `update_orphans_and_return_tail` leaves behind and returns, for a call
on the block `h` at height `ht`. -/
structure Updated (O : Hash → Option (Finset Hash)) (s : Pools) (h : Hash) (ht : Nat)
    (r : Pools × Hash × Nat) : Prop where
  height : ∀ d c b n, Desc (Listed O) h (d + 1) c → s.blockPool c = some (b, n) →
    r.1.blockPool c = some (b, ht + (d + 1))
  pool_frame : ∀ c, (∀ d, ¬ Desc (Listed O) h (d + 1) c) → r.1.blockPool c = s.blockPool c
  gone : ∀ d p, Desc (Listed O) h d p → r.1.orphanBlocks p = none
  orphan_frame : ∀ p, (∀ d, ¬ Desc (Listed O) h d p) → r.1.orphanBlocks p = s.orphanBlocks p
  tail : ∃ d, Desc (Listed O) h d r.2.1 ∧ r.2.2 = ht + d
  deepest : ∀ d c, Desc (Listed O) h d c → ht + d ≤ r.2.2

/-- The same contract for the loop over the children `l`, entered with the
pools `s` and the deepest block so far `best`. -/
structure UpdatedAll (O : Hash → Option (Finset Hash)) (s : Pools) (l : List Hash) (ht : Nat)
    (best : Hash × Nat) (r : Pools × Hash × Nat) : Prop where
  height : ∀ x ∈ l, ∀ d c b n, Desc (Listed O) x d c → s.blockPool c = some (b, n) →
    r.1.blockPool c = some (b, ht + 1 + d)
  pool_frame : ∀ c, (∀ x ∈ l, ∀ d, ¬ Desc (Listed O) x d c) → r.1.blockPool c = s.blockPool c
  gone : ∀ x ∈ l, ∀ d p, Desc (Listed O) x d p → r.1.orphanBlocks p = none
  orphan_frame : ∀ p, (∀ x ∈ l, ∀ d, ¬ Desc (Listed O) x d p) →
    r.1.orphanBlocks p = s.orphanBlocks p
  tail : r.2 = best ∨ ∃ x ∈ l, ∃ d, Desc (Listed O) x d r.2.1 ∧ r.2.2 = ht + 1 + d
  deepest : best.2 ≤ r.2.2 ∧ ∀ x ∈ l, ∀ d c, Desc (Listed O) x d c → ht + 1 + d ≤ r.2.2

variable {O : Hash → Option (Finset Hash)} {rank : Hash → Nat}

/-- What a call on `h` needs of the pools: below `h` the orphan map is still
the original one, and every waiting block is pooled. -/
structure Ready (O : Hash → Option (Finset Hash)) (s : Pools) (h : Hash) : Prop where
  agree : ∀ d p, Desc (Listed O) h d p → s.orphanBlocks p = O p
  pooled : ∀ d c, Desc (Listed O) h d c → ∃ b n, s.blockPool c = some (b, n)

/-- Writing the height of `h` itself keeps the call ready. -/
theorem Ready.setHeight {s : Pools} {h : Hash} {b : Block} {m : Nat} (hr : Ready O s h) :
    Ready O { s with blockPool := Function.update s.blockPool h (some (b, m)) } h := by
  refine ⟨hr.agree, fun d c hd => ?_⟩
  by_cases hc : c = h
  · subst hc
    exact ⟨b, m, by simp⟩
  · obtain ⟨b', n', hb'⟩ := hr.pooled d c hd
    exact ⟨b', n', by simpa [hc] using hb'⟩

/-- A finished call on one child leaves its siblings ready. -/
theorem Ready.sibling (hF : IsForest (Listed O) rank) {s : Pools} {h x y : Hash} {m : Nat}
    {b : Block} {r : Pools × Hash × Nat} (hx : Listed O h x) (hy : Listed O h y) (hne : x ≠ y)
    (hr : Ready O s y)
    (hu : Updated O { s with blockPool := Function.update s.blockPool x (some (b, m)) } x m r) :
    Ready O r.1 y := by
  have hdisj : ∀ d e z, Desc (Listed O) x d z → ¬ Desc (Listed O) y e z :=
    fun d e z h1 h2 => hF.disjoint hx hy hne h1 h2
  constructor
  · intro d p hp
    rw [hu.orphan_frame p (fun e he => hdisj e d p he hp)]
    exact hr.agree d p hp
  · intro d c hc
    have hcx : c ≠ x := by
      rintro rfl
      exact hdisj 0 d c (.refl c) hc
    obtain ⟨b', n', hb'⟩ := hr.pooled d c hc
    refine ⟨b', n', ?_⟩
    rw [hu.pool_frame c (fun e he => hdisj (e + 1) d c he hc)]
    simpa [hcx] using hb'

/-- The heights below `x` after the call on `x`. -/
theorem Updated.height_below (hF : IsForest (Listed O) rank) {s : Pools} {x : Hash} {m : Nat}
    {b : Block} {r : Pools × Hash × Nat} (hb : ∃ n, s.blockPool x = some (b, n))
    (hu : Updated O { s with blockPool := Function.update s.blockPool x (some (b, m)) } x m r)
    {d : Nat} {c : Hash} {b' : Block} {n' : Nat} (hc : Desc (Listed O) x d c)
    (hs : s.blockPool c = some (b', n')) : r.1.blockPool c = some (b', m + d) := by
  cases d with
  | zero =>
    obtain rfl := Desc.zero_iff.mp hc
    obtain ⟨n, hn⟩ := hb
    rw [hn] at hs
    simp only [Option.some.injEq, Prod.mk.injEq] at hs
    obtain ⟨rfl, rfl⟩ := hs
    rw [hu.pool_frame x (fun e he => by have := he.rank_le hF; omega)]
    simp
  | succ d =>
    have hcx : c ≠ x := by
      rintro rfl
      have := hc.rank_le hF
      omega
    exact hu.height d c b' n' hc (by simpa [hcx] using hs)

/-- The loop body of `update_orphans_and_return_tail`. -/
def orphanStep (ord : HashOrder) (fuel height : Nat) (acc : Pools × Hash × Nat) (child : Hash) :
    Res (Pools × Hash × Nat) :=
  match acc.1.blockPool child with
  | none => .error .panic
  | some (block, _) =>
    (updateOrphansAndReturnTail ord fuel
      { acc.1 with
        blockPool := Function.update acc.1.blockPool child (some (block, height + 1)) }
      child (height + 1)) >>= fun r =>
    .ok (if r.2.2 > acc.2.2 then r else (r.1, acc.2))

/-- The call on a child, and then the loop over its siblings. -/
theorem UpdatedAll.cons (hF : IsForest (Listed O) rank) {s : Pools} {h x : Hash} {l : List Hash}
    {ht : Nat} {best : Hash × Nat} {b : Block} {r q : Pools × Hash × Nat} (hx : Listed O h x)
    (hl : ∀ y ∈ l, Listed O h y) (hxl : x ∉ l) (hb : ∃ n, s.blockPool x = some (b, n))
    (hu : Updated O { s with blockPool := Function.update s.blockPool x (some (b, ht + 1)) } x
      (ht + 1) r)
    (hall : UpdatedAll O r.1 l ht (if r.2.2 > best.2 then r.2 else best) q) :
    UpdatedAll O s (x :: l) ht best q := by
  have hdisj : ∀ y ∈ l, ∀ d e z, Desc (Listed O) x d z → ¬ Desc (Listed O) y e z := by
    intro y hy d e z h1 h2
    have hne : x ≠ y := fun e => hxl (e ▸ hy)
    exact hF.disjoint hx (hl y hy) hne h1 h2
  have hout : ∀ c, (∀ e, ¬ Desc (Listed O) x e c) → r.1.blockPool c = s.blockPool c := by
    intro c hc
    rw [hu.pool_frame c (fun e => hc (e + 1))]
    have hcx : c ≠ x := fun e => hc 0 (e ▸ .refl c)
    simp [hcx]
  constructor
  · intro y hy d c b' n' hd hs
    rcases List.mem_cons.mp hy with rfl | hy'
    · rw [hall.pool_frame c (fun z hz e => hdisj z hz d e c hd)]
      exact hu.height_below hF hb hd hs
    · refine hall.height y hy' d c b' n' hd ?_
      rw [hout c (fun e he => hdisj y hy' e d c he hd)]
      exact hs
  · intro c hc
    rw [hall.pool_frame c (fun y hy => hc y (List.mem_cons_of_mem _ hy))]
    exact hout c (hc x (List.mem_cons_self ..))
  · intro y hy d p hd
    rcases List.mem_cons.mp hy with rfl | hy'
    · rw [hall.orphan_frame p (fun z hz e => hdisj z hz d e p hd)]
      exact hu.gone d p hd
    · exact hall.gone y hy' d p hd
  · intro p hp
    rw [hall.orphan_frame p (fun y hy => hp y (List.mem_cons_of_mem _ hy))]
    exact hu.orphan_frame p (hp x (List.mem_cons_self ..))
  · rcases hall.tail with hbest | ⟨y, hy, d, hd⟩
    · by_cases hgt : r.2.2 > best.2
      · obtain ⟨d, hd, hdeq⟩ := hu.tail
        refine Or.inr ⟨x, List.mem_cons_self .., d, ?_⟩
        rw [hbest, if_pos hgt]
        exact ⟨hd, hdeq⟩
      · left
        rw [hbest, if_neg hgt]
    · exact Or.inr ⟨y, List.mem_cons_of_mem _ hy, d, hd⟩
  · have hbest := hall.deepest.1
    have hmax : best.2 ≤ q.2.2 ∧ r.2.2 ≤ q.2.2 := by
      split at hbest <;> omega
    refine ⟨hmax.1, fun y hy d c hd => ?_⟩
    rcases List.mem_cons.mp hy with rfl | hy'
    · exact Nat.le_trans (hu.deepest d c hd) hmax.2
    · exact hall.deepest.2 y hy' d c hd

/-- The loop over the children, given the contract of the calls it makes. -/
theorem orphanLoop_cases (ord : HashOrder)
    (hF : IsForest (Listed O) rank) {B fuel ht : Nat} {h : Hash}
    (ih : ∀ (s : Pools) (x : Hash), Listed O h x → Ready O s x →
      (∃ r, updateOrphansAndReturnTail ord fuel s x (ht + 1) = .ok r ∧
        Updated O s x (ht + 1) r) ∨
      (updateOrphansAndReturnTail ord fuel s x (ht + 1) = .error .diverge ∧
        fuel + rank x ≤ B)) :
    ∀ (l : List Hash) (acc : Pools × Hash × Nat), l.Nodup → (∀ x ∈ l, Listed O h x) →
      (∀ x ∈ l, Ready O acc.1 x) →
      (∃ r, l.foldlM (orphanStep ord fuel ht) acc = .ok r ∧
        UpdatedAll O acc.1 l ht acc.2 r) ∨
      (l.foldlM (orphanStep ord fuel ht) acc = .error .diverge ∧
        ∃ x ∈ l, fuel + rank x ≤ B) := by
  intro l
  induction l with
  | nil =>
    intro acc _ _ _
    refine Or.inl ⟨acc, rfl, ?_⟩
    exact ⟨by simp, by simp, by simp, by simp, Or.inl rfl, by simp⟩
  | cons x l ihl =>
    intro acc hnd hlist hready
    obtain ⟨hxl, hndl⟩ := List.nodup_cons.mp hnd
    have hx := hlist x (List.mem_cons_self ..)
    have hl : ∀ y ∈ l, Listed O h y := fun y hy => hlist y (List.mem_cons_of_mem _ hy)
    have hrx := hready x (List.mem_cons_self ..)
    obtain ⟨b, n, hb⟩ := hrx.pooled 0 x (.refl x)
    rw [List.foldlM_cons]
    have hstep : orphanStep ord fuel ht acc x =
        (updateOrphansAndReturnTail ord fuel
          { acc.1 with blockPool := Function.update acc.1.blockPool x (some (b, ht + 1)) }
          x (ht + 1)) >>= fun r => .ok (if r.2.2 > acc.2.2 then r else (r.1, acc.2)) := by
      unfold orphanStep
      rw [hb]
    rcases ih _ x hx hrx.setHeight with ⟨r, hr, hu⟩ | ⟨hdiv, hfuel⟩
    · -- the call on `x` returned `r`; go on with its siblings
      have hstep' : orphanStep ord fuel ht acc x =
          .ok (r.1, if r.2.2 > acc.2.2 then r.2 else acc.2) := by
        rw [hstep, hr]
        show Except.ok _ = Except.ok _
        split <;> rfl
      rw [hstep']
      have hready' : ∀ y ∈ l, Ready O r.1 y := by
        intro y hy
        have hne : x ≠ y := fun e => hxl (e ▸ hy)
        exact Ready.sibling hF hx (hl y hy) hne (hready y (List.mem_cons_of_mem _ hy)) hu
      rcases ihl (r.1, if r.2.2 > acc.2.2 then r.2 else acc.2) hndl hl hready' with
        ⟨q, hq, hall⟩ | ⟨hd, y, hy, hf⟩
      · exact Or.inl ⟨q, hq, .cons hF hx hl hxl ⟨n, hb⟩ hu hall⟩
      · exact Or.inr ⟨hd, y, List.mem_cons_of_mem _ hy, hf⟩
    · right
      rw [hstep, hdiv]
      exact ⟨rfl, x, List.mem_cons_self .., hfuel⟩

/-- Nobody waits for `h`: it is its own deepest descendant. -/
theorem Updated.leaf {s : Pools} {h : Hash} (ht : Nat) (hready : Ready O s h)
    (hc : O h = none) : Updated O s h ht (s, h, ht) := by
  have hleaf : ∀ d c, Desc (Listed O) h d c → d = 0 ∧ c = h := by
    intro d c hd
    cases hd with
    | refl => exact ⟨rfl, rfl⟩
    | step he _ =>
      obtain ⟨_, hs, _⟩ := he
      rw [hc] at hs
      exact absurd hs (by simp)
  refine ⟨?_, fun _ _ => rfl, ?_, fun _ _ => rfl, ⟨0, .refl h, rfl⟩, ?_⟩
  · intro d c b n hd _
    exact absurd (hleaf _ _ hd).1 (by omega)
  · intro d p hd
    rw [(hleaf _ _ hd).2]
    show s.orphanBlocks h = none
    rw [hready.agree 0 h (.refl h), hc]
  · intro d c hd
    rw [(hleaf _ _ hd).1]
    exact Nat.le_refl _

theorem Listed.not_above (hF : IsForest (Listed O) rank) {h x c : Hash} {d : Nat}
    (hx : Listed O h x) (hd : Desc (Listed O) x d c) : c ≠ h := by
  rintro rfl
  have := hd.rank_le hF
  have := hF.climb _ _ hx
  omega

/-- The loop over all that wait for `h` does what the call on `h` is to do. -/
theorem UpdatedAll.parent (hF : IsForest (Listed O) rank) {s : Pools} {h : Hash} {l : List Hash}
    {ht : Nat} {r : Pools × Hash × Nat} (hlist : ∀ x, x ∈ l ↔ Listed O h x)
    (hall : UpdatedAll O { s with orphanBlocks := Function.update s.orphanBlocks h none } l ht
      (h, ht) r) : Updated O s h ht r := by
  constructor
  · intro d c b n hd hs
    obtain ⟨x, hx, hxc⟩ := Desc.succ_iff.mp hd
    rw [hall.height x ((hlist x).mpr hx) d c b n hxc hs]
    simp only [Option.some.injEq, Prod.mk.injEq, true_and]
    omega
  · intro c hcd
    exact hall.pool_frame c (fun x hx d hd => hcd d (.step ((hlist x).mp hx) hd))
  · intro d p hd
    cases d with
    | zero =>
      obtain rfl := Desc.zero_iff.mp hd
      rw [hall.orphan_frame h (fun x hx e he => ((hlist x).mp hx).not_above hF he rfl)]
      simp
    | succ d =>
      obtain ⟨x, hx, hxp⟩ := Desc.succ_iff.mp hd
      exact hall.gone x ((hlist x).mpr hx) d p hxp
  · intro p hp
    rw [hall.orphan_frame p (fun x hx d hd => hp (d + 1) (.step ((hlist x).mp hx) hd))]
    have hph : p ≠ h := fun e => hp 0 (e ▸ .refl p)
    simp [hph]
  · rcases hall.tail with hbest | ⟨x, hx, d, hd, hdeq⟩
    · rw [hbest]
      exact ⟨0, .refl h, rfl⟩
    · exact ⟨d + 1, .step ((hlist x).mp hx) hd, by omega⟩
  · intro d c hd
    cases d with
    | zero => exact hall.deepest.1
    | succ d =>
      obtain ⟨x, hx, hxc⟩ := Desc.succ_iff.mp hd
      have := hall.deepest.2 x ((hlist x).mpr hx) d c hxc
      omega

/-- **`update_orphans_and_return_tail` meets its contract**, or the tree below
`h` is deeper than the fuel. -/
theorem updateOrphans_cases (ord : HashOrder) (hF : IsForest (Listed O) rank) {B : Nat}
    (hB : ∀ p c, Listed O p c → rank c < B) :
    ∀ (fuel : Nat) (s : Pools) (h : Hash) (ht : Nat), rank h < B → Ready O s h →
      (∃ r, updateOrphansAndReturnTail ord fuel s h ht = .ok r ∧ Updated O s h ht r) ∨
      (updateOrphansAndReturnTail ord fuel s h ht = .error .diverge ∧ fuel + rank h ≤ B) := by
  intro fuel
  induction fuel with
  | zero =>
    intro s h ht hh _
    exact Or.inr ⟨rfl, by omega⟩
  | succ fuel ih =>
    intro s h ht hh hready
    have hO := hready.agree 0 h (.refl h)
    cases hc : O h with
    | none =>
      refine Or.inl ⟨(s, h, ht), ?_, .leaf ht hready hc⟩
      rw [updateOrphansAndReturnTail, hO, hc]
    | some children =>
      have hlist : ∀ x, x ∈ ord.iter children ↔ Listed O h x := by
        intro x
        rw [ord.mem]
        constructor
        · exact fun hx => ⟨children, hc, hx⟩
        · rintro ⟨S, hS, hx⟩
          rw [hc, Option.some.injEq] at hS
          exact hS ▸ hx
      have hready' : ∀ x ∈ ord.iter children,
          Ready O { s with orphanBlocks := Function.update s.orphanBlocks h none } x := by
        intro x hx
        have hx' := (hlist x).mp hx
        refine ⟨fun d p hd => ?_, fun d c hd => hready.pooled (d + 1) c (.step hx' hd)⟩
        have hp : p ≠ h := hx'.not_above hF hd
        simpa [hp] using hready.agree (d + 1) p (.step hx' hd)
      have hun : updateOrphansAndReturnTail ord (fuel + 1) s h ht =
          (ord.iter children).foldlM (orphanStep ord fuel ht)
            ({ s with orphanBlocks := Function.update s.orphanBlocks h none }, h, ht) := by
        rw [updateOrphansAndReturnTail, hO, hc]
        rfl
      rcases orphanLoop_cases ord hF (B := B) (h := h)
          (fun s' x hx hr => ih s' x (ht + 1) (hB h x hx) hr) (ord.iter children)
          ({ s with orphanBlocks := Function.update s.orphanBlocks h none }, h, ht)
          (ord.nodup children) (fun x hx => (hlist x).mp hx) hready' with
        ⟨r, hr, hall⟩ | ⟨hdiv, x, hx, hfuel⟩
      · exact Or.inl ⟨r, hun.trans hr, hall.parent hF hlist⟩
      · right
        have := hF.climb _ _ ((hlist x).mp hx)
        exact ⟨hun.trans hdiv, by omega⟩

/-! ## From any pools without circles -/

open Relation (TransGen)

/-- Every waiting block is pooled and waits under one parent, and no block waits
for itself. The map is finite, as every `HashMap` is. -/
structure Lawful (s : Pools) : Prop where
  finite : {p | (s.orphanBlocks p).isSome}.Finite
  pooled : ∀ p c, Listed s.orphanBlocks p c → (s.blockPool c).isSome
  parent : ∀ p q c, Listed s.orphanBlocks p c → Listed s.orphanBlocks q c → p = q
  acyclic : ∀ x, ¬ TransGen (Listed s.orphanBlocks) x x

/-- What the call on `b`, stored with height `h`, does: heights below `b` by depth,
the entries of `b` and of what is below it gone and nothing else changed, and the
block returned is one of the deepest, with the height it is stored with. -/
structure Resolved (s : Pools) (b : Hash) (h : Nat) (r : Pools × Hash × Nat) : Prop where
  height : ∀ d c, Desc (Listed s.orphanBlocks) b (d + 1) c →
    ∃ blk n, s.blockPool c = some (blk, n) ∧ r.1.blockPool c = some (blk, h + (d + 1))
  pool_frame : ∀ c, (∀ d, ¬ Desc (Listed s.orphanBlocks) b (d + 1) c) →
    r.1.blockPool c = s.blockPool c
  gone : ∀ d p, Desc (Listed s.orphanBlocks) b d p → r.1.orphanBlocks p = none
  orphan_frame : ∀ p, (∀ d, ¬ Desc (Listed s.orphanBlocks) b d p) →
    r.1.orphanBlocks p = s.orphanBlocks p
  tail : ∃ d, Desc (Listed s.orphanBlocks) b d r.2.1
  stored : ∃ blk, r.1.blockPool r.2.1 = some (blk, r.2.2)
  deepest : ∀ d c, Desc (Listed s.orphanBlocks) b d c →
    ∃ blk n, r.1.blockPool c = some (blk, n) ∧ n ≤ r.2.2

theorem Lawful.exists_rank {s : Pools} (hs : Lawful s) :
    ∃ (rank : Hash → Nat) (bound : Nat), IsForest (Listed s.orphanBlocks) rank ∧
      ∀ x, rank x ≤ bound := by
  have hfin : {p | ∃ c, Listed s.orphanBlocks p c}.Finite := by
    refine hs.finite.subset fun p hp => ?_
    obtain ⟨c, children, hchildren, -⟩ := hp
    exact Option.isSome_iff_exists.mpr ⟨children, hchildren⟩
  obtain ⟨rank, bound, hclimb, hbound⟩ := exists_rank_of_acyclic hfin hs.acyclic
  exact ⟨rank, bound, ⟨hs.parent, hclimb⟩, hbound⟩

/-- What is below `b` is pooled. -/
theorem Lawful.below {s : Pools} (hs : Lawful s) {b c : Hash} {d : Nat}
    (h : Desc (Listed s.orphanBlocks) b (d + 1) c) : ∃ blk n, s.blockPool c = some (blk, n) := by
  obtain ⟨p, -, hpc⟩ := h.snoc_inv
  obtain ⟨⟨blk, n⟩, hblk⟩ := Option.isSome_iff_exists.mp (hs.pooled p c hpc)
  exact ⟨blk, n, hblk⟩

/-- The heights after a call that meets its contract. -/
theorem Updated.stored_height (hF : IsForest (Listed O) rank) {s : Pools} {b : Hash} {blk : Block}
    {h : Nat} {r : Pools × Hash × Nat} (hu : Updated O s b h r)
    (hb : s.blockPool b = some (blk, h)) (hpooled : ∀ d c, Desc (Listed O) b (d + 1) c →
      ∃ blk n, s.blockPool c = some (blk, n)) {d : Nat} {c : Hash} (hd : Desc (Listed O) b d c) :
    ∃ blk, r.1.blockPool c = some (blk, h + d) := by
  cases d with
  | zero =>
    obtain rfl := Desc.zero_iff.mp hd
    refine ⟨blk, ?_⟩
    rw [hu.pool_frame b (fun e he => by have := he.rank_le hF; omega)]
    exact hb
  | succ d =>
    obtain ⟨blk', n, hc⟩ := hpooled d c hd
    exact ⟨blk', hu.height d c blk' n hd hc⟩

/-- **The call returns, and resolves what waits for `b`**, in whatever order the
sets of children are iterated. -/
theorem updateOrphans_resolves {s : Pools} (hs : Lawful s) {b : Hash} {blk : Block} {h : Nat}
    (hb : s.blockPool b = some (blk, h)) :
    ∃ N, ∀ ord fuel, N ≤ fuel →
      ∃ r, updateOrphansAndReturnTail ord fuel s b h = .ok r ∧ Resolved s b h r := by
  obtain ⟨rank, bound, hF, hbound⟩ := hs.exists_rank
  refine ⟨bound + 2, fun ord fuel hfuel => ?_⟩
  have hready : Ready s.orphanBlocks s b := by
    refine ⟨fun _ _ _ => rfl, fun d c hd => ?_⟩
    cases d with
    | zero =>
      obtain rfl := Desc.zero_iff.mp hd
      exact ⟨blk, h, hb⟩
    | succ d => exact hs.below hd
  rcases updateOrphans_cases ord hF (fun _ c _ => Nat.lt_succ_of_le (hbound c)) fuel s b h
      (Nat.lt_succ_of_le (hbound b)) hready with ⟨r, hr, hu⟩ | ⟨-, hdeep⟩
  · have hstored : ∀ d c, Desc (Listed s.orphanBlocks) b d c →
        ∃ blk, r.1.blockPool c = some (blk, h + d) :=
      fun d c hd => hu.stored_height hF hb (fun _ _ => hs.below) hd
    refine ⟨r, hr, ?_, hu.pool_frame, hu.gone, hu.orphan_frame, ?_, ?_, ?_⟩
    · intro d c hd
      obtain ⟨blk', n, hc⟩ := hs.below hd
      exact ⟨blk', n, hc, hu.height d c blk' n hd hc⟩
    · obtain ⟨d, hd, -⟩ := hu.tail
      exact ⟨d, hd⟩
    · obtain ⟨d, hd, hdeq⟩ := hu.tail
      rw [hdeq]
      exact hstored d _ hd
    · intro d c hd
      obtain ⟨blk', hc⟩ := hstored d c hd
      exact ⟨blk', h + d, hc, hu.deepest d c hd⟩
  · omega

/-- Block `2` waits for block `1`, and blocks `4` and `5` for block `2`. -/
def demoWaiting : Pools where
  blockPool h := if h ≤ 5 then some (⟨⟨0, h / 2, 0, 1⟩, []⟩, if h ≤ 1 then h else 0) else none
  orphanBlocks p := if p = 1 then some {2} else if p = 2 then some {4, 5} else none

theorem demoWaiting_listed {p c : Nat} (h : Listed demoWaiting.orphanBlocks p c) :
    p = c / 2 ∧ p < c ∧ c ≤ 5 ∧ p < 3 := by
  obtain ⟨children, hchildren, hc⟩ := h
  simp only [demoWaiting] at hchildren
  split at hchildren
  · rename_i hp
    obtain rfl := Option.some.inj hchildren
    rw [hp, Finset.mem_singleton.mp hc]
    decide
  · split at hchildren
    · rename_i hp
      obtain rfl := Option.some.inj hchildren
      rw [hp]
      rcases Finset.mem_insert.mp hc with rfl | hc
      · decide
      · rw [Finset.mem_singleton.mp hc]
        decide
    · exact absurd hchildren (by simp)

theorem demoWaiting_lawful : Lawful demoWaiting where
  finite := by
    refine (Set.finite_Iio 3).subset fun p hp => ?_
    have hp : (demoWaiting.orphanBlocks p).isSome := hp
    simp only [demoWaiting] at hp
    by_cases h1 : p = 1
    · rw [h1]
      decide
    · rw [if_neg h1] at hp
      by_cases h2 : p = 2
      · rw [h2]
        decide
      · rw [if_neg h2] at hp
        exact absurd hp (by simp)
  pooled p c h := by
    have hc := (demoWaiting_listed h).2.2.1
    simp [demoWaiting, hc]
  parent p q c hp hq := (demoWaiting_listed hp).1.trans (demoWaiting_listed hq).1.symm
  acyclic x h := by
    have hup : ∀ y, TransGen (Listed demoWaiting.orphanBlocks) x y → x < y := by
      intro y hy
      induction hy with
      | single hxy => exact (demoWaiting_listed hxy).2.1
      | tail _ hyz ih => exact Nat.lt_trans ih (demoWaiting_listed hyz).2.1
    exact absurd (hup x h) (Nat.lt_irrefl x)

/-- Connecting block `1` at height `1` resolves the three that wait. -/
theorem updateOrphans_resolves_demo :
    ∃ N, ∀ ord fuel, N ≤ fuel → ∃ r,
      updateOrphansAndReturnTail ord fuel demoWaiting 1 1 = .ok r ∧ Resolved demoWaiting 1 1 r :=
  updateOrphans_resolves demoWaiting_lawful rfl

end Copycat.Bitcoin
