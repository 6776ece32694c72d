import Copycat.Avalanche.Management
import Copycat.Lib.Countdown

/-!
# The proposal DAG as a countdown

`AvalancheBlockManagement` proposes a transaction after those of its parents
that were still to be proposed when it came. The DAG is a countdown in the
sense of `Copycat.Lib.Countdown` (`view`): `record_new_txn` and `validate_block`
add nodes to it (`view_add`), and the loop of `prepare_new_block` takes them
(`view_release`). The three paths on which a transaction comes in compute its
counter in different ways; none of them says too little.
-/

namespace Copycat.Avalanche

open Copycat.Lib
open BlockManagement

/-- The DAG as a countdown. -/
def view (dag : Hash → Option ProposalNode) : Countdown Hash where
  waiting := fun h => (dag h).isSome
  holds p x := ∃ node, dag p = some node ∧ x ∈ node.children
  count x := ((dag x).map fun node => node.numParents.toNat).getD 0

theorem view_count {dag : Hash → Option ProposalNode} {x : Hash} {node : ProposalNode}
    (hx : dag x = some node) : (view dag).count x = node.numParents.toNat := by
  show ((dag x).map _).getD 0 = _
  rw [hx]
  rfl

theorem view_holds {dag : Hash → Option ProposalNode} {x : Hash} {node : ProposalNode}
    (hx : dag x = some node) (y : Hash) : (view dag).holds x y ↔ y ∈ node.children := by
  constructor
  · intro h
    obtain ⟨node', hnode', hy⟩ := h
    rw [hx, Option.some.injEq] at hnode'
    exact hnode' ▸ hy
  · exact fun hy => ⟨node, hx, hy⟩

/-! ## Adding a transaction -/

/-- One more child. -/
def ProposalNode.addChild (x : Hash) (node : ProposalNode) : ProposalNode :=
  { node with children := insert x node.children }

/-- A loop that gives each parent in the DAG a child and counts it. -/
theorem foldl_addChild {x : Hash}
    {f : (Hash → Option ProposalNode) × UInt64 → Hash → (Hash → Option ProposalNode) × UInt64}
    (hnone : ∀ acc p, acc.1 p = none → f acc p = acc)
    (hsome : ∀ acc p node, acc.1 p = some node →
      f acc p = (Function.update acc.1 p (some (node.addChild x)), acc.2 + 1))
    (parents : List Hash) : ∀ (dag : Hash → Option ProposalNode) (n : UInt64),
      parents.foldl f (dag, n) = (fun p => if p ∈ parents then (dag p).map (.addChild x) else dag p,
        n + UInt64.ofNat (parents.countP fun p => (dag p).isSome)) := by
  induction parents with
  | nil => intro dag n; simp
  | cons parent parents ih =>
    intro dag n
    rw [List.foldl_cons]
    cases hp : dag parent with
    | none =>
      rw [hnone _ _ hp, ih]
      refine Prod.ext (funext fun p => ?_) ?_
      · by_cases hpp : p = parent
        · simp [hpp, hp]
        · simp [hpp]
      · simp [hp]
    | some node =>
      rw [hsome _ _ _ hp, ih]
      have hsame : ∀ p, (Function.update dag parent (some (node.addChild x)) p).isSome =
          (dag p).isSome := by
        intro p
        by_cases hpp : p = parent
        · simp [hpp, hp]
        · simp [hpp]
      refine Prod.ext (funext fun p => ?_) ?_
      · by_cases hpp : p = parent
        · simp [hpp, hp, ProposalNode.addChild]
        · simp [hpp]
      · simp only [hsame]
        rw [List.countP_cons_of_pos (by rw [hp]; rfl), UInt64.ofNat_add, add_assoc]
        congr 1
        exact add_comm ..

/-- What the loop over the parents comes to: the ones in the DAG get a child, and
are counted as often as they are listed. -/
theorem linkParents_eq (x : Hash) (dag : Hash → Option ProposalNode) (parents : List Hash) :
    linkParents x dag parents =
      (fun p => if p ∈ parents then (dag p).map (.addChild x) else dag p,
        UInt64.ofNat (parents.countP fun p => (dag p).isSome)) := by
  unfold linkParents
  rw [foldl_addChild (x := x) (fun acc p hp => by simp only [hp])
    (fun acc p node hp => by simp only [hp, ProposalNode.addChild]), zero_add]

/-- The DAG with a new transaction, entry by entry. -/
theorem linked_apply (x : Hash) (dag : Hash → Option ProposalNode) (parents : List Hash)
    (n : UInt64) (y : Hash) :
    Function.update (linkParents x dag parents).1 x (some ⟨n, ∅⟩) y =
      if y = x then some ⟨n, ∅⟩
      else if y ∈ parents then (dag y).map (.addChild x) else dag y := by
  by_cases hy : y = x
  · rw [hy, Function.update_self, if_pos rfl]
  · rw [Function.update_of_ne hy, if_neg hy, linkParents_eq]

theorem view_add {dag : Hash → Option ProposalNode} {x : Hash} (hx : dag x = none)
    (parents : List Hash) (n : UInt64) :
    view (Function.update (linkParents x dag parents).1 x (some ⟨n, ∅⟩)) =
      (view dag).add x parents n.toNat := by
  have happly := linked_apply x dag parents n
  generalize Function.update (linkParents x dag parents).1 x (some ⟨n, ∅⟩) = dag' at happly ⊢
  refine Countdown.eq_of_iff (fun y => ?_) (fun p y => ?_) (fun y => ?_)
  · show (dag' y).isSome ↔ y = x ∨ (dag y).isSome
    rw [happly]
    by_cases hy : y = x
    · simp [hy]
    · rw [if_neg hy]
      split
      · simp [hy]
      · simp [hy]
  · show (∃ node, dag' p = some node ∧ y ∈ node.children) ↔
      (∃ node, dag p = some node ∧ y ∈ node.children) ∨ (y = x ∧ p ∈ parents ∧ (dag p).isSome)
    rw [happly]
    by_cases hp : p = x
    · simp [hp, hx]
    · rw [if_neg hp]
      cases hdag : dag p with
      | none => simp
      | some node =>
        split
        · rename_i hmem
          simp [hmem, ProposalNode.addChild, or_comm]
        · rename_i hmem
          simp [hmem]
  · by_cases hy : y = x
    · rw [hy, Countdown.count_add_self]
      exact view_count ((happly x).trans (if_pos rfl))
    · rw [Countdown.count_add_of_ne _ hy]
      show ((dag' y).map _).getD 0 = ((dag y).map _).getD 0
      rw [happly, if_neg hy]
      cases hdag : dag y with
      | none => simp
      | some node =>
        split
        · rfl
        · rfl

/-! ## Taking a transaction -/

/-- One parent less. -/
def ProposalNode.release (node : ProposalNode) : ProposalNode :=
  { node with numParents := node.numParents - 1 }

/-- Whether the next release is the last one. -/
def ProposalNode.last (node : ProposalNode) : Bool :=
  decide (node.numParents - 1 = 0)

/-- What the loop over the children comes to. -/
theorem releaseChild_foldl (l : List Hash) (hl : l.Nodup) :
    ∀ (dag : Hash → Option ProposalNode) (frontier : List Hash),
      l.foldl releaseChild (dag, frontier) =
        (fun y => if y ∈ l then (dag y).map .release else dag y,
          frontier ++ l.filter fun y => ((dag y).map ProposalNode.last).getD false) := by
  induction l with
  | nil => intro dag frontier; simp
  | cons c l ih =>
    intro dag frontier
    obtain ⟨hc, hl⟩ := List.nodup_cons.mp hl
    rw [List.foldl_cons]
    unfold releaseChild
    dsimp only
    cases hdag : dag c with
    | none =>
      dsimp only
      refine (ih hl dag frontier).trans (Prod.ext (funext fun y => ?_) ?_)
      · by_cases hy : y = c
        · simp [hy, hdag, hc]
        · simp [hy]
      · rw [List.filter_cons_of_neg (by simp [hdag])]
    | some node =>
      dsimp only
      refine (ih hl _ _).trans (Prod.ext (funext fun y => ?_) ?_)
      · by_cases hy : y = c
        · simp [hy, hdag, hc, ProposalNode.release]
        · simp [hy]
      · have hsame : (l.filter fun y => ((Function.update dag c
            (some { node with numParents := node.numParents - 1 }) y).map
              ProposalNode.last).getD false) =
            l.filter fun y => ((dag y).map ProposalNode.last).getD false := by
          refine List.filter_congr fun y hy => ?_
          have hne : y ≠ c := fun e => hc (e ▸ hy)
          rw [Function.update_of_ne hne]
        dsimp only
        rw [hsame]
        by_cases hlast : node.numParents - 1 = 0
        · rw [if_pos hlast, List.filter_cons_of_pos (by simp [hdag, ProposalNode.last, hlast]),
            List.append_assoc]
          rfl
        · rw [if_neg hlast, List.filter_cons_of_neg (by simp [hdag, ProposalNode.last, hlast])]

/-- The DAG after `prepare_new_block` has taken `x`, with the frontier. -/
def released (ord : HashOrder) (dag : Hash → Option ProposalNode) (x : Hash)
    (node : ProposalNode) (rest : List Hash) : (Hash → Option ProposalNode) × List Hash :=
  (ord.iter node.children).foldl releaseChild (Function.update dag x none, rest)

theorem released_apply (ord : HashOrder) (dag : Hash → Option ProposalNode) (x : Hash)
    (node : ProposalNode) (rest : List Hash) (y : Hash) :
    (released ord dag x node rest).1 y =
      if y = x then none else if y ∈ node.children then (dag y).map .release else dag y := by
  unfold released
  rw [releaseChild_foldl _ (ord.nodup _)]
  simp only [ord.mem]
  by_cases hy : y = x
  · rw [if_pos hy, hy, Function.update_self]
    simp
  · rw [if_neg hy, Function.update_of_ne hy]

theorem pred_toNat {n : UInt64} (h : 0 < n.toNat) : (n - 1).toNat = n.toNat - 1 :=
  UInt64.toNat_sub_of_le n 1 (UInt64.le_iff_toNat_le.mpr h)

/-- A sound DAG counts down: no counter is at zero before it is taken one from. -/
theorem view_release (ord : HashOrder) {dag : Hash → Option ProposalNode} {x : Hash}
    {node : ProposalNode} (rest : List Hash) (hs : (view dag).Sound) (hx : dag x = some node) :
    view (released ord dag x node rest).1 = (view dag).take x := by
  have happly := released_apply ord dag x node rest
  generalize (released ord dag x node rest).1 = dag' at happly ⊢
  have hholds := view_holds hx
  refine Countdown.eq_of_iff (fun y => ?_) (fun p y => ?_) (fun y => ?_)
  · show (dag' y).isSome ↔ y ≠ x ∧ (dag y).isSome
    rw [happly]
    by_cases hy : y = x
    · simp [hy]
    · rw [if_neg hy]
      split
      · simp [hy]
      · simp [hy]
  · show (∃ node, dag' p = some node ∧ y ∈ node.children) ↔
      p ≠ x ∧ ∃ node, dag p = some node ∧ y ∈ node.children
    rw [happly]
    by_cases hp : p = x
    · simp [hp]
    · rw [if_neg hp]
      split
      · simp [hp, ProposalNode.release]
      · simp [hp]
  · by_cases hyx : y = x
    · rw [hyx, Countdown.count_take_self]
      show ((dag' x).map _).getD 0 = 0
      rw [happly, if_pos rfl]
      rfl
    · have hval := happly y
      rw [if_neg hyx] at hval
      by_cases hy : y ∈ node.children
      · have hheld := (hholds y).mpr hy
        obtain ⟨child, hchild⟩ := Option.isSome_iff_exists.mp (hs.ends x y hheld).2
        have hpos := hs.count_pos hheld
        rw [if_pos hy, hchild] at hval
        rw [view_count hchild] at hpos
        rw [Countdown.count_take_of_holds hyx hheld, view_count hchild, view_count hval]
        exact pred_toNat hpos
      · rw [Countdown.count_take_of_not_holds hyx fun h => hy ((hholds y).mp h)]
        show ((dag' y).map _).getD 0 = ((dag y).map _).getD 0
        rw [hval, if_neg hy]

/-- The frontier then: the rest, and those that have counted down to zero. -/
theorem mem_released_frontier {ord : HashOrder} {dag : Hash → Option ProposalNode} {x : Hash}
    {node : ProposalNode} {rest : List Hash} (hs : (view dag).Sound) (hx : dag x = some node)
    (hfree : (view dag).Free x) (y : Hash) :
    y ∈ (released ord dag x node rest).2 ↔
      y ∈ rest ∨ ((view dag).holds x y ∧ (view dag).count y - 1 = 0) := by
  unfold released
  rw [releaseChild_foldl _ (ord.nodup _), List.mem_append, List.mem_filter, ord.mem]
  rw [← view_holds hx]
  refine or_congr_right (and_congr_right fun hheld => ?_)
  have hyx : y ≠ x := fun e => hfree x (e ▸ hheld)
  obtain ⟨child, hchild⟩ := Option.isSome_iff_exists.mp (hs.ends x y hheld).2
  have hpos := hs.count_pos hheld
  rw [view_count hchild] at hpos ⊢
  rw [Function.update_of_ne hyx, hchild, ← pred_toNat hpos]
  show decide (child.numParents - 1 = 0) = true ↔ _
  rw [decide_eq_true_iff, ← UInt64.toNat_inj]
  rfl

/-! ## What the stage keeps -/

/-- What is known is still to be proposed or has been, and the DAG counts down
soundly, from parents to children. -/
structure DagInv (ids : UniqueIds) (proposed : List Hash) (d : ProposalDag) : Prop where
  filed : ∀ h t, d.txnPool h = some t → ids.txnId t = h
  cover : ∀ h, (d.txnPool h).isSome ↔ (d.txnDag h).isSome ∨ h ∈ proposed
  apart : ∀ h ∈ proposed, d.txnDag h = none
  nodup : proposed.Nodup
  sound : (view d.txnDag).Sound
  parent : ∀ p x, (view d.txnDag).holds p x → ∃ t, d.txnPool x = some t ∧ p ∈ t.parents

/-- The listed transactions are known and not held back. -/
def Ready (d : ProposalDag) (frontier : List Hash) : Prop :=
  ∀ x ∈ frontier, (d.txnPool x).isSome ∧ (view d.txnDag).Free x

/-- `x` is proposed after `p`, or will be. -/
def Behind (proposed : List Hash) (dag : Hash → Option ProposalNode) (p x : Hash) : Prop :=
  ((dag x).isSome ∧ ((view dag).holds p x ∨ p ∈ proposed)) ∨ [p, x].Sublist proposed

section Add

variable {ids : UniqueIds} {proposed : List Hash} {d : ProposalDag} {txn : AvalancheTxn}

/-- A new transaction in the pool and in the DAG. -/
def insertTxn (ids : UniqueIds) (d : ProposalDag) (txn : AvalancheTxn) (numParents : UInt64) :
    ProposalDag :=
  ⟨Function.update d.txnPool (ids.txnId txn) (some txn),
    Function.update (linkParents (ids.txnId txn) d.txnDag txn.parents).1 (ids.txnId txn)
      (some ⟨numParents, ∅⟩)⟩

theorem DagInv.not_in_dag (h : DagInv ids proposed d) {x : Hash} (hnew : d.txnPool x = none) :
    d.txnDag x = none := by
  by_contra hin
  have := (h.cover x).mpr (Or.inl (Option.isSome_iff_ne_none.mpr hin))
  rw [hnew] at this
  exact absurd this (by simp)

theorem DagInv.not_proposed (h : DagInv ids proposed d) {x : Hash} (hnew : d.txnPool x = none) :
    x ∉ proposed := by
  intro hin
  have := (h.cover x).mpr (Or.inr hin)
  rw [hnew] at this
  exact absurd this (by simp)

/-- A counter that counts every listing of a waiting parent is large enough. -/
theorem card_le_countP {dag : Hash → Option ProposalNode} {parents : List Hash} {F : Finset Hash}
    (hF : ∀ p ∈ F, p ∈ parents ∧ p ∈ (view dag).waiting) :
    F.card ≤ parents.countP fun p => (dag p).isSome := by
  rw [List.countP_eq_length_filter]
  refine le_trans (Finset.card_le_card fun p hp => ?_) (List.toFinset_card_le _)
  exact List.mem_toFinset.mpr (List.mem_filter.mpr (hF p hp))

theorem view_insertTxn (h : DagInv ids proposed d) (hnew : d.txnPool (ids.txnId txn) = none)
    (n : UInt64) : view (insertTxn ids d txn n).txnDag =
      (view d.txnDag).add (ids.txnId txn) txn.parents n.toNat :=
  view_add (h.not_in_dag hnew) _ _

theorem DagInv.insert (h : DagInv ids proposed d) (hnew : d.txnPool (ids.txnId txn) = none)
    {n : UInt64} (hn : (txn.parents.countP fun p => (d.txnDag p).isSome) ≤ n.toNat) :
    DagInv ids proposed (insertTxn ids d txn n) := by
  have hview := view_insertTxn h hnew n
  have hwait : ids.txnId txn ∉ (view d.txnDag).waiting := by
    show ¬ (d.txnDag (ids.txnId txn)).isSome
    rw [h.not_in_dag hnew]
    simp
  have hpool : ∀ y, y ≠ ids.txnId txn → (insertTxn ids d txn n).txnPool y = d.txnPool y :=
    fun y hy => Function.update_of_ne hy ..
  have hself : (insertTxn ids d txn n).txnPool (ids.txnId txn) = some txn :=
    Function.update_self ..
  refine ⟨fun y t ht => ?_, fun y => ?_, fun y hy => ?_, h.nodup, ?_, fun p x hp => ?_⟩
  · by_cases hy : y = ids.txnId txn
    · rw [hy, hself, Option.some.injEq] at ht
      rw [hy, ht]
    · rw [hpool y hy] at ht
      exact h.filed y t ht
  · have hdag : ((insertTxn ids d txn n).txnDag y).isSome ↔
        y = ids.txnId txn ∨ (d.txnDag y).isSome := by
      show y ∈ (view (insertTxn ids d txn n).txnDag).waiting ↔ _
      rw [hview]
      rfl
    by_cases hy : y = ids.txnId txn
    · rw [hdag, hy, hself]
      simp
    · rw [hpool y hy, h.cover, hdag]
      simp [hy]
  · have hne : y ≠ ids.txnId txn := fun e => h.not_proposed hnew (e ▸ hy)
    have hno : ¬ ((insertTxn ids d txn n).txnDag y).isSome := by
      show y ∉ (view (insertTxn ids d txn n).txnDag).waiting
      rw [hview]
      intro hin
      rcases hin with hin | hin
      · exact hne hin
      · have hin : (d.txnDag y).isSome := hin
        rw [h.apart y hy] at hin
        exact absurd hin (by simp)
    simpa using hno
  · rw [hview]
    exact h.sound.add hwait fun F hF => (card_le_countP hF).trans hn
  · rw [hview] at hp
    rcases hp with hp | ⟨rfl, hmem, -⟩
    · obtain ⟨t, ht, hmem⟩ := h.parent p x hp
      have hne : x ≠ ids.txnId txn := fun e => by
        rw [e, hnew] at ht
        exact absurd ht (by simp)
      exact ⟨t, (hpool x hne).trans ht, hmem⟩
    · exact ⟨txn, hself, hmem⟩

theorem Ready.insert {frontier : List Hash} (hr : Ready d frontier) (h : DagInv ids proposed d)
    (hnew : d.txnPool (ids.txnId txn) = none) (n : UInt64) :
    Ready (insertTxn ids d txn n) frontier := by
  intro x hx
  obtain ⟨hin, hfree⟩ := hr x hx
  have hne : x ≠ ids.txnId txn := fun e => by
    rw [e, hnew] at hin
    exact absurd hin (by simp)
  refine ⟨?_, ?_⟩
  · show (Function.update d.txnPool _ _ x).isSome
    rwa [Function.update_of_ne hne]
  · rw [view_insertTxn h hnew]
    exact hfree.add hne _ _

/-- With no parent in the DAG, the new transaction is ready itself. -/
theorem ready_insert_self (h : DagInv ids proposed d) (hnew : d.txnPool (ids.txnId txn) = none)
    (hparents : ∀ p ∈ txn.parents, (d.txnDag p).isNone) (n : UInt64) :
    Ready (insertTxn ids d txn n) [ids.txnId txn] := by
  intro x hx
  rw [List.mem_singleton.mp hx]
  refine ⟨?_, ?_⟩
  · show (Function.update d.txnPool _ _ _).isSome
    rw [Function.update_self]
    rfl
  · rw [view_insertTxn h hnew]
    refine Countdown.free_add_self h.sound ?_ (fun p hp hin => ?_) _
    · show ¬ (d.txnDag _).isSome
      rw [h.not_in_dag hnew]
      simp
    · have hin : (d.txnDag p).isSome := hin
      rw [Option.isSome_iff_ne_none] at hin
      exact hin (Option.isNone_iff_eq_none.mp (hparents p hp))

/-- A new transaction is behind the parents that are in the pool. -/
theorem behind_insert_self (h : DagInv ids proposed d) (hnew : d.txnPool (ids.txnId txn) = none)
    (n : UInt64) {p : Hash} (hp : p ∈ txn.parents) (hin : (d.txnPool p).isSome) :
    Behind proposed (insertTxn ids d txn n).txnDag p (ids.txnId txn) := by
  refine Or.inl ⟨?_, ?_⟩
  · show ids.txnId txn ∈ (view (insertTxn ids d txn n).txnDag).waiting
    rw [view_insertTxn h hnew]
    exact Set.mem_insert _ _
  · rcases (h.cover p).mp hin with hdag | hdone
    · left
      rw [view_insertTxn h hnew]
      exact Or.inr ⟨rfl, hp, hdag⟩
    · exact Or.inr hdone

theorem Behind.insert {p x : Hash} (hb : Behind proposed d.txnDag p x) (h : DagInv ids proposed d)
    (hnew : d.txnPool (ids.txnId txn) = none) (n : UInt64) :
    Behind proposed (insertTxn ids d txn n).txnDag p x := by
  rcases hb with ⟨hx, hp⟩ | hb
  · refine Or.inl ⟨?_, ?_⟩
    · show x ∈ (view (insertTxn ids d txn n).txnDag).waiting
      rw [view_insertTxn h hnew]
      exact Set.mem_insert_of_mem _ hx
    · rcases hp with hp | hp
      · left
        rw [view_insertTxn h hnew]
        exact Or.inl hp
      · exact Or.inr hp
  · exact Or.inr hb

end Add

section Take

variable {ids : UniqueIds} {proposed : List Hash} {d : ProposalDag} {x : Hash} {node : ProposalNode}

theorem DagInv.take (h : DagInv ids proposed d) (hx : d.txnDag x = some node)
    (hfree : (view d.txnDag).Free x) (ord : HashOrder) (rest : List Hash) :
    DagInv ids (proposed ++ [x]) ⟨d.txnPool, (released ord d.txnDag x node rest).1⟩ := by
  have hview := view_release ord rest h.sound hx
  have hdag : ∀ y, ((released ord d.txnDag x node rest).1 y).isSome ↔
      y ≠ x ∧ (d.txnDag y).isSome := by
    intro y
    show y ∈ (view (released ord d.txnDag x node rest).1).waiting ↔ _
    rw [hview]
    rfl
  have hx' : x ∉ proposed := by
    intro hin
    rw [h.apart x hin] at hx
    exact absurd hx (by simp)
  refine ⟨h.filed, fun y => ?_, fun y hy => ?_, ?_, ?_, fun p y hp => ?_⟩
  · rw [h.cover, hdag, List.mem_append, List.mem_singleton]
    by_cases hy : y = x
    · simp [hy, hx]
    · simp [hy]
  · rw [← Option.not_isSome_iff_eq_none, hdag]
    rcases List.mem_append.mp hy with hy | hy
    · simp [h.apart y hy]
    · simp [List.mem_singleton.mp hy]
  · refine List.nodup_append.mpr ⟨h.nodup, by simp, fun a ha b hb => ?_⟩
    rw [List.mem_singleton.mp hb]
    exact fun e => hx' (e ▸ ha)
  · rw [hview]
    exact h.sound.take hfree
  · rw [hview] at hp
    exact h.parent p y hp.2

theorem Ready.take {rest : List Hash} (hr : Ready d rest) (h : DagInv ids proposed d)
    (hx : d.txnDag x = some node) (hfree : (view d.txnDag).Free x) (ord : HashOrder) :
    Ready ⟨d.txnPool, (released ord d.txnDag x node rest).1⟩
      (released ord d.txnDag x node rest).2 := by
  intro y hy
  rw [mem_released_frontier h.sound hx hfree] at hy
  rw [view_release ord rest h.sound hx]
  rcases hy with hy | ⟨hheld, hzero⟩
  · exact ⟨(hr y hy).1, (hr y hy).2.take⟩
  · refine ⟨(h.cover y).mpr (Or.inl (h.sound.ends x y hheld).2), ?_⟩
    have hyx : y ≠ x := fun e => hfree x (e ▸ hheld)
    refine (h.sound.take hfree).free ?_
    rw [Countdown.count_take_of_holds hyx hheld]
    exact hzero

theorem Behind.take {p y : Hash} (hb : Behind proposed d.txnDag p y) (h : DagInv ids proposed d)
    (hx : d.txnDag x = some node) (hfree : (view d.txnDag).Free x) (ord : HashOrder)
    (rest : List Hash) :
    Behind (proposed ++ [x]) (released ord d.txnDag x node rest).1 p y := by
  have hview := view_release ord rest h.sound hx
  rcases hb with ⟨hy, hp⟩ | hb
  · by_cases hyx : y = x
    · -- nothing holds it back, so the parent is proposed already
      have hdone : p ∈ proposed := hp.resolve_left (hyx ▸ hfree p)
      right
      rw [hyx]
      exact (List.singleton_sublist.mpr hdone).append (List.Sublist.refl [x])
    · refine Or.inl ⟨?_, ?_⟩
      · show y ∈ (view (released ord d.txnDag x node rest).1).waiting
        rw [hview]
        exact ⟨hyx, hy⟩
      · by_cases hpx : p = x
        · exact Or.inr (by simp [hpx])
        · rcases hp with hp | hp
          · left
            rw [hview]
            exact ⟨hpx, hp⟩
          · exact Or.inr (List.mem_append_left _ hp)
  · exact Or.inr (hb.trans (List.sublist_append_left ..))

end Take

/-! ## `prepare_new_block` -/

/-- What dropping a stale entry of the frontier and taking a transaction
preserve, `prepare_new_block` preserves. -/
theorem prepareNewBlock_rule (P : BlockManagement → Prop) {blkLen : Nat} {ord : HashOrder}
    (hskip : ∀ s x rest, P s → s.dagFrontier = x :: rest → s.txnDag x = none →
      P { s with dagFrontier := rest })
    (htake : ∀ s x rest node, P s → s.dagFrontier = x :: rest → s.txnDag x = some node →
      P { s with
        txnDag := (released ord s.txnDag x node rest).1
        dagFrontier := (released ord s.txnDag x node rest).2
        currBatch := s.currBatch ++ [x] }) :
    ∀ {fuel : Nat} {s : BlockManagement} {r : BlockManagement × Bitcoin.CurBlockState}, P s →
      prepareNewBlock blkLen ord fuel s = .ok r → P r.1 := by
  intro fuel
  induction fuel with
  | zero => intro s r _ h; exact absurd h (by simp [prepareNewBlock])
  | succ fuel ih =>
    intro s r hs h
    rw [prepareNewBlock] at h
    split at h
    · rw [← Except.ok.inj h]
      exact hs
    · split at h
      · rw [← Except.ok.inj h]
        exact hs
      · rename_i x rest hfrontier
        split at h
        · rename_i hnone
          exact ih (hskip s x rest hs hfrontier hnone) h
        · rename_i node hnode
          exact ih (htake s x rest node hs hfrontier hnode) h

end Copycat.Avalanche
