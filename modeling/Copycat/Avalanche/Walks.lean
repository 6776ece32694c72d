import Copycat.Avalanche.Ops

/-!
# The two walks of `handle_votes`

A query that gathers enough votes walks the ancestors of the queried
transaction depth first and bumps each of them once; one that does not walks
them breadth first and resets their counters. Both walks change the DAG or the
conflict sets while they go. `Decided` says what a decided slot amounts to all
the same: the transactions it bumps, or resets, are exactly those the queried
transaction reaches in the DAG as it was when the slot was taken up, each of
them once.
-/

namespace Copycat.Avalanche

open Copycat.Lib

variable {C : Type} {cfg : Config C}

/-! ## Reading a list of operations -/

/-- The transactions bumped, in order. -/
def bumpedTxns (ops : List Op) : List Hash :=
  ops.filterMap fun
    | .bump _ h _ => some h
    | _ => none

/-- The transactions reset, in order. -/
def resetTxns (ops : List Op) : List Hash :=
  ops.filterMap fun
    | .reset _ h => some h
    | _ => none

/-- The transactions accepted, in order. -/
def acceptedTxns (ops : List Op) : List Hash :=
  ops.filterMap fun
    | .accept h => some h
    | _ => none

/-- The accepted transactions that are committed. -/
def committedTxns (pool : Hash → Option AvalancheTxn) (ops : List Op) : List Hash :=
  (acceptedTxns ops).filter fun h => ((pool h).map AvalancheTxn.commits).getD false

@[simp] theorem bumpedTxns_append (ops ops' : List Op) :
    bumpedTxns (ops ++ ops') = bumpedTxns ops ++ bumpedTxns ops' :=
  List.filterMap_append

@[simp] theorem resetTxns_append (ops ops' : List Op) :
    resetTxns (ops ++ ops') = resetTxns ops ++ resetTxns ops' :=
  List.filterMap_append

@[simp] theorem acceptedTxns_append (ops ops' : List Op) :
    acceptedTxns (ops ++ ops') = acceptedTxns ops ++ acceptedTxns ops' :=
  List.filterMap_append

@[simp] theorem committedTxns_append (pool : Hash → Option AvalancheTxn) (ops ops' : List Op) :
    committedTxns pool (ops ++ ops') = committedTxns pool ops ++ committedTxns pool ops' := by
  simp [committedTxns]

theorem mem_bumpedTxns {ops : List Op} {h : Hash} :
    h ∈ bumpedTxns ops ↔ ∃ slot b, Op.bump slot h b ∈ ops := by
  unfold bumpedTxns
  rw [List.mem_filterMap]
  constructor
  · rintro ⟨op, hop, he⟩
    cases op with
    | bump slot x b =>
      simp only [Option.some.injEq] at he
      subst he
      exact ⟨slot, b, hop⟩
    | _ => exact absurd he (by simp)
  · rintro ⟨slot, b, hop⟩
    exact ⟨_, hop, rfl⟩

theorem mem_resetTxns {ops : List Op} {h : Hash} :
    h ∈ resetTxns ops ↔ ∃ slot, Op.reset slot h ∈ ops := by
  unfold resetTxns
  rw [List.mem_filterMap]
  constructor
  · rintro ⟨op, hop, he⟩
    cases op with
    | reset slot x =>
      simp only [Option.some.injEq] at he
      subst he
      exact ⟨slot, hop⟩
    | _ => exact absurd he (by simp)
  · rintro ⟨slot, hop⟩
    exact ⟨_, hop, rfl⟩

/-! ## The walk of a successful query -/

/-- The DAG has lost nothing but transactions of `gone`. -/
def Shrinks (l l' : Ledger C) (gone : List Hash) : Prop :=
  ∀ x, l'.txnDag x = l.txnDag x ∨ (l'.txnDag x = none ∧ x ∈ gone)

theorem Shrinks.up_sub {l l' : Ledger C} {gone : List Hash} (h : Shrinks l l' gone) :
    ∀ a, ∀ b ∈ up l'.txnDag a, b ∈ up l.txnDag a := by
  intro a b hb
  rcases h a with he | ⟨he, -⟩
  · unfold up at hb ⊢
    rwa [he] at hb
  · exact absurd hb (by simp [up, he])

theorem Shrinks.same {l l' : Ledger C} {gone : List Hash} (h : Shrinks l l' gone) {x : Hash}
    (hx : x ∉ gone) : l'.txnDag x = l.txnDag x :=
  (h x).resolve_right fun hh => hx hh.2

/-- What a walk from `roots` has done: `dedup` grew from `D` to `D'`, each new
member in the DAG was bumped once, and the parents of a new member are members
too. -/
structure Walked (cfg : Config C) (slot : Slot) (l : Ledger C) (D : Finset Hash)
    (roots : List Hash) (ops : List Op) (l' : Ledger C) (D' : Finset Hash)
    (commitList : List Hash) : Prop where
  path : Ops cfg l ops l'
  pool : l'.txnPool = l.txnPool
  shrinks : Shrinks l l' (bumpedTxns ops)
  only : ∀ op ∈ ops, (∃ x b, op = .bump slot x b ∧ ∃ r ∈ roots, Reach (up l.txnDag) r x) ∨
    ∃ x, op = .accept x
  grows : D ⊆ D'
  rooted : ∀ r ∈ roots, r ∈ D'
  nodup : (bumpedTxns ops).Nodup
  fresh : ∀ x ∈ bumpedTxns ops, x ∉ D ∧ x ∈ D' ∧ l.txnDag x ≠ none
  all : ∀ x ∈ D', x ∉ D → l.txnDag x ≠ none → x ∈ bumpedTxns ops
  closed : ∀ x ∈ D', x ∉ D → ∀ p ∈ up l.txnDag x, p ∈ D'
  commits : commitList = committedTxns l.txnPool ops

theorem Walked.nil (cfg : Config C) (slot : Slot) (l : Ledger C) (D : Finset Hash) :
    Walked cfg slot l D [] [] l D [] := by
  refine ⟨.nil, rfl, fun x => Or.inl rfl, ?_, Finset.Subset.refl D, ?_, List.nodup_nil, ?_, ?_, ?_,
    rfl⟩
  · intro op hop
    exact absurd hop (by simp)
  · intro r hr
    exact absurd hr (by simp)
  · intro x hx
    exact absurd hx (by simp [bumpedTxns])
  · intro x hx hn
    exact absurd hx hn
  · intro x hx hn
    exact absurd hx hn

/-- A root that is a member already. -/
theorem Walked.seen {slot : Slot} (l : Ledger C) {D : Finset Hash} {h : Hash} (hh : h ∈ D) :
    Walked cfg slot l D [h] [] l D [] := by
  have hnil := Walked.nil cfg slot l D
  refine { hnil with only := ?_, rooted := ?_ }
  · intro op hop
    exact absurd hop (by simp)
  · intro r hr
    rw [List.mem_singleton.mp hr]
    exact hh

/-- A root that is not in the DAG. -/
theorem Walked.gone {slot : Slot} {l : Ledger C} (D : Finset Hash) {h : Hash}
    (hh : l.txnDag h = none) : Walked cfg slot l D [h] [] l (insert h D) [] := by
  refine ⟨.nil, rfl, fun x => Or.inl rfl, ?_, Finset.subset_insert h D, ?_, List.nodup_nil, ?_, ?_,
    ?_, rfl⟩
  · intro op hop
    exact absurd hop (by simp)
  · intro r hr
    rw [List.mem_singleton.mp hr]
    exact Finset.mem_insert_self h D
  · intro x hx
    exact absurd hx (by simp [bumpedTxns])
  · intro x hx hn hdag
    rw [Finset.mem_insert] at hx
    rcases hx with rfl | hx
    · exact absurd hh hdag
    · exact absurd hx hn
  · intro x hx hn p hp
    rw [Finset.mem_insert] at hx
    rcases hx with rfl | hx
    · exact absurd hp (by simp [up, hh])
    · exact absurd hx hn

/-- One walk after another. -/
theorem Walked.trans {slot : Slot} {l l₁ l₂ : Ledger C} {D D₁ D₂ : Finset Hash}
    {rs rs' : List Hash} {ops ops' : List Op} {c c' : List Hash}
    (h : Walked cfg slot l D rs ops l₁ D₁ c) (h' : Walked cfg slot l₁ D₁ rs' ops' l₂ D₂ c') :
    Walked cfg slot l D (rs ++ rs') (ops ++ ops') l₂ D₂ (c ++ c') := by
  -- what is new in the second walk has not been touched by the first
  have hsame : ∀ x, x ∉ D₁ → l₁.txnDag x = l.txnDag x := fun x hx =>
    h.shrinks.same fun hb => hx (h.fresh x hb).2.1
  refine ⟨h.path.append h'.path, h'.pool.trans h.pool, ?_, ?_, h.grows.trans h'.grows, ?_, ?_, ?_,
    ?_, ?_, ?_⟩
  · intro x
    rw [bumpedTxns_append]
    rcases h'.shrinks x with he | ⟨he, hx⟩
    · rcases h.shrinks x with he' | ⟨he', hx⟩
      · exact Or.inl (he.trans he')
      · exact Or.inr ⟨he.trans he', List.mem_append_left _ hx⟩
    · exact Or.inr ⟨he, List.mem_append_right _ hx⟩
  · intro op hop
    rcases List.mem_append.mp hop with hop | hop
    · rcases h.only op hop with ⟨x, b, rfl, r, hr, hx⟩ | hacc
      · exact Or.inl ⟨x, b, rfl, r, List.mem_append_left _ hr, hx⟩
      · exact Or.inr hacc
    · rcases h'.only op hop with ⟨x, b, rfl, r, hr, hx⟩ | hacc
      · exact Or.inl ⟨x, b, rfl, r, List.mem_append_right _ hr, hx.mono h.shrinks.up_sub⟩
      · exact Or.inr hacc
  · intro r hr
    rcases List.mem_append.mp hr with hr | hr
    · exact h'.grows (h.rooted r hr)
    · exact h'.rooted r hr
  · rw [bumpedTxns_append, List.nodup_append]
    refine ⟨h.nodup, h'.nodup, fun x hx y hy hxy => ?_⟩
    subst hxy
    exact (h'.fresh x hy).1 (h.fresh x hx).2.1
  · intro x hx
    rw [bumpedTxns_append] at hx
    rcases List.mem_append.mp hx with hx | hx
    · obtain ⟨hn, hm, hdag⟩ := h.fresh x hx
      exact ⟨hn, h'.grows hm, hdag⟩
    · obtain ⟨hn, hm, hdag⟩ := h'.fresh x hx
      exact ⟨fun hD => hn (h.grows hD), hm, hsame x hn ▸ hdag⟩
  · intro x hx hn hdag
    rw [bumpedTxns_append]
    by_cases hx₁ : x ∈ D₁
    · exact List.mem_append_left _ (h.all x hx₁ hn hdag)
    · refine List.mem_append_right _ (h'.all x hx hx₁ ?_)
      rwa [hsame x hx₁]
  · intro x hx hn p hp
    by_cases hx₁ : x ∈ D₁
    · exact h'.grows (h.closed x hx₁ hn p hp)
    · refine h'.closed x hx hx₁ p ?_
      unfold up at hp ⊢
      rwa [hsame x hx₁]
  · rw [committedTxns_append, h.commits, h'.commits, h.pool]

/-- The transaction itself, after its parents: bumped, and accepted if the bump
says so. -/
theorem Walked.close {slot : Slot} {l l₁ l₃ : Ledger C} {D D₁ : Finset Hash} {h : Hash}
    {node : DagNode} {ops last : List Op} {c c' : List Hash} (hD : h ∉ D)
    (hnode : l.txnDag h = some node)
    (hw : Walked cfg slot l (insert h D) node.parents ops l₁ D₁ c)
    (hpath : Ops cfg l₁ last l₃) (hpool : l₃.txnPool = l₁.txnPool)
    (hshrinks : Shrinks l₁ l₃ [h]) (hbumped : bumpedTxns last = [h])
    (honly : ∀ op ∈ last, (∃ b, op = .bump slot h b) ∨ ∃ x, op = .accept x)
    (hc : c' = c ++ committedTxns l₁.txnPool last) :
    Walked cfg slot l D [h] (ops ++ last) l₃ D₁ c' := by
  have hbump : bumpedTxns (ops ++ last) = bumpedTxns ops ++ [h] := by
    rw [bumpedTxns_append, hbumped]
  have hmem : h ∈ D₁ := hw.grows (Finset.mem_insert_self h D)
  refine ⟨hw.path.append hpath, hpool.trans hw.pool, ?_, ?_,
    (Finset.subset_insert h D).trans hw.grows, ?_, ?_, ?_, ?_, ?_, ?_⟩
  · intro x
    rw [hbump]
    rcases hshrinks x with he | ⟨he, hx⟩
    · rcases hw.shrinks x with he' | ⟨he', hx⟩
      · exact Or.inl (he.trans he')
      · exact Or.inr ⟨he.trans he', List.mem_append_left _ hx⟩
    · exact Or.inr ⟨he, List.mem_append_right _ hx⟩
  · intro op hop
    rcases List.mem_append.mp hop with hop | hop
    · rcases hw.only op hop with ⟨x, b, rfl, r, hr, hx⟩ | hacc
      · refine Or.inl ⟨x, b, rfl, h, by simp, Reach.head ?_ hx⟩
        rwa [up_some hnode]
      · exact Or.inr hacc
    · rcases honly op hop with ⟨b, rfl⟩ | hacc
      · exact Or.inl ⟨h, b, rfl, h, by simp, Reach.refl h⟩
      · exact Or.inr hacc
  · intro r hr
    rw [List.mem_singleton.mp hr]
    exact hmem
  · rw [hbump, List.nodup_append]
    refine ⟨hw.nodup, List.nodup_singleton h, fun x hx y hy hxy => ?_⟩
    rw [hxy, List.mem_singleton.mp hy] at hx
    exact (hw.fresh h hx).1 (Finset.mem_insert_self h D)
  · intro x hx
    rw [hbump] at hx
    rcases List.mem_append.mp hx with hx | hx
    · exact ⟨fun hxD => (hw.fresh x hx).1 (Finset.mem_insert_of_mem hxD), (hw.fresh x hx).2⟩
    · rw [List.mem_singleton.mp hx]
      exact ⟨hD, hmem, by rw [hnode]; simp⟩
  · intro x hx hn hdag
    rw [hbump]
    by_cases hxh : x = h
    · exact List.mem_append_right _ (by simp [hxh])
    · exact List.mem_append_left _ (hw.all x hx (by simp [hxh, hn]) hdag)
  · intro x hx hn p hp
    by_cases hxh : x = h
    · rw [hxh, up_some hnode] at hp
      exact hw.rooted p hp
    · exact hw.closed x hx (by simp [hxh, hn]) p hp
  · rw [hc, committedTxns_append, hw.commits, hw.pool]

/-- **What `handle_votes_helper` does.** -/
theorem handleVotesHelper_spec {slot : Slot} : ∀ {fuel : Nat} {l l' : Ledger C}
    {D D' : Finset Hash} {h : Hash} {c : List Hash},
      handleVotesHelper cfg slot fuel l D h = .ok (l', D', c) →
      ∃ ops, Walked cfg slot l D [h] ops l' D' c := by
  intro fuel
  induction fuel with
  | zero => intro l l' D D' h c hr; exact absurd hr (by simp [handleVotesHelper])
  | succ fuel ih =>
    intro l l' D D' h c hr
    rw [handleVotesHelper] at hr
    by_cases hD : h ∈ D
    · rw [if_pos hD] at hr
      simp only [Except.ok.injEq, Prod.mk.injEq] at hr
      obtain ⟨rfl, rfl, rfl⟩ := hr
      exact ⟨[], .seen l hD⟩
    rw [if_neg hD] at hr
    cases hnode : l.txnDag h with
    | none =>
      rw [hnode] at hr
      simp only [Except.ok.injEq, Prod.mk.injEq] at hr
      obtain ⟨rfl, rfl, rfl⟩ := hr
      exact ⟨[], .gone D hnode⟩
    | some node =>
      rw [hnode] at hr
      dsimp only at hr
      rw [bind_eq_ok] at hr
      obtain ⟨⟨l₁, D₁, c₁⟩, hparents, hr⟩ := hr
      rw [bind_eq_ok] at hr
      obtain ⟨⟨l₂, accepted⟩, hbump, hr⟩ := hr
      -- the parents, one after the other
      obtain ⟨ops, hw⟩ : ∃ ops, Walked cfg slot l (insert h D) node.parents ops l₁ D₁ c₁ := by
        refine foldlM_prefix (fun done (acc : Ledger C × Finset Hash × List Hash) =>
          ∃ ops, Walked cfg slot l (insert h D) done ops acc.1 acc.2.1 acc.2.2) ?_
          ⟨[], .nil cfg slot l _⟩ hparents
        rintro done ⟨la, Da, ca⟩ p acc' ⟨ops, hw⟩ hstep
        rw [bind_eq_ok] at hstep
        obtain ⟨⟨lb, Db, cb⟩, hp, hstep⟩ := hstep
        rw [Except.ok.injEq] at hstep
        subst hstep
        obtain ⟨ops', hw'⟩ := ih hp
        exact ⟨ops ++ ops', hw.trans hw'⟩
      have hnode₁ : l₁.txnDag h = some node := by
        rw [hw.shrinks.same fun hb => (hw.fresh h hb).1 (Finset.mem_insert_self h D)]
        exact hnode
      obtain ⟨n, txn, t, -, htxn, -, -, -, hl₂, -⟩ := bump_spec hbump
      have hop := OpStep.bump hnode₁ hbump
      have hlast : l₂.history = l₁.history ++ [.bump slot h accepted] := history_op hop
      have hdag₂ : l₂.txnDag = l₁.txnDag := by rw [hl₂]; rfl
      have hpool₂ : l₂.txnPool = l₁.txnPool := by rw [hl₂]; rfl
      have hpath := Machine.Path.single (M := ledger cfg) (G := fun _ _ => True) trivial hop
      cases accepted with
      | false =>
        simp only [Bool.false_eq_true, if_false, Except.ok.injEq, Prod.mk.injEq] at hr
        obtain ⟨rfl, rfl, rfl⟩ := hr
        refine ⟨_, hw.close hD hnode hpath hpool₂ (fun x => Or.inl (by rw [hdag₂])) rfl
          ?_ (by simp [committedTxns, acceptedTxns])⟩
        intro op hop
        exact Or.inl ⟨false, List.mem_singleton.mp hop⟩
      | true =>
        simp only [if_true, Except.ok.injEq, Prod.mk.injEq] at hr
        obtain ⟨rfl, rfl, rfl⟩ := hr
        have hlast' : l₂.history.getLast? = some (.bump slot h true) := by
          rw [hlast, List.getLast?_concat]
        have hop' : OpStep cfg l₂ (.accept h) (acceptTxn l₂ h) := by
          refine .accept ?_ hlast'
          rw [hdag₂, hnode₁]
          simp
        have hpath' : Ops cfg l₁ [.bump slot h true, .accept h] (acceptTxn l₂ h) :=
          hpath.snoc trivial hop'
        refine ⟨_, hw.close hD hnode hpath' hpool₂ ?_ rfl ?_ ?_⟩
        · intro x
          by_cases hx : x = h
          · exact Or.inr ⟨by simp [acceptTxn, hx], by simp [hx]⟩
          · exact Or.inl (by simp [acceptTxn, hx, hdag₂])
        · intro op hop
          simp only [List.mem_cons, List.not_mem_nil, or_false] at hop
          rcases hop with rfl | rfl
          · exact Or.inl ⟨true, rfl⟩
          · exact Or.inr ⟨h, rfl⟩
        · rw [hpool₂]
          simp only [committedTxns, acceptedTxns, List.filterMap_cons, List.filterMap_nil,
            List.filter_cons, List.filter_nil]
          split
          · rfl
          · rw [List.append_nil]

/-! ## The walk of a failed query -/

/-- The parents of members of `dedup` are members or on the frontier. -/
def Fringed (dag : TxnDag) (D : Finset Hash) (frontier : List Hash) : Prop :=
  ∀ x ∈ D, ∀ p ∈ up dag x, p ∈ D ∨ p ∈ frontier

theorem Fringed.seen {dag : TxnDag} {D : Finset Hash} {a : Hash} {rest : List Hash}
    (h : Fringed dag D (a :: rest)) (ha : a ∈ D) : Fringed dag D rest := by
  intro x hx p hp
  rcases h x hx p hp with hp | hp
  · exact Or.inl hp
  · rcases List.mem_cons.mp hp with rfl | hp
    · exact Or.inl ha
    · exact Or.inr hp

theorem Fringed.visit {dag : TxnDag} {D : Finset Hash} {a : Hash} {rest : List Hash}
    (h : Fringed dag D (a :: rest)) : Fringed dag (insert a D) (rest ++ up dag a) := by
  intro x hx p hp
  rcases Finset.mem_insert.mp hx with rfl | hx
  · exact Or.inr (List.mem_append_right _ hp)
  · rcases h x hx p hp with hp | hp
    · exact Or.inl (Finset.mem_insert_of_mem hp)
    · rcases List.mem_cons.mp hp with rfl | hp
      · exact Or.inl (Finset.mem_insert_self _ _)
      · exact Or.inr (List.mem_append_left _ hp)

/-- A walk that leaves `dedup` comes by the frontier. -/
theorem Fringed.reach {dag : TxnDag} {D : Finset Hash} {frontier : List Hash}
    (hclosed : Fringed dag D frontier) {a x : Hash} (hx : x ∉ D)
    (h : Reach (up dag) a x) : a ∈ D → ∃ f ∈ frontier, Reach (up dag) f x := by
  induction h using Relation.ReflTransGen.head_induction_on with
  | refl => exact fun ha => absurd ha hx
  | @head a b hab hbx ih =>
    intro ha
    rcases hclosed a ha b hab with hb | hb
    · exact ih hb
    · exact ⟨b, hb, hbx⟩

/-- What a member reaches outside `dedup`, the rest of the frontier reaches. -/
theorem Fringed.reach_seen {dag : TxnDag} {D : Finset Hash} {a x : Hash} {rest : List Hash}
    (h : Fringed dag D rest) (ha : a ∈ D) (hx : x ∉ D) :
    (∃ f ∈ rest, Reach (up dag) f x) ↔ ∃ f ∈ a :: rest, Reach (up dag) f x := by
  constructor
  · rintro ⟨b, hb, hbx⟩
    exact ⟨b, List.mem_cons_of_mem _ hb, hbx⟩
  · rintro ⟨b, hb, hbx⟩
    rcases List.mem_cons.mp hb with rfl | hb
    · exact h.reach hx hbx ha
    · exact ⟨b, hb, hbx⟩

/-- What a transaction reaches but itself, its parents reach. -/
theorem reach_visit {dag : TxnDag} {a x : Hash} {rest : List Hash} (hx : x ≠ a) :
    (∃ f ∈ rest ++ up dag a, Reach (up dag) f x) ↔ ∃ f ∈ a :: rest, Reach (up dag) f x := by
  constructor
  · rintro ⟨b, hb, hbx⟩
    rcases List.mem_append.mp hb with hb | hb
    · exact ⟨b, List.mem_cons_of_mem _ hb, hbx⟩
    · exact ⟨a, List.mem_cons_self, Reach.head hb hbx⟩
  · rintro ⟨b, hb, hbx⟩
    rcases List.mem_cons.mp hb with rfl | hb
    · rcases hbx.head_cases with rfl | ⟨c, hc, hcx⟩
      · exact absurd rfl hx
      · exact ⟨c, List.mem_append_right _ hc, hcx⟩
    · exact ⟨b, List.mem_append_left _ hb, hbx⟩

/-- **What the walk after a failed query does**: it resets exactly the
transactions of the DAG that the frontier reaches and that are not in `dedup`
yet. -/
theorem resetWalk_spec {slot : Slot} {reset : C → C} (hrule : cfg.rule.reset = some reset) :
    ∀ {fuel : Nat} {l l' : Ledger C} {D : Finset Hash} {frontier : List Hash},
      Fringed l.txnDag D frontier → resetWalk reset slot fuel l D frontier = .ok l' →
      ∃ ops, Ops cfg l ops l' ∧ l'.txnPool = l.txnPool ∧ l'.txnDag = l.txnDag ∧
        (∀ op ∈ ops, ∃ x, op = .reset slot x) ∧
        ∀ x, x ∈ resetTxns ops ↔ l.txnDag x ≠ none ∧ x ∉ D ∧
          ∃ a ∈ frontier, Reach (up l.txnDag) a x := by
  intro fuel
  induction fuel with
  | zero =>
    intro l l' D frontier _ h
    cases frontier with
    | nil =>
      rw [resetWalk, Except.ok.injEq] at h
      subst h
      exact ⟨[], .nil, rfl, rfl, fun op hop => absurd hop (by simp), fun x => by simp [resetTxns]⟩
    | cons a rest => exact absurd h (by simp [resetWalk])
  | succ fuel ih =>
    intro l l' D frontier hclosed h
    cases frontier with
    | nil =>
      rw [resetWalk, Except.ok.injEq] at h
      subst h
      exact ⟨[], .nil, rfl, rfl, fun op hop => absurd hop (by simp), fun x => by simp [resetTxns]⟩
    | cons a rest =>
      rw [resetWalk] at h
      by_cases hD : a ∈ D
      · -- seen before
        rw [if_pos hD] at h
        obtain ⟨ops, hops, hpool, hdag, honly, hex⟩ := ih (hclosed.seen hD) h
        refine ⟨ops, hops, hpool, hdag, honly, fun x => ?_⟩
        rw [hex]
        exact and_congr_right fun _ => and_congr_right fun hx =>
          (hclosed.seen hD).reach_seen hD hx
      rw [if_neg hD] at h
      cases hnode : l.txnDag a with
      | none =>
        rw [hnode] at h
        dsimp only at h
        have hup : rest ++ up l.txnDag a = rest := by simp [up, hnode]
        obtain ⟨ops, hops, hpool, hdag, honly, hex⟩ := ih (hup ▸ hclosed.visit) h
        refine ⟨ops, hops, hpool, hdag, honly, fun x => ?_⟩
        rw [hex]
        refine and_congr_right fun hx => ?_
        have hxa : x ≠ a := fun he => hx (he ▸ hnode)
        rw [Finset.mem_insert, or_iff_right hxa, ← reach_visit hxa, hup]
      | some node =>
        rw [hnode] at h
        dsimp only at h
        rw [bind_eq_ok] at h
        obtain ⟨l₁, hr, h⟩ := h
        obtain ⟨txn, sets, -, hl₁, -⟩ := resetTxn_spec hr
        have hdag₁ : l₁.txnDag = l.txnDag := by rw [hl₁]
        have hpool₁ : l₁.txnPool = l.txnPool := by rw [hl₁]
        have hup : up l.txnDag a = node.parents := up_some hnode
        obtain ⟨ops, hops, hpool, hdag, honly, hex⟩ := ih (hdag₁ ▸ hup ▸ hclosed.visit) h
        have hop : OpStep cfg l (.reset slot a) l₁ := .reset hrule (by rw [hnode]; simp) hr
        refine ⟨[.reset slot a] ++ ops, (Machine.Path.single trivial hop).append hops,
          hpool.trans hpool₁, hdag.trans hdag₁, ?_, fun x => ?_⟩
        · intro op hop
          rcases List.mem_append.mp hop with hop | hop
          · exact ⟨a, List.mem_singleton.mp hop⟩
          · exact honly op hop
        · rw [resetTxns_append, List.mem_append, hex, hdag₁, Finset.mem_insert, ← hup]
          have hfirst : x ∈ resetTxns [.reset slot a] ↔ x = a := by simp [resetTxns]
          rw [hfirst]
          by_cases hxa : x = a
          · subst hxa
            refine iff_of_true (Or.inl rfl) ⟨by rw [hnode]; simp, hD, x, ?_, Reach.refl x⟩
            exact List.mem_cons_self
          · rw [or_iff_right hxa, or_iff_right hxa, reach_visit hxa]

/-! ## A decided slot -/

/-- What deciding the query of a slot has done. -/
structure Decided (cfg : Config C) (slot : Slot) (l : Ledger C) (h : Hash) (votes : Nat)
    (ops : List Op) (l' : Ledger C) (commitList : List Hash) : Prop where
  path : Ops cfg l (.ask slot h votes :: ops) l'
  pool : l'.txnPool = l.txnPool
  shrinks : Shrinks l l' (bumpedTxns ops)
  nodup : (bumpedTxns ops).Nodup
  only : ∀ op ∈ ops,
    (∃ x b, op = .bump slot x b ∧ cfg.voteThresh ≤ votes ∧ Reach (up l.txnDag) h x) ∨
    (∃ x, op = .accept x) ∨ ∃ x, op = .reset slot x ∧ votes < cfg.voteThresh
  success : cfg.voteThresh ≤ votes → ∀ x,
    x ∈ bumpedTxns ops ↔ l.txnDag x ≠ none ∧ Reach (up l.txnDag) h x
  failure : votes < cfg.voteThresh → cfg.rule.reset ≠ none → ∀ x,
    x ∈ resetTxns ops ↔ l.txnDag x ≠ none ∧ Reach (up l.txnDag) h x
  commits : commitList = committedTxns l.txnPool ops

theorem decideSlot_spec {fuel : Nat} {slot : Slot} {l l' : Ledger C} {h : Hash} {votes : Nat}
    {c : List Hash} (hd : decideSlot cfg fuel slot l h votes = .ok (l', c)) :
    ∃ ops, Decided cfg slot l h votes ops l' c := by
  unfold decideSlot at hd
  dsimp only at hd
  have hask : Ops cfg l [.ask slot h votes]
      { l with history := l.history ++ [.ask slot h votes] } :=
    Machine.Path.single trivial OpStep.ask
  by_cases hv : votes ≥ cfg.voteThresh
  · rw [if_pos hv, bind_eq_ok] at hd
    obtain ⟨⟨l₁, D, c₁⟩, hw, hd⟩ := hd
    simp only [Except.ok.injEq, Prod.mk.injEq] at hd
    obtain ⟨rfl, rfl⟩ := hd
    obtain ⟨ops, hw⟩ := handleVotesHelper_spec hw
    refine ⟨ops, hask.append hw.path, hw.pool, hw.shrinks, hw.nodup, ?_, ?_, ?_, hw.commits⟩
    · intro op hop
      rcases hw.only op hop with ⟨x, b, rfl, r, hr, hx⟩ | hacc
      · rw [List.mem_singleton.mp hr] at hx
        exact Or.inl ⟨x, b, rfl, hv, hx⟩
      · exact Or.inr (Or.inl hacc)
    · intro _ x
      constructor
      · intro hx
        obtain ⟨slot', b, hop⟩ := mem_bumpedTxns.mp hx
        rcases hw.only _ hop with ⟨y, b', he, r, hr, hy⟩ | ⟨y, he⟩
        · simp only [Op.bump.injEq] at he
          rw [List.mem_singleton.mp hr, ← he.2.1] at hy
          exact ⟨(hw.fresh x hx).2.2, hy⟩
        · exact absurd he (by simp)
      · rintro ⟨hx, hreach⟩
        -- `dedup` holds the root and is closed under parents
        have hmem : x ∈ D := by
          clear hx
          induction hreach with
          | refl => exact hw.rooted h (by simp)
          | tail _ hp ih => exact hw.closed _ ih (by simp) _ hp
        exact hw.all x hmem (by simp) hx
    · intro hlt
      exact absurd hv (by omega)
  · rw [if_neg hv] at hd
    cases hrule : cfg.rule.reset with
    | none =>
      rw [hrule] at hd
      simp only [Except.ok.injEq, Prod.mk.injEq] at hd
      obtain ⟨rfl, rfl⟩ := hd
      exact ⟨[], hask, rfl, fun x => Or.inl rfl, List.nodup_nil,
        fun op hop => absurd hop (by simp), fun h => absurd h hv,
        fun _ h => absurd hrule h, rfl⟩
    | some reset =>
      rw [hrule] at hd
      dsimp only at hd
      rw [bind_eq_ok] at hd
      obtain ⟨l₁, hw, hd⟩ := hd
      simp only [Except.ok.injEq, Prod.mk.injEq] at hd
      obtain ⟨rfl, rfl⟩ := hd
      obtain ⟨ops, hops, hpool, hdag, honly, hex⟩ := resetWalk_spec hrule (by simp [Fringed]) hw
      have hbumped : bumpedTxns ops = [] := by
        rw [List.eq_nil_iff_forall_not_mem]
        intro x hx
        obtain ⟨slot', b, hop⟩ := mem_bumpedTxns.mp hx
        obtain ⟨y, he⟩ := honly _ hop
        exact absurd he (by simp)
      refine ⟨ops, hask.append hops, hpool, fun x => Or.inl (by rw [hdag]),
        by rw [hbumped]; exact List.nodup_nil, ?_, fun h => absurd h hv, ?_, ?_⟩
      · intro op hop
        obtain ⟨x, rfl⟩ := honly op hop
        exact Or.inr (Or.inr ⟨x, rfl, by omega⟩)
      · intro _ _ x
        rw [hex]
        simp
      · have hacc : acceptedTxns ops = [] := by
          rw [List.eq_nil_iff_forall_not_mem]
          intro x hx
          obtain ⟨op, hop, he⟩ := List.mem_filterMap.mp hx
          obtain ⟨y, rfl⟩ := honly op hop
          exact absurd he (by simp)
        rw [committedTxns, hacc]
        rfl

end Copycat.Avalanche
