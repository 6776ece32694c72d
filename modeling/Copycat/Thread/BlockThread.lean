import Copycat.Bitcoin.Management
import Copycat.Lib.Machine
import Mathlib.Data.Multiset.MapFold

/-!
# `block_management_thread`

The loop that owns the block management of a node
(`src/stage/consensus/block_management/mod.rs`), for any chain: a `BlockStage` is
what the trait `BlockManagement` offers. The arms of the `select!` are taken in any
order, each as a whole.

A peer block goes through a task of its own before it gets to `validate_block`,
and the tasks finish in any order; what they check is in `Copycat.Prechecks`.
`blks_seen` is looked at when the block arrives, so that however often and from
whomever it comes, one task at most is started for it (`validated_once`).

`blk_state` says whether `prepare_new_block` is called. What puts the thread back to
work is a new transaction, an own block, and a peer block that changes the main
chain; `run_settled` is the rule for showing that these are enough.

A call that panics ends the thread and has no successor here. The calls of the
stage do not fail otherwise, except for the requests that `validate_block` sends,
which are taken to be sent. Requests of peers are answered without a change.
-/

namespace Copycat.Thread

open Copycat.Lib
open Bitcoin (CurBlockState)

/-- The trait `BlockManagement`, as relations between the state before and after.
`waitToPropose` holds where `wait_to_propose` returns after some time. -/
structure BlockStage (σ β τ : Type) where
  new : σ
  blkId : β → Hash
  recordNewTxn : σ → τ → σ → Prop
  prepareNewBlock : σ → CurBlockState → σ → Prop
  waitToPropose : σ → Prop
  getNewBlock : σ → β → σ → Prop
  validateBlock : σ → β → List β → σ → Prop
  handlePmakerMsg : σ → σ

variable {σ β τ : Type}

/-- What the thread works on: the stage, `blk_state`, `blks_seen`, the tasks that
check peer blocks, and the channel `pending_blk` they send to. -/
structure BlockThread (σ β : Type) where
  stage : σ
  blkState : CurBlockState
  blksSeen : Finset Hash
  tasks : Multiset (NodeId × β)
  pendingBlk : List (NodeId × β)

def BlockThread.new (B : BlockStage σ β τ) : BlockThread σ β where
  stage := B.new
  blkState := .working
  blksSeen := ∅
  tasks := 0
  pendingBlk := []

/-- The arms of the loop, and the end of a task. -/
inductive Event (β τ : Type) where
  | newTxn (txnBatch : List τ)
  | prepare
  | propose (blk : β)
  | peerBlk (src : NodeId) (blk : β)
  | checked (src : NodeId) (blk : β) (valid : Bool)
  | validate (src : NodeId) (blk : β) (newTail : List β)
  | pmakerMsg

/-- The loop over a batch of transactions. -/
inductive Records (B : BlockStage σ β τ) : σ → List τ → σ → Prop
  | nil (s : σ) : Records B s [] s
  | cons {s s₁ s₂ : σ} {txn : τ} {txns : List τ} :
      B.recordNewTxn s txn s₁ → Records B s₁ txns s₂ → Records B s (txn :: txns) s₂

/-- Back to work, if it was for want of transactions that it stopped. -/
def afterTxns : CurBlockState → CurBlockState
  | .emptyMempool => .working
  | blkState => blkState

section Steps

variable (B : BlockStage σ β τ) (id : NodeId)

inductive Step (t : BlockThread σ β) : Event β τ → BlockThread σ β → Prop
  | newTxn {txnBatch : List τ} {s : σ} : Records B t.stage txnBatch s →
      Step t (.newTxn txnBatch) { t with stage := s, blkState := afterTxns t.blkState }
  | prepare {s : σ} {blkFull : CurBlockState} : t.blkState = .working →
      B.prepareNewBlock t.stage blkFull s →
      Step t .prepare { t with stage := s, blkState := blkFull }
  | propose {blk : β} {s : σ} : B.waitToPropose t.stage → B.getNewBlock t.stage blk s →
      Step t (.propose blk) { t with
        stage := s
        blkState := .working
        blksSeen := insert (B.blkId blk) t.blksSeen }
  | ignore {src : NodeId} {blk : β} : src = id ∨ B.blkId blk ∈ t.blksSeen →
      Step t (.peerBlk src blk) t
  | peerBlk {src : NodeId} {blk : β} : src ≠ id → B.blkId blk ∉ t.blksSeen →
      Step t (.peerBlk src blk) { t with
        blksSeen := insert (B.blkId blk) t.blksSeen
        tasks := (src, blk) ::ₘ t.tasks }
  | checked {src : NodeId} {blk : β} {rest : Multiset (NodeId × β)} (valid : Bool) :
      t.tasks = (src, blk) ::ₘ rest →
      Step t (.checked src blk valid) { t with
        tasks := rest
        pendingBlk := if valid then t.pendingBlk ++ [(src, blk)] else t.pendingBlk }
  | validate {src : NodeId} {blk : β} {rest : List (NodeId × β)} {newTail : List β} {s : σ} :
      t.pendingBlk = (src, blk) :: rest → B.validateBlock t.stage blk newTail s →
      Step t (.validate src blk newTail) { t with
        stage := s
        pendingBlk := rest
        blkState := if newTail.isEmpty then t.blkState else .working }
  | pmakerMsg : Step t .pmakerMsg { t with stage := B.handlePmakerMsg t.stage }

/-- The thread as a machine. -/
def blockThread : Machine (BlockThread σ β) (Event β τ) where
  start := .new B
  step := Step B id

end Steps

variable {B : BlockStage σ β τ} {id : NodeId} {G : BlockThread σ β → Event β τ → Prop}
  {tr : List (Event β τ)} {t t' : BlockThread σ β}

/-! ## Every block once -/

/-- The block that an event hands on: one of its own that the node has made, or one
of a peer that is validated. -/
def Event.handed : Event β τ → Option β
  | .propose blk => some blk
  | .validate _ blk _ => some blk
  | _ => none

/-- Of these, the blocks of peers. -/
def Event.validated : Event β τ → Option β
  | .validate _ blk _ => some blk
  | _ => none

/-- The blocks that have been proposed or validated, in order. -/
def handed (tr : List (Event β τ)) : List β := tr.filterMap Event.handed

/-- The blocks of peers that have been validated, in order. -/
def validated (tr : List (Event β τ)) : List β := tr.filterMap Event.validated

/-- Which blocks are counted: those that are validated, and own ones only if their
ids are new. -/
structure Counts (B : BlockStage σ β τ) (G : BlockThread σ β → Event β τ → Prop)
    (count : Event β τ → Option β) : Prop where
  validate : ∀ src blk newTail, count (.validate src blk newTail) = some blk
  propose : ∀ t blk, G t (.propose blk) →
    count (.propose blk) = none ∨ count (.propose blk) = some blk ∧ B.blkId blk ∉ t.blksSeen
  other : ∀ e : Event β τ, e.handed = none → count e = none

theorem filterMap_snoc {α γ : Type} (f : α → Option γ) (l : List α) (x : α) :
    (l ++ [x]).filterMap f = l.filterMap f ++ (f x).toList := by
  rw [List.filterMap_append]
  cases h : f x with
  | none =>
    rw [List.filterMap_cons_none h]
    rfl
  | some y =>
    rw [List.filterMap_cons_some h]
    rfl

/-- The peer blocks that are checked, or wait to be validated. -/
def BlockThread.waiting (t : BlockThread σ β) : Multiset (NodeId × β) :=
  t.tasks + (t.pendingBlk : Multiset (NodeId × β))

/-- The blocks that wait, and those that count. -/
def taken (count : Event β τ → Option β) (tr : List (Event β τ)) (t : BlockThread σ β) :
    Multiset β :=
  t.waiting.map Prod.snd + (tr.filterMap count : Multiset β)

variable {count : Event β τ → Option β}

/-- Of each id at most one block is taken, and the id is in `blks_seen`. -/
structure SeenInv (B : BlockStage σ β τ) (id : NodeId) (count : Event β τ → Option β)
    (tr : List (Event β τ)) (t : BlockThread σ β) : Prop where
  once : ((taken count tr t).map B.blkId).Nodup
  seen : ∀ blk ∈ taken count tr t, B.blkId blk ∈ t.blksSeen
  arrived : ∀ x ∈ t.waiting, x.1 ≠ id ∧ .peerBlk x.1 x.2 ∈ tr
  validated : ∀ src blk newTail, .validate src blk newTail ∈ tr →
    src ≠ id ∧ .peerBlk src blk ∈ tr

/-- What is waiting has become no more, and nothing seen is forgotten. -/
theorem SeenInv.le (h : SeenInv B id count tr t) {e : Event β τ}
    (hle : taken count (tr ++ [e]) t' ≤ taken count tr t)
    (hseen : t.blksSeen ⊆ t'.blksSeen) (hwaiting : t'.waiting ⊆ t.waiting)
    (he : ∀ src blk newTail, e = .validate src blk newTail → (src, blk) ∈ t.waiting) :
    SeenInv B id count (tr ++ [e]) t' where
  once := Multiset.nodup_of_le (Multiset.map_le_map hle) h.once
  seen blk hblk := hseen (h.seen blk (Multiset.mem_of_le hle hblk))
  arrived x hx := by
    obtain ⟨hne, hmem⟩ := h.arrived x (hwaiting hx)
    exact ⟨hne, List.mem_append_left _ hmem⟩
  validated src blk newTail hmem := by
    have hold : src ≠ id ∧ .peerBlk src blk ∈ tr := by
      rcases List.mem_append.mp hmem with hmem | hmem
      · exact h.validated src blk newTail hmem
      · exact h.arrived (src, blk) (he src blk newTail (List.mem_singleton.mp hmem).symm)
    exact ⟨hold.1, List.mem_append_left _ hold.2⟩

/-- A block whose id has not been seen is taken. -/
theorem SeenInv.add (h : SeenInv B id count tr t) {e : Event β τ} {blk : β}
    (hnew : B.blkId blk ∉ t.blksSeen)
    (htaken : taken count (tr ++ [e]) t' = blk ::ₘ taken count tr t)
    (hseen : t'.blksSeen = insert (B.blkId blk) t.blksSeen)
    (hwaiting : ∀ x ∈ t'.waiting, x ∈ t.waiting ∨ x.1 ≠ id ∧ e = .peerBlk x.1 x.2)
    (he : ∀ src blk newTail, e ≠ .validate src blk newTail) :
    SeenInv B id count (tr ++ [e]) t' where
  once := by
    rw [htaken, Multiset.map_cons, Multiset.nodup_cons]
    refine ⟨fun hmem => ?_, h.once⟩
    obtain ⟨blk', hblk', hid⟩ := Multiset.mem_map.mp hmem
    exact hnew (hid ▸ h.seen blk' hblk')
  seen blk' hblk' := by
    rw [htaken] at hblk'
    rw [hseen]
    rcases Multiset.mem_cons.mp hblk' with rfl | hblk'
    · exact Finset.mem_insert_self ..
    · exact Finset.mem_insert_of_mem (h.seen blk' hblk')
  arrived x hx := by
    rcases hwaiting x hx with hx | ⟨hne, rfl⟩
    · obtain ⟨hne, hmem⟩ := h.arrived x hx
      exact ⟨hne, List.mem_append_left _ hmem⟩
    · exact ⟨hne, by simp⟩
  validated src blk' newTail hmem := by
    rcases List.mem_append.mp hmem with hmem | hmem
    · obtain ⟨hne, hmem⟩ := h.validated src blk' newTail hmem
      exact ⟨hne, List.mem_append_left _ hmem⟩
    · exact absurd (List.mem_singleton.mp hmem).symm (he src blk' newTail)

theorem coe_snoc {α : Type} (l : List α) (x : α) :
    ((l ++ [x] : List α) : Multiset α) = x ::ₘ (l : Multiset α) := by
  rw [Multiset.cons_coe]
  exact Multiset.coe_eq_coe.mpr (List.perm_append_singleton x l)

/-- Nothing changes that `SeenInv` looks at, but the event may count as a block. -/
theorem taken_snoc (count : Event β τ → Option β) (tr : List (Event β τ)) {e : Event β τ}
    (hwaiting : t'.waiting = t.waiting) :
    taken count (tr ++ [e]) t' = (count e).toList + taken count tr t := by
  unfold taken
  rw [filterMap_snoc, hwaiting, ← Multiset.coe_add]
  exact (add_assoc _ _ _).symm.trans (add_comm _ _)

theorem run_seenInv (hcount : Counts B G count) (h : (blockThread B id).Run G tr t) :
    SeenInv B id count tr t := by
  refine h.invariant_trace (SeenInv B id count) ?_ fun tr t e t' ih hg hstep => ?_
  · exact ⟨Multiset.nodup_zero, fun x hx => absurd hx (Multiset.notMem_zero x),
      fun x hx => absurd hx (Multiset.notMem_zero x), fun _ _ _ h => absurd h List.not_mem_nil⟩
  -- an event that hands on nothing and leaves alone what is waiting
  have hsame : ∀ {e : Event β τ} {t' : BlockThread σ β}, count e = none →
      t'.waiting = t.waiting → t.blksSeen ⊆ t'.blksSeen →
      (∀ src blk newTail, e ≠ .validate src blk newTail) → SeenInv B id count (tr ++ [e]) t' := by
    intro e t' he hwaiting hseen hne
    refine ih.le (le_of_eq ?_) hseen (hwaiting ▸ Multiset.Subset.refl _)
      fun src blk newTail h => absurd h (hne src blk newTail)
    rw [taken_snoc count tr hwaiting, he]
    exact zero_add _
  cases hstep with
  | newTxn _ =>
    exact hsame (hcount.other _ rfl) rfl Finset.Subset.rfl fun _ _ _ h => by simp at h
  | prepare _ _ =>
    exact hsame (hcount.other _ rfl) rfl Finset.Subset.rfl fun _ _ _ h => by simp at h
  | @propose blk s _ _ =>
    rcases hcount.propose t blk hg with hnone | ⟨hsome, hnew⟩
    · exact hsame hnone rfl (Finset.subset_insert ..) fun _ _ _ h => by simp at h
    · refine ih.add hnew ?_ rfl (fun x hx => Or.inl hx) fun _ _ _ h => by simp at h
      rw [taken_snoc (t := t) count tr (by rfl), hsome]
      exact Multiset.singleton_add ..
  | ignore _ => exact hsame (hcount.other _ rfl) rfl Finset.Subset.rfl fun _ _ _ h => by simp at h
  | @peerBlk src blk hne hnew =>
    refine ih.add hnew ?_ rfl (fun x hx => ?_) fun _ _ _ h => by simp at h
    · unfold taken BlockThread.waiting
      rw [filterMap_snoc, hcount.other _ rfl]
      simp only [Option.toList_none, List.append_nil, Multiset.cons_add, Multiset.map_cons]
    · have hx : x ∈ (src, blk) ::ₘ t.tasks + (t.pendingBlk : Multiset (NodeId × β)) := hx
      rw [Multiset.cons_add] at hx
      rcases Multiset.mem_cons.mp hx with rfl | hx
      · exact Or.inr ⟨hne, rfl⟩
      · exact Or.inl hx
  | @checked src blk rest valid htasks =>
    have hle : BlockThread.waiting { t with
        tasks := rest
        pendingBlk := if valid then t.pendingBlk ++ [(src, blk)] else t.pendingBlk } ≤
          t.waiting := by
      unfold BlockThread.waiting
      rw [htasks, Multiset.cons_add]
      cases valid with
      | false => exact Multiset.le_cons_self ..
      | true =>
        rw [if_pos rfl, coe_snoc, Multiset.add_cons]
    refine ih.le ?_ Finset.Subset.rfl (Multiset.subset_of_le hle) fun _ _ _ h => by simp at h
    unfold taken
    rw [filterMap_snoc, hcount.other _ rfl, Option.toList_none, List.append_nil]
    exact add_le_add_left (Multiset.map_le_map hle) _
  | @validate src blk rest newTail s hpending _ =>
    have hwaiting : t.waiting = (src, blk) ::ₘ BlockThread.waiting { t with
        stage := s
        pendingBlk := rest
        blkState := if newTail.isEmpty then t.blkState else .working } := by
      unfold BlockThread.waiting
      rw [hpending, ← Multiset.cons_coe, Multiset.add_cons]
    refine ih.le ?_ Finset.Subset.rfl ?_ fun src' blk' newTail' h => ?_
    · unfold taken
      rw [filterMap_snoc, hcount.validate, hwaiting, Multiset.map_cons, Multiset.cons_add,
        Option.toList_some, coe_snoc, Multiset.add_cons]
    · rw [hwaiting]
      exact Multiset.subset_cons ..
    · obtain ⟨rfl, rfl, rfl⟩ := Event.validate.inj h
      rw [hwaiting]
      exact Multiset.mem_cons_self ..
  | pmakerMsg => exact hsame (hcount.other _ rfl) rfl Finset.Subset.rfl fun _ _ _ h => by simp at h

/-- The ids of what counts are all different. -/
theorem SeenInv.nodup (h : SeenInv B id count tr t) : ((tr.filterMap count).map B.blkId).Nodup := by
  have hle : (tr.filterMap count : Multiset β) ≤ taken count tr t := Multiset.le_add_left ..
  exact Multiset.coe_nodup.mp (Multiset.nodup_of_le (Multiset.map_le_map hle) h.once)

/-- The blocks of peers count in every run. -/
theorem counts_validated (B : BlockStage σ β τ) (G : BlockThread σ β → Event β τ → Prop) :
    Counts B G Event.validated where
  validate _ _ _ := rfl
  propose _ _ _ := Or.inl rfl
  other e he := by
    cases e with
    | validate => exact absurd he (by simp [Event.handed])
    | _ => rfl

/-- No block with the id of an own block has arrived before it is made. Nothing in
the thread sees to it: what a peer sends is not compared with `src`, and some chains
count their blocks, so that their ids can be told in advance. -/
def OwnFresh (B : BlockStage σ β τ) (t : BlockThread σ β) (e : Event β τ) : Prop :=
  ∀ blk, e = .propose blk → B.blkId blk ∉ t.blksSeen

theorem counts_handed (B : BlockStage σ β τ) : Counts B (OwnFresh B) Event.handed where
  validate _ _ _ := rfl
  propose _ blk hfresh := Or.inr ⟨rfl, hfresh blk rfl⟩
  other _ he := he

/-- **Every block once**, whatever peers send and however often, and however the
tasks overlap: the blocks that are validated all have different ids, and each has
come from the peer it is validated for, which is not the node itself. Where own
blocks are fresh, the ids of these are different too. -/
theorem validated_once (B : BlockStage σ β τ) (id : NodeId) {tr : List (Event β τ)}
    {t : BlockThread σ β} (h : (blockThread B id).Run (fun _ _ => True) tr t) :
    ((validated tr).map B.blkId).Nodup ∧
      (∀ src blk newTail, .validate src blk newTail ∈ tr →
        src ≠ id ∧ .peerBlk src blk ∈ tr) ∧
      ((blockThread B id).Run (OwnFresh B) tr t → ((handed tr).map B.blkId).Nodup) := by
  have hseen := run_seenInv (counts_validated B _) h
  refine ⟨hseen.nodup, hseen.validated, fun hfresh => ?_⟩
  exact (run_seenInv (counts_handed B) hfresh).nodup

/-! ## Going idle -/

/-- What holds where the thread has stopped preparing: `prepare_new_block` brings it
about, transactions do not matter to a full block, and neither do blocks with an
empty result and messages of the pacemaker. `Inv` holds of the stage in every run,
`Expected` of the peer blocks. -/
structure Settles (B : BlockStage σ β τ) (Inv : σ → Prop) (Expected : σ → β → Prop)
    (Done : CurBlockState → σ → Prop) : Prop where
  prepared : ∀ s c s', Inv s → B.prepareNewBlock s c s' → Done c s'
  recorded : ∀ s txn s', Done .full s → B.recordNewTxn s txn s' → Done .full s'
  unsent : ∀ s c blk s', Inv s → Expected s blk → Done c s → B.validateBlock s blk [] s' →
    Done c s'
  pmakerMsg : ∀ s c, Done c s → Done c (B.handlePmakerMsg s)

variable {Inv : σ → Prop} {Expected : σ → β → Prop} {Done : CurBlockState → σ → Prop}

theorem Settles.records (h : Settles B Inv Expected Done) {s s' : σ} {txns : List τ}
    (hrecords : Records B s txns s') (hdone : Done .full s) : Done .full s' := by
  induction hrecords with
  | nil s => exact hdone
  | cons hrecord _ ih => exact ih (h.recorded _ _ _ hdone hrecord)

/-- **The rule for idle threads.** -/
theorem run_settled (hsettles : Settles B Inv Expected Done)
    (hinv : ∀ tr t, (blockThread B id).Run G tr t → Inv t.stage)
    (hexpected : ∀ t src blk newTail, G t (.validate src blk newTail) → Expected t.stage blk)
    (h : (blockThread B id).Run G tr t) : t.blkState ≠ .working → Done t.blkState t.stage := by
  induction h with
  | nil => exact fun hidle => absurd rfl hidle
  | @snoc tr t t' e hrun hg hstep ih =>
    intro hidle
    cases hstep with
    | newTxn hrecords =>
      cases hstate : t.blkState with
      | working => exact absurd (by rw [hstate]; rfl) hidle
      | emptyMempool => exact absurd (by rw [hstate]; rfl) hidle
      | full =>
        have hdone := ih (by rw [hstate]; exact CurBlockState.noConfusion)
        rw [hstate] at hdone
        exact hsettles.records hrecords hdone
    | prepare _ hprepare => exact hsettles.prepared _ _ _ (hinv tr t hrun) hprepare
    | propose _ _ => exact absurd rfl hidle
    | ignore _ => exact ih hidle
    | peerBlk _ _ => exact ih hidle
    | checked _ _ => exact ih hidle
    | @validate src blk rest newTail s _ hvalidate =>
      cases newTail with
      | nil =>
        exact hsettles.unsent _ _ _ _ (hinv tr t hrun) (hexpected t src blk [] hg) (ih hidle)
          hvalidate
      | cons _ _ => exact absurd rfl hidle
    | pmakerMsg => exact hsettles.pmakerMsg _ _ (ih hidle)

end Copycat.Thread
