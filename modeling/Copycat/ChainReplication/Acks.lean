import Copycat.ChainReplication.Commits

/-!
# When no acknowledgement is lost

The dissemination stage of the head sends a block before it queues it for its own
decision stage, so the acknowledgement of the tail may be handled before the head
has entered the block in `inflight_blks`; then it is ignored, and there is no
other. In an order of one node nobody acknowledges at all.

Where messages are not lost and the head handles no acknowledgement too early
(`Timely`), every block that has been made is somewhere on its way: `Held` says so
within a node, `SentOk` for what is sent along the order and `AckedOk` for
acknowledgements. When nothing is left to be done, what the head has made is
committed (`all_committed`).
-/

namespace Copycat.ChainReplication

open Copycat.Lib

variable {τ : Type}

/-! ## What is promised -/

/-- Nothing is lost: no message, and no block in the check of its transactions. -/
def Act.lossless : Act τ → Bool
  | lose _ => false
  | checked _ _ valid => valid
  | _ => true

/-- An acknowledgement is handled when its block is in `inflight_blks`, or has been
committed already. -/
def timely (s : Cluster τ) : Act τ → Bool
  | .recvAck i =>
    match s.net[i]? with
    | some (.ack _ dst recved) =>
      ((s.replicas dst).decision.inflightBlks recved).isSome ||
        decide (recved < (s.replicas dst).decision.nextToCommit)
    | _ => true
  | _ => true

/-- No message is on its way, and no stage of a node has anything to do with a
block. -/
structure Quiet (cfg : ChainReplicationConfig τ) (s : Cluster τ) : Prop where
  net : s.net = []
  checking : ∀ n ∈ cfg.order, (s.replicas n).checking = []
  pendingBlk : ∀ n ∈ cfg.order, (s.replicas n).pendingBlk = []
  newBlock : ∀ n ∈ cfg.order, (s.replicas n).newBlock = []
  sent : ∀ n ∈ cfg.order, (s.replicas n).sent = none
  blockReady : ∀ n ∈ cfg.order, (s.replicas n).blockReady = []
  commit : ∀ n ∈ cfg.order,
    (s.replicas n).decision.nextToCommit ∉ (s.replicas n).decision.commitReady

theorem quiet_of_stages {cfg : ChainReplicationConfig τ} {s : Cluster τ} (hnet : s.net = [])
    (h : ∀ n ∈ cfg.order, (s.replicas n).checking = [] ∧ (s.replicas n).pendingBlk = [] ∧
      (s.replicas n).newBlock = [] ∧ (s.replicas n).sent = none ∧
      (s.replicas n).blockReady = [] ∧
      (s.replicas n).decision.nextToCommit ∉ (s.replicas n).decision.commitReady) :
    Quiet cfg s where
  net := hnet
  checking n hn := (h n hn).1
  pendingBlk n hn := (h n hn).2.1
  newBlock n hn := (h n hn).2.2.1
  sent n hn := (h n hn).2.2.2.1
  blockReady n hn := (h n hn).2.2.2.2.1
  commit n hn := (h n hn).2.2.2.2.2

/-! ## Where a block is -/

/-- The node of an event. -/
def Event.node : Event τ → NodeId
  | recorded n _ | made n _ | validated n _ | disseminated n _ | tailed n _ | committed n _ _ => n

/-- The block is ready to be committed, or has been. -/
def Acked (d : Decision τ) (id : Nat) : Prop := id ∈ d.commitReady ∨ id < d.nextToCommit

section Rules

variable (cfg : ChainReplicationConfig τ) (E : List (Event τ))

/-- Within a node: a block that has been made is to be disseminated, so is one that
has been seen, and a disseminated one is to be taken by the decision stage. -/
structure Held (n : NodeId) (r : Replica τ) : Prop where
  made : ∀ blk, Event.made n blk ∈ E →
    (∃ m ∈ r.newBlock, m.2 = blk) ∨ Event.disseminated n blk ∈ E
  seen : ¬ isHead cfg n → ∀ id ∈ r.blksSeen,
    (∃ m ∈ r.checking ++ r.pendingBlk ++ r.newBlock, m.2.blkId = id) ∨
      ∃ blk, blk.blkId = id ∧ Event.disseminated n blk ∈ E
  passed : ∀ blk, Event.disseminated n blk ∈ E →
    (∃ m ∈ r.sent.toList ++ r.blockReady, m.2 = blk) ∨ Event.tailed n blk ∈ E

/-- Between nodes: what was disseminated is on its way to the next one, or was seen
there. -/
def SentOk (s : Cluster τ) : Prop :=
  ∀ n next blk, Hop cfg.order n next → Event.disseminated n blk ∈ E →
    .newBlock n next blk ∈ s.net ∨ blk.blkId ∈ (s.replicas next).blksSeen

/-- From the tail to the head: what the tail's decision stage has taken is
acknowledged, or is or has been ready to be committed. -/
def AckedOk (s : Cluster τ) : Prop :=
  ∀ tail head blk, role cfg tail = .tail → cfg.order.head? = some head →
    Event.tailed tail blk ∈ E → .ack tail head blk.blkId ∈ s.net ∨
      Acked (s.replicas head).decision blk.blkId

/-- All of it. -/
structure OnTheWay (s : Cluster τ) : Prop where
  held : ∀ n, Held cfg E n (s.replicas n)
  sent : SentOk cfg E s
  acked : AckedOk cfg E s

end Rules

section Steps

variable {cfg : ChainReplicationConfig τ} {E evs : List (Event τ)} {s s' : Cluster τ}
  {n : NodeId} {r r' : Replica τ}

/-- What happens elsewhere does not matter to a node. -/
theorem Held.elsewhere (h : Held cfg E n r) (hevs : ∀ e ∈ evs, e.node ≠ n) :
    Held cfg (E ++ evs) n r where
  made blk hin := by
    rcases List.mem_append.mp hin with hin | hin
    · exact (h.made blk hin).imp_right (List.mem_append_left _)
    · exact absurd rfl (hevs _ hin)
  seen hhead id hid := by
    refine (h.seen hhead id hid).imp_right fun hsent => ?_
    obtain ⟨blk, hblk, hin⟩ := hsent
    exact ⟨blk, hblk, List.mem_append_left _ hin⟩
  passed blk hin := by
    rcases List.mem_append.mp hin with hin | hin
    · exact (h.passed blk hin).imp_right (List.mem_append_left _)
    · exact absurd rfl (hevs _ hin)

/-- A turn of node `n` that keeps its channels, or moves blocks to later ones. -/
theorem Held.moved (h : Held cfg E n r)
    (hevs : ∀ e ∈ evs, ∀ blk, e ≠ .made n blk ∧ e ≠ .disseminated n blk)
    (hnew : ∀ m ∈ r.newBlock, m ∈ r'.newBlock)
    (hin : ∀ m ∈ r.checking ++ r.pendingBlk ++ r.newBlock,
      m ∈ r'.checking ++ r'.pendingBlk ++ r'.newBlock)
    (hseen : ∀ id ∈ r'.blksSeen, id ∈ r.blksSeen ∨
      ∃ m ∈ r'.checking ++ r'.pendingBlk ++ r'.newBlock, m.2.blkId = id)
    (hout : ∀ m ∈ r.sent.toList ++ r.blockReady,
      m ∈ r'.sent.toList ++ r'.blockReady ∨ Event.tailed n m.2 ∈ evs) :
    Held cfg (E ++ evs) n r' where
  made blk hmade := by
    rcases List.mem_append.mp hmade with hmade | hmade
    · rcases h.made blk hmade with ⟨m, hm, hblk⟩ | hsent
      · exact Or.inl ⟨m, hnew m hm, hblk⟩
      · exact Or.inr (List.mem_append_left _ hsent)
    · exact absurd rfl (hevs _ hmade blk).1
  seen hhead id hid := by
    rcases hseen id hid with hid | hhere
    · rcases h.seen hhead id hid with ⟨m, hm, hblk⟩ | ⟨blk, hblk, hsent⟩
      · exact Or.inl ⟨m, hin m hm, hblk⟩
      · exact Or.inr ⟨blk, hblk, List.mem_append_left _ hsent⟩
    · exact Or.inl hhere
  passed blk hsent := by
    rcases List.mem_append.mp hsent with hsent | hsent
    · rcases h.passed blk hsent with ⟨m, hm, rfl⟩ | htailed
      · rcases hout m hm with hm | htailed
        · exact Or.inl ⟨m, hm, rfl⟩
        · exact Or.inr (List.mem_append_right _ htailed)
      · exact Or.inr (List.mem_append_left _ htailed)
    · exact absurd rfl (hevs _ hsent blk).2

theorem Held.make (h : Held cfg E n r) (hhead : isHead cfg n) (mgmt : BlockManagement τ)
    (blk : Block τ) : Held cfg (E ++ [.made n blk]) n { r with
      mgmt := mgmt
      blksSeen := insert blk.blkId r.blksSeen
      newBlock := r.newBlock ++ [(n, blk)] } where
  made b hmade := by
    rcases List.mem_append.mp hmade with hmade | hmade
    · rcases h.made b hmade with ⟨m, hm, hb⟩ | hsent
      · exact Or.inl ⟨m, List.mem_append_left _ hm, hb⟩
      · exact Or.inr (List.mem_append_left _ hsent)
    · obtain ⟨-, rfl⟩ := Event.made.inj (List.mem_singleton.mp hmade)
      exact Or.inl ⟨(n, b), by simp, rfl⟩
  seen hnot := absurd hhead hnot
  passed b hsent := by
    rcases List.mem_append.mp hsent with hsent | hsent
    · exact (h.passed b hsent).imp_right (List.mem_append_left _)
    · exact absurd (List.mem_singleton.mp hsent) (by simp)

theorem Held.disseminate (h : Held cfg E n r) {src : NodeId} {blk : Block τ}
    {rest : List (NodeId × Block τ)} (hsent : r.sent = none)
    (hnew : r.newBlock = (src, blk) :: rest) : Held cfg (E ++ [.disseminated n blk]) n
      { r with newBlock := rest, sent := some (src, blk) } where
  made b hmade := by
    rcases List.mem_append.mp hmade with hmade | hmade
    · rcases h.made b hmade with ⟨m, hm, rfl⟩ | hdone
      · rw [hnew] at hm
        rcases List.mem_cons.mp hm with rfl | hm
        · exact Or.inr (by simp)
        · exact Or.inl ⟨m, hm, rfl⟩
      · exact Or.inr (List.mem_append_left _ hdone)
    · exact absurd (List.mem_singleton.mp hmade) (by simp)
  seen hhead id hid := by
    rcases h.seen hhead id hid with ⟨m, hm, rfl⟩ | ⟨b, hb, hdone⟩
    · rcases List.mem_append.mp hm with hm | hm
      · exact Or.inl ⟨m, List.mem_append_left _ hm, rfl⟩
      · rw [hnew] at hm
        rcases List.mem_cons.mp hm with rfl | hm
        · exact Or.inr ⟨blk, rfl, by simp⟩
        · exact Or.inl ⟨m, List.mem_append_right _ hm, rfl⟩
    · exact Or.inr ⟨b, hb, List.mem_append_left _ hdone⟩
  passed b hdone := by
    rcases List.mem_append.mp hdone with hdone | hdone
    · rcases h.passed b hdone with ⟨m, hm, rfl⟩ | htailed
      · rw [hsent] at hm
        exact Or.inl ⟨m, List.mem_append_right _ hm, rfl⟩
      · exact Or.inr (List.mem_append_left _ htailed)
    · obtain ⟨-, rfl⟩ := Event.disseminated.inj (List.mem_singleton.mp hdone)
      exact Or.inl ⟨(src, b), by simp, rfl⟩

/-- The nodes after the turn of one of them. -/
theorem held_set (h : ∀ m, Held cfg E m (s.replicas m)) {msgs : List (Msg τ)}
    (hevs : ∀ e ∈ evs, e.node = n) (hr : Held cfg (E ++ evs) n r') :
    ∀ m, Held cfg (E ++ evs) m ((s.set n r' msgs).replicas m) := by
  intro m
  show Held cfg (E ++ evs) m (Function.update s.replicas n r' m)
  by_cases hm : m = n
  · rw [hm, Function.update_self]
    exact hr
  · rw [Function.update_of_ne hm]
    exact (h m).elsewhere fun e he => by rw [hevs e he]; exact Ne.symm hm

end Steps

section Turns

variable {cfg : ChainReplicationConfig τ} {E evs : List (Event τ)} {s s' : Cluster τ} {a : Act τ}

theorem mem_eraseIdx_of_ne {α : Type} {l : List α} {i : Nat} {x y : α} (hx : l[i]? = some x)
    (hy : y ∈ l) (hne : y ≠ x) : y ∈ l.eraseIdx i := by
  obtain ⟨j, hj⟩ := List.mem_iff_getElem?.mp hy
  refine List.mem_eraseIdx_iff_getElem?.mpr ⟨j, fun hji => hne ?_, hj⟩
  rw [hji, hx, Option.some.injEq] at hj
  exact hj.symm

/-- No turn loses a block within a node. -/
theorem held_turn (h : ∀ n, Held cfg E n (s.replicas n)) (hlossless : a.lossless)
    (hturn : Turn cfg s a s' evs) : ∀ n, Held cfg (E ++ evs) n (s'.replicas n) := by
  have hsame : ∀ n, Held cfg (E ++ []) n (s.replicas n) := fun n => by
    rw [List.append_nil]
    exact h n
  cases hturn with
  | record n txn =>
    exact held_set h (by simp [Event.node]) ((h n).moved (by simp) (fun _ hm => hm)
      (fun _ hm => hm) (fun _ hid => Or.inl hid) (fun _ hm => Or.inl hm))
  | prepare n =>
    exact held_set h (by simp) ((h n).moved (by simp) (fun _ hm => hm)
      (fun _ hm => hm) (fun _ hid => Or.inl hid) (fun _ hm => Or.inl hm))
  | @make n mgmt blk hwait hblk =>
    exact held_set h (by simp [Event.node]) ((h n).make (getNewBlock_cases hblk).1 mgmt blk)
  | ignore hmsg hseen => exact hsame
  | @arrive i src dst blk hmsg hnew =>
    refine held_set (s := { s with net := s.net.eraseIdx i }) h (by simp)
      ((h dst).moved (by simp) (fun _ hm => hm) (fun m hm => ?_) (fun id hid => ?_)
        (fun _ hm => Or.inl hm))
    · simp only [List.mem_append] at hm ⊢
      tauto
    · rcases Finset.mem_insert.mp hid with rfl | hid
      · exact Or.inr ⟨(src, blk), by simp, rfl⟩
      · exact Or.inl hid
  | @check n i valid m hm =>
    have hvalid : valid = true := hlossless
    subst hvalid
    refine held_set h (by simp) ((h n).moved (by simp) (fun _ hm => hm) (fun m' hm' => ?_)
      (fun _ hid => Or.inl hid) (fun _ hm => Or.inl hm))
    simp only [List.mem_append, if_true, List.mem_singleton] at hm' ⊢
    rcases hm' with (hm' | hm') | hm'
    · by_cases heq : m' = m
      · exact Or.inl (Or.inr (Or.inr heq))
      · exact Or.inl (Or.inl (mem_eraseIdx_of_ne hm hm' heq))
    · exact Or.inl (Or.inr (Or.inl hm'))
    · exact Or.inr hm'
  | @validate n src blk rest hpending hhead =>
    refine held_set h (by simp [Event.node]) ((h n).moved (by simp)
      (fun _ hm => List.mem_append_left _ hm) (fun m hm => ?_) (fun _ hid => Or.inl hid)
      (fun _ hm => Or.inl hm))
    rw [hpending] at hm
    simp only [List.mem_append, List.mem_cons] at hm ⊢
    tauto
  | @disseminate n src blk rest msgs hsent hnew hmsgs =>
    exact held_set h (by simp [Event.node]) ((h n).disseminate hsent hnew)
  | @queue n m hsent =>
    refine held_set h (by simp) ((h n).moved (by simp) (fun _ hm => hm) (fun _ hm => hm)
      (fun _ hid => Or.inl hid) (fun m' hm' => Or.inl ?_))
    rw [hsent] at hm'
    simp only [Option.toList_some, Option.toList_none, List.mem_append, List.mem_singleton,
      List.not_mem_nil, false_or] at hm' ⊢
    exact hm'.symm
  | @newTail n src blk rest d msgs hready hd =>
    refine held_set h (by simp [Event.node]) ((h n).moved (by simp) (fun _ hm => hm)
      (fun _ hm => hm) (fun _ hid => Or.inl hid) (fun m hm => ?_))
    rw [hready] at hm
    rcases List.mem_append.mp hm with hm | hm
    · exact Or.inl (List.mem_append_left _ hm)
    · rcases List.mem_cons.mp hm with rfl | hm
      · exact Or.inr (by simp)
      · exact Or.inl (List.mem_append_right _ hm)
  | @ack i src dst recved d hmsg hd =>
    exact held_set (s := { s with net := s.net.eraseIdx i }) h (by simp)
      ((h dst).moved (by simp) (fun _ hm => hm) (fun _ hm => hm) (fun _ hid => Or.inl hid)
        (fun _ hm => Or.inl hm))
  | @commit n d height txns hd =>
    exact held_set h (by simp [Event.node]) ((h n).moved (by simp) (fun _ hm => hm)
      (fun _ hm => hm) (fun _ hid => Or.inl hid) (fun _ hm => Or.inl hm))
  | lose hmsg => exact hsame
  | duplicate hmsg => exact hsame

/-- A turn that disseminates nothing. -/
theorem SentOk.keep (h : SentOk cfg E s)
    (hnet : ∀ n next blk, Hop cfg.order n next → .newBlock n next blk ∈ s.net →
      .newBlock n next blk ∈ s'.net ∨ blk.blkId ∈ (s'.replicas next).blksSeen)
    (hseen : ∀ n, (s.replicas n).blksSeen ⊆ (s'.replicas n).blksSeen)
    (hevs : ∀ e ∈ evs, ∀ n blk, e ≠ .disseminated n blk) : SentOk cfg (E ++ evs) s' := by
  intro n next blk hhop hin
  rcases List.mem_append.mp hin with hin | hin
  · rcases h n next blk hhop hin with hsent | hdone
    · exact hnet n next blk hhop hsent
    · exact Or.inr (hseen next hdone)
  · exact absurd rfl (hevs _ hin n blk)

theorem blksSeen_set {n : NodeId} {r : Replica τ} {msgs : List (Msg τ)}
    (hsub : (s.replicas n).blksSeen ⊆ r.blksSeen) :
    ∀ m, (s.replicas m).blksSeen ⊆ ((s.set n r msgs).replicas m).blksSeen := by
  intro m
  show _ ⊆ (Function.update s.replicas n r m).blksSeen
  by_cases hm : m = n
  · rw [hm, Function.update_self]
    exact hsub
  · rw [Function.update_of_ne hm]

/-- No turn loses a block between two nodes. -/
theorem sent_turn (hnodup : cfg.order.Nodup) (h : SentOk cfg E s) (hlossless : a.lossless)
    (hn : ∀ n, a.node = some n → n ∈ cfg.order) (hturn : Turn cfg s a s' evs) :
    SentOk cfg (E ++ evs) s' := by
  have hstay : ∀ {n r} {msgs : List (Msg τ)} (m next : NodeId) (blk : Block τ),
      Hop cfg.order m next → .newBlock m next blk ∈ s.net →
      .newBlock m next blk ∈ (s.set n r msgs).net ∨
        blk.blkId ∈ ((s.set n r msgs).replicas next).blksSeen :=
    fun _ _ _ _ hin => Or.inl (List.mem_append_left _ hin)
  cases hturn with
  | record n txn => exact h.keep hstay (blksSeen_set (Finset.Subset.refl _)) (by simp)
  | prepare n => exact h.keep hstay (blksSeen_set (Finset.Subset.refl _)) (by simp)
  | make hwait hblk => exact h.keep hstay (blksSeen_set (Finset.subset_insert _ _)) (by simp)
  | @ignore i src dst blk hmsg hseen =>
    refine h.keep (fun n next b hhop hin => ?_) (fun n => Finset.Subset.refl _) (by simp)
    by_cases heq : (.newBlock n next b : Msg τ) = .newBlock src dst blk
    · obtain ⟨rfl, rfl, rfl⟩ := Msg.newBlock.inj heq
      -- no node is its own successor
      have hne : n ≠ next := by
        rintro rfl
        obtain ⟨j, hj, hj'⟩ := hhop
        exact absurd (place_unique hnodup hj hj') (Nat.ne_of_lt (Nat.lt_succ_self j))
      exact Or.inr (hseen.resolve_left hne)
    · exact Or.inl (mem_eraseIdx_of_ne hmsg hin heq)
  | @arrive i src dst blk hmsg hnew =>
    refine h.keep (fun n next b hhop hin => ?_)
      (blksSeen_set (s := { s with net := s.net.eraseIdx i }) (Finset.subset_insert _ _)) (by simp)
    by_cases heq : (.newBlock n next b : Msg τ) = .newBlock src dst blk
    · obtain ⟨rfl, rfl, rfl⟩ := Msg.newBlock.inj heq
      right
      show _ ∈ (Function.update s.replicas next _ next).blksSeen
      rw [Function.update_self]
      exact Finset.mem_insert_self _ _
    · exact Or.inl (List.mem_append_left _ (mem_eraseIdx_of_ne hmsg hin heq))
  | check hm => exact h.keep hstay (blksSeen_set (Finset.Subset.refl _)) (by simp)
  | validate hpending hhead => exact h.keep hstay (blksSeen_set (Finset.Subset.refl _)) (by simp)
  | @disseminate n src blk rest msgs hsent hnew hmsgs =>
    intro m next b hhop hin
    rcases List.mem_append.mp hin with hin | hin
    · rcases h m next b hhop hin with hin | hdone
      · exact Or.inl (List.mem_append_left _ hin)
      · exact Or.inr (blksSeen_set
          (r := { s.replicas n with newBlock := rest, sent := some (src, blk) })
          (Finset.Subset.refl _) next hdone)
    · obtain ⟨rfl, rfl⟩ := Event.disseminated.inj (List.mem_singleton.mp hin)
      left
      obtain ⟨j, hj, hnext⟩ := hhop
      obtain ⟨-, ⟨next', ⟨k, hk, hnext'⟩, rfl⟩ | ⟨hlast, -⟩⟩ :=
        disseminate_cases hnodup (hn m rfl) hmsgs
      · rw [place_unique hnodup hk hj, hnext, Option.some.injEq] at hnext'
        rw [hnext']
        exact List.mem_append_right _ (List.mem_singleton_self _)
      · rw [List.getLast?_eq_getElem?] at hlast
        have := place_unique hnodup hlast hj
        obtain ⟨hlt, -⟩ := List.getElem?_eq_some_iff.mp hnext
        omega
  | queue hsent => exact h.keep hstay (blksSeen_set (Finset.Subset.refl _)) (by simp)
  | newTail hready hd => exact h.keep hstay (blksSeen_set (Finset.Subset.refl _)) (by simp)
  | @ack i src dst recved d hmsg hd =>
    refine h.keep (fun n next b hhop hin => Or.inl (List.mem_append_left _ ?_))
      (blksSeen_set (s := { s with net := s.net.eraseIdx i }) (Finset.Subset.refl _)) (by simp)
    exact mem_eraseIdx_of_ne hmsg hin (by simp)
  | commit hd => exact h.keep hstay (blksSeen_set (Finset.Subset.refl _)) (by simp)
  | lose hmsg => exact absurd hlossless (by simp [Act.lossless])
  | duplicate hmsg =>
    exact h.keep (fun n next b _ hin => Or.inl (List.mem_append_left _ hin))
      (fun n => Finset.Subset.refl _) (by simp)

/-- A turn of other stages than the decision of the tail. -/
theorem AckedOk.keep (h : AckedOk cfg E s)
    (hnet : ∀ tail head id, .ack tail head id ∈ s.net → cfg.order.head? = some head →
      .ack tail head id ∈ s'.net ∨ Acked (s'.replicas head).decision id)
    (hacked : ∀ n id, Acked (s.replicas n).decision id → Acked (s'.replicas n).decision id)
    (hevs : ∀ e ∈ evs, ∀ n blk, e ≠ .tailed n blk) : AckedOk cfg (E ++ evs) s' := by
  intro tail head blk htail hhead hin
  rcases List.mem_append.mp hin with hin | hin
  · rcases h tail head blk htail hhead hin with hsent | hdone
    · exact hnet tail head blk.blkId hsent hhead
    · exact Or.inr (hacked head _ hdone)
  · exact absurd rfl (hevs _ hin tail blk)

theorem acked_set {n : NodeId} {r : Replica τ} {msgs : List (Msg τ)}
    (hsub : ∀ id, Acked (s.replicas n).decision id → Acked r.decision id) :
    ∀ m id, Acked (s.replicas m).decision id → Acked ((s.set n r msgs).replicas m).decision id := by
  intro m id hid
  show Acked (Function.update s.replicas n r m).decision id
  by_cases hm : m = n
  · rw [hm, Function.update_self]
    exact hsub id (hm ▸ hid)
  · rwa [Function.update_of_ne hm]

theorem newTail_acked {n : NodeId} {d d' : Decision τ} {blk : Block τ} {msgs : List (Msg τ)}
    (h : newTail cfg n d [blk] = .ok (d', msgs)) {id : Nat} (hid : Acked d id) : Acked d' id := by
  rw [newTail] at h
  split at h
  · rw [← (Prod.mk.inj (Except.ok.inj h)).1]
    exact hid
  · obtain ⟨head, -, h⟩ := bind_eq_ok.mp h
    rw [← (Prod.mk.inj (Except.ok.inj h)).1]
    exact hid
  · rw [← (Prod.mk.inj (Except.ok.inj h)).1]
    exact hid

/-- What the head does with an acknowledgement it does not ignore. -/
theorem handlePeerMsg_acked {n src : NodeId} {d d' : Decision τ} {recved : Nat}
    (h : handlePeerMsg cfg n d src recved = .ok d') :
    (∀ id, Acked d id → Acked d' id) ∧
      ((d.inflightBlks recved).isSome ∨ recved < d.nextToCommit → Acked d' recved) := by
  unfold handlePeerMsg at h
  split at h
  · split at h
    · rw [← Except.ok.inj h]
      refine ⟨fun id hid => hid.imp_left (Finset.mem_insert_of_mem ·), fun _ => ?_⟩
      exact Or.inl (Finset.mem_insert_self _ _)
    · rename_i hin
      rw [← Except.ok.inj h]
      exact ⟨fun id hid => hid, fun hsome => Or.inr (hsome.resolve_left hin)⟩
  · exact absurd h (by simp)

theorem nextToCommit_acked {d d' : Decision τ} {height : Nat} {txns : List τ}
    (h : nextToCommit d = .ok (d', height, txns)) {id : Nat} (hid : Acked d id) : Acked d' id := by
  obtain ⟨-, -, blk, -, -, rfl⟩ := nextToCommit_cases h
  unfold Acked at hid ⊢
  dsimp only
  by_cases heq : id = d.nextToCommit
  · exact Or.inr (by omega)
  · rcases hid with hid | hid
    · exact Or.inl (Finset.mem_erase.mpr ⟨heq, hid⟩)
    · exact Or.inr (by omega)

/-- No turn loses an acknowledgement. -/
theorem acked_turn (h : AckedOk cfg E s) (hlossless : a.lossless) (htimely : timely s a)
    (hturn : Turn cfg s a s' evs) : AckedOk cfg (E ++ evs) s' := by
  have hstay : ∀ {n r} {msgs : List (Msg τ)} (tail head : NodeId) (id : Nat),
      .ack tail head id ∈ s.net → cfg.order.head? = some head →
      .ack tail head id ∈ (s.set n r msgs).net ∨
        Acked ((s.set n r msgs).replicas head).decision id :=
    fun _ _ _ hin _ => Or.inl (List.mem_append_left _ hin)
  cases hturn with
  | record n txn => exact h.keep hstay (acked_set fun _ hid => hid) (by simp)
  | prepare n => exact h.keep hstay (acked_set fun _ hid => hid) (by simp)
  | make hwait hblk => exact h.keep hstay (acked_set fun _ hid => hid) (by simp)
  | @ignore i src dst blk hmsg hseen =>
    refine h.keep (fun tail head id hin _ => Or.inl ?_) (fun _ _ hid => hid) (by simp)
    exact mem_eraseIdx_of_ne hmsg hin (by simp)
  | @arrive i src dst blk hmsg hnew =>
    refine h.keep (fun tail head id hin _ => Or.inl (List.mem_append_left _ ?_))
      (acked_set (s := { s with net := s.net.eraseIdx i }) fun _ hid => hid) (by simp)
    exact mem_eraseIdx_of_ne hmsg hin (by simp)
  | check hm => exact h.keep hstay (acked_set fun _ hid => hid) (by simp)
  | validate hpending hhead => exact h.keep hstay (acked_set fun _ hid => hid) (by simp)
  | disseminate hsent hnew hmsgs => exact h.keep hstay (acked_set fun _ hid => hid) (by simp)
  | queue hsent => exact h.keep hstay (acked_set fun _ hid => hid) (by simp)
  | @newTail n src blk rest d msgs hready hd =>
    intro tail head b htail hhead hin
    rcases List.mem_append.mp hin with hin | hin
    · rcases h tail head b htail hhead hin with hsent | hdone
      · exact Or.inl (List.mem_append_left _ hsent)
      · have hold : ∀ m id, Acked (s.replicas m).decision id → Acked ((s.set n { s.replicas n with
            blockReady := rest, decision := d } msgs).replicas m).decision id :=
          acked_set fun _ hid => newTail_acked hd hid
        exact Or.inr (hold head _ hdone)
    · -- the tail acknowledges the block
      obtain ⟨rfl, rfl⟩ := Event.tailed.inj (List.mem_singleton.mp hin)
      rw [newTail, htail, hhead] at hd
      obtain ⟨-, rfl⟩ := Prod.mk.inj (Except.ok.inj hd)
      exact Or.inl (List.mem_append_right _ (List.mem_singleton_self _))
  | @ack i src dst recved d hmsg hd =>
    obtain ⟨hkeeps, htaken⟩ := handlePeerMsg_acked hd
    refine h.keep (fun tail head id hin hhead => ?_)
      (acked_set (s := { s with net := s.net.eraseIdx i }) hkeeps) (by simp)
    by_cases heq : (.ack tail head id : Msg τ) = .ack src dst recved
    · obtain ⟨rfl, rfl, rfl⟩ := Msg.ack.inj heq
      right
      show Acked (Function.update s.replicas head _ head).decision id
      rw [Function.update_self]
      refine htaken ?_
      unfold timely at htimely
      dsimp only at htimely
      rw [hmsg] at htimely
      simpa using htimely
    · exact Or.inl (List.mem_append_left _ (mem_eraseIdx_of_ne hmsg hin heq))
  | commit hd => exact h.keep hstay (acked_set fun _ hid => nextToCommit_acked hd hid) (by simp)
  | lose hmsg => exact absurd hlossless (by simp [Act.lossless])
  | duplicate hmsg =>
    exact h.keep (fun _ _ _ hin _ => Or.inl (List.mem_append_left _ hin)) (fun _ _ hid => hid)
      (by simp)

end Turns

/-! ## Runs -/

section Runs

variable {cfg : ChainReplicationConfig τ} {E : List (Event τ)} {s : Cluster τ}

theorem onTheWay_new (cfg : ChainReplicationConfig τ) : OnTheWay cfg [] .new where
  held _ :=
    { made := fun _ h => absurd h (by simp)
      seen := fun _ _ h => absurd h (by simp [Cluster.new, Replica.new])
      passed := fun _ h => absurd h (by simp) }
  sent _ _ _ _ h := absurd h (by simp)
  acked _ _ _ _ _ h := absurd h (by simp)

theorem onTheWay_run (hnodup : cfg.order.Nodup) {tr : List (Act τ × List (Event τ))}
    (h : (cluster cfg).Run (fun s l => l.1.lossless ∧ timely s l.1) tr s) :
    OnTheWay cfg (events tr) s :=
  Machine.Run.invariant_trace (M := cluster cfg) (fun tr s => OnTheWay cfg (events tr) s)
    (onTheWay_new cfg) (fun tr s l s' hinv hguard hstep => by
      have hturn := act_turn hstep.2
      rw [events_snoc]
      exact ⟨held_turn hinv.held hguard.1 hturn,
        sent_turn hnodup hinv.sent hguard.1 hstep.1 hturn,
        acked_turn hinv.acked hguard.1 hguard.2 hturn⟩) h

/-- When nothing is left to be done, a block of the head has been disseminated
along the whole order. -/
theorem OnTheWay.everywhere (h : OnTheWay cfg E s) (hquiet : Quiet cfg s)
    (hnodup : cfg.order.Nodup) {head : NodeId} {blk : Block τ}
    (hhead : cfg.order.head? = some head) (hmade : Event.made head blk ∈ E) :
    ∀ {j : Nat} {n : NodeId}, cfg.order[j]? = some n →
      ∃ b, b.blkId = blk.blkId ∧ Event.disseminated n b ∈ E := by
  intro j
  induction j with
  | zero =>
    intro n hn
    rw [List.head?_eq_getElem?, hn, Option.some.injEq] at hhead
    subst hhead
    rcases (h.held n).made blk hmade with ⟨m, hm, -⟩ | hdone
    · rw [hquiet.newBlock n (List.mem_of_getElem? hn)] at hm
      exact absurd hm (by simp)
    · exact ⟨blk, rfl, hdone⟩
  | succ j ih =>
    intro n hn
    obtain ⟨hlt, -⟩ := List.getElem?_eq_some_iff.mp hn
    have hprev : cfg.order[j]? = some cfg.order[j] := List.getElem?_eq_getElem (by omega)
    obtain ⟨b, hb, hsent⟩ := ih hprev
    have hmem := List.mem_of_getElem? hn
    have hnot : ¬ isHead cfg n := fun hh =>
      absurd (head_place hnodup (isHead_iff.mp hh) hn) (Nat.succ_ne_zero j)
    rcases h.sent _ n b ⟨j, hprev, hn⟩ hsent with hnet | hseen
    · rw [hquiet.net] at hnet
      exact absurd hnet (by simp)
    · rcases (h.held n).seen hnot b.blkId hseen with ⟨m, hm, -⟩ | ⟨b', hb', hdone⟩
      · rw [hquiet.checking n hmem, hquiet.pendingBlk n hmem, hquiet.newBlock n hmem] at hm
        exact absurd hm (by simp)
      · exact ⟨b', hb'.trans hb, hdone⟩

/-- And it is ready to be committed, or has been. -/
theorem OnTheWay.acked_all (h : OnTheWay cfg E s) (hquiet : Quiet cfg s)
    (hnodup : cfg.order.Nodup) (hlen : 2 ≤ cfg.order.length) {head : NodeId} {blk : Block τ}
    (hhead : cfg.order.head? = some head) (hmade : Event.made head blk ∈ E) :
    Acked (s.replicas head).decision blk.blkId := by
  have htail : cfg.order[cfg.order.length - 1]? = some cfg.order[cfg.order.length - 1] :=
    List.getElem?_eq_getElem (by omega)
  obtain ⟨b, hb, hsent⟩ := h.everywhere hquiet hnodup hhead hmade htail
  have hmem := List.mem_of_getElem? htail
  generalize cfg.order[cfg.order.length - 1] = tail at htail hsent hmem
  have hrole : role cfg tail = .tail := by
    unfold role
    rw [if_neg, if_pos]
    · rw [List.getLast?_eq_getElem?]
      exact htail
    · intro hh
      have := head_place hnodup hh htail
      omega
  rcases (h.held tail).passed b hsent with ⟨m, hm, -⟩ | htailed
  · rw [hquiet.sent tail hmem, hquiet.blockReady tail hmem] at hm
    exact absurd hm (by simp)
  · rcases h.acked tail head b hrole hhead htailed with hnet | hacked
    · rw [hquiet.net] at hnet
      exact absurd hnet (by simp)
    · rwa [← hb]

/-- **No acknowledgement is lost.** In an order of at least two different nodes,
where no message is lost and the head handles no acknowledgement before the block
is in `inflight_blks`: when nothing is left to be done, the head has committed
every block it has made. -/
theorem all_committed (cfg : ChainReplicationConfig τ) (hnodup : cfg.order.Nodup)
    (hlen : 2 ≤ cfg.order.length) {tr : List (Act τ × List (Event τ))} {s : Cluster τ}
    (h : (cluster cfg).Run (fun s l => l.1.lossless ∧ timely s l.1) tr s)
    (hquiet : Quiet cfg s) {head : NodeId} (hhead : cfg.order.head? = some head) :
    committedAt head (events tr) =
      (madeAt head (events tr)).map fun blk => (blk.blkId, blk.txns) := by
  have hway := onTheWay_run hnodup h
  have hok := (clusterInv_run hnodup h).head head (isHead_iff.mpr hhead)
  have hle : (madeAt head (events tr)).length ≤ (committedAt head (events tr)).length := by
    by_contra hmore
    -- the block that is next to be committed has been made
    have hlt : (committedAt head (events tr)).length < (madeAt head (events tr)).length := by omega
    have hblk := List.getElem?_eq_getElem hlt
    have hid := hok.ids _ _ hblk
    have hmade := mem_madeAt.mp (List.mem_of_getElem? hblk)
    have hnext := hok.nextToCommit
    rcases hway.acked_all hquiet hnodup hlen hhead hmade with hready | hdone
    · rw [hid, ← hnext] at hready
      rw [List.head?_eq_getElem?] at hhead
      exact hquiet.commit head (List.mem_of_getElem? hhead) hready
    · omega
  rw [hok.commits, List.take_of_length_le hle]

theorem all_committed_demo : ∃ tr s,
    (cluster pair).Run (fun s l => l.1.lossless ∧ timely s l.1) tr s ∧
    tr.map Prod.fst = commitTurns ∧ madeAt 0 (events tr) = [⟨1, [7]⟩] ∧
    committedAt 0 (events tr) = [(1, [7])] := by
  have hcheck : returns (turns pair (fun s a => a.lossless && timely s a) commitTurns) (fun r =>
      madeAt 0 (events r.2) = [⟨1, [7]⟩] ∧ r.1.net = [] ∧ ∀ n ∈ pair.order,
        (r.1.replicas n).checking = [] ∧ (r.1.replicas n).pendingBlk = [] ∧
        (r.1.replicas n).newBlock = [] ∧ (r.1.replicas n).sent = none ∧
        (r.1.replicas n).blockReady = [] ∧
        (r.1.replicas n).decision.nextToCommit ∉ (r.1.replicas n).decision.commitReady) = true := by
    decide +kernel
  obtain ⟨⟨s, tr⟩, hr, hcheck⟩ := returns_iff.mp hcheck
  obtain ⟨hmade, hnet, hstages⟩ := of_decide_eq_true hcheck
  obtain ⟨hrun, hacts⟩ := run_turns hr (by simp [commitTurns, Act.node, pair])
  have hrun : (cluster pair).Run (fun s l => l.1.lossless ∧ timely s l.1) tr s :=
    hrun.mono fun _ _ _ hg => by simpa using hg
  have hcommitted := all_committed pair (by decide) (by decide) hrun
    (quiet_of_stages hnet hstages) rfl
  dsimp only at hmade
  rw [hmade] at hcommitted
  exact ⟨tr, s, hrun, hacts, hmade, hcommitted⟩

/-- The acknowledgement comes back before the head has queued its block. -/
def earlyAck : List (Act Nat) :=
  [.recordNewTxn 0 7, .prepareNewBlock 0, .getNewBlock 0, .disseminate 0,
    .recvBlock 0, .checked 1 0 true, .validateBlock 1, .disseminate 1, .queue 1, .newTail 1,
    .recvAck 0, .queue 0, .newTail 0]

/-- Nobody acknowledges the blocks of a single node. -/
def alone : ChainReplicationConfig Nat := ⟨[0], 1, fun _ => 1⟩

def aloneTurns : List (Act Nat) :=
  [.recordNewTxn 0 7, .prepareNewBlock 0, .getNewBlock 0, .disseminate 0, .queue 0, .newTail 0]

/-- Nothing is lost, nothing is left to be done, and the block is not committed. -/
theorem ack_lost :
    (∃ tr s, (cluster pair).Run (fun _ l => l.1.lossless) tr s ∧ tr.map Prod.fst = earlyAck ∧
      Quiet pair s ∧ madeAt 0 (events tr) = [⟨1, [7]⟩] ∧ committedAt 0 (events tr) = []) ∧
    ∃ tr s, (cluster alone).Run (fun _ l => l.1.lossless) tr s ∧ tr.map Prod.fst = aloneTurns ∧
      Quiet alone s ∧ madeAt 0 (events tr) = [⟨1, [7]⟩] ∧ committedAt 0 (events tr) = [] := by
  have hstuck : ∀ (cfg : ChainReplicationConfig Nat) (acts : List (Act Nat)),
      (∀ a ∈ acts, ∀ n, a.node = some n → n ∈ cfg.order) →
      returns (turns cfg (fun _ a => a.lossless) acts) (fun r =>
        madeAt 0 (events r.2) = [⟨1, [7]⟩] ∧ committedAt 0 (events r.2) = [] ∧ r.1.net = [] ∧
          ∀ n ∈ cfg.order, (r.1.replicas n).checking = [] ∧ (r.1.replicas n).pendingBlk = [] ∧
          (r.1.replicas n).newBlock = [] ∧ (r.1.replicas n).sent = none ∧
          (r.1.replicas n).blockReady = [] ∧
          (r.1.replicas n).decision.nextToCommit ∉ (r.1.replicas n).decision.commitReady) = true →
      ∃ tr s, (cluster cfg).Run (fun _ l => l.1.lossless) tr s ∧ tr.map Prod.fst = acts ∧
        Quiet cfg s ∧ madeAt 0 (events tr) = [⟨1, [7]⟩] ∧ committedAt 0 (events tr) = [] := by
    intro cfg acts hn hcheck
    obtain ⟨⟨s, tr⟩, hr, hcheck⟩ := returns_iff.mp hcheck
    obtain ⟨hmade, hcommitted, hnet, hstages⟩ := of_decide_eq_true hcheck
    obtain ⟨hrun, hacts⟩ := run_turns hr hn
    exact ⟨tr, s, hrun, hacts, quiet_of_stages hnet hstages, hmade, hcommitted⟩
  exact ⟨hstuck pair earlyAck (by simp [earlyAck, Act.node, pair]) (by decide +kernel),
    hstuck alone aloneTurns (by simp [aloneTurns, Act.node, alone]) (by decide +kernel)⟩

end Runs

end Copycat.ChainReplication
