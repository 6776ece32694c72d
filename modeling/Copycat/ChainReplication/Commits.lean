import Copycat.ChainReplication.Cluster

/-!
# The head commits in order, and only what is replicated

What is known of a block is where it has been: a message that carries it was sent
by a node that had accepted it, and came from the node before it in the order.
`MsgOk` and `ReplicaOk` say so for everything that is on its way, and `HistoryOk`
for the events; each of them stays true when more happens. An acknowledgement
comes from the tail, so the block has been accepted along the whole order
(`HistoryOk.upstream`).

`HeadOk` is the numbering of the blocks at the head: what has been committed is
an initial part of what has been made. `committed_in_order` is the result, for
every order of at least two different nodes and every behaviour of the network.
-/

namespace Copycat.ChainReplication

open Copycat.Lib

variable {τ : Type}

/-! ## The order -/

/-- `dst` comes right after `src`. -/
def Hop (order : List NodeId) (src dst : NodeId) : Prop :=
  ∃ j, order[j]? = some src ∧ order[j + 1]? = some dst

/-- Where a node gets its blocks from: the one before it, and the head from
itself. -/
def From (order : List NodeId) (src n : NodeId) : Prop :=
  (order.head? = some n ∧ src = n) ∨ Hop order src n

section Order

variable {order : List NodeId} {n src dst : NodeId} {i j : Nat}

theorem place_unique (hnodup : order.Nodup) (hi : order[i]? = some n) (hj : order[j]? = some n) :
    i = j := by
  obtain ⟨hlt, hget⟩ := List.getElem?_eq_some_iff.mp hi
  obtain ⟨hlt', hget'⟩ := List.getElem?_eq_some_iff.mp hj
  exact (List.Nodup.getElem_inj_iff hnodup).mp (hget.trans hget'.symm)

theorem head_place (hnodup : order.Nodup) (h : order.head? = some n) (hj : order[j]? = some n) :
    j = 0 := by
  rw [List.head?_eq_getElem?] at h
  exact place_unique hnodup hj h

/-- Nobody comes before the head. -/
theorem Hop.not_head (h : Hop order src n) (hnodup : order.Nodup) : order.head? ≠ some n := by
  intro hhead
  obtain ⟨j, -, hn⟩ := h
  exact absurd (head_place hnodup hhead hn) (Nat.succ_ne_zero j)

theorem idxOf_place (hnodup : order.Nodup) (hj : order[j]? = some n) : order.idxOf n = j := by
  obtain ⟨hlt, hget⟩ := List.getElem?_eq_some_iff.mp hj
  rw [← hget]
  exact hnodup.idxOf_getElem j hlt

/-- What a node's dissemination stage knows about the order. -/
theorem linear_new (hnodup : order.Nodup) (hj : order[j]? = some n) :
    ∃ prev, LinearBlockDissemination.new n order = .ok ⟨prev, order[j + 1]?⟩ ∧
      ∀ src, From order src n ↔ src = prev := by
  obtain ⟨hlt, -⟩ := List.getElem?_eq_some_iff.mp hj
  have hnext : (if j = order.length - 1 then none else order[j + 1]?) = order[j + 1]? := by
    split
    · rename_i hlast
      exact (List.getElem?_eq_none (by omega)).symm
    · rfl
  unfold LinearBlockDissemination.new
  rw [idxOf_place hnodup hj]
  dsimp only
  rw [hnext]
  cases j with
  | zero =>
    refine ⟨n, ?_, fun src => ?_⟩
    · rw [if_pos rfl, hj]
      exact if_pos hlt
    · constructor
      · intro h
        rcases h with ⟨-, rfl⟩ | hhop
        · rfl
        · obtain ⟨i, -, hi⟩ := hhop
          exact absurd (place_unique hnodup hi hj) (Nat.succ_ne_zero i)
      · rintro rfl
        exact Or.inl ⟨by rw [List.head?_eq_getElem?, hj], rfl⟩
  | succ j =>
    have hprev : order[j]? = some order[j] := List.getElem?_eq_getElem (by omega)
    refine ⟨order[j], ?_, fun src => ?_⟩
    · rw [if_neg (Nat.succ_ne_zero j), Nat.add_sub_cancel, hprev]
      exact if_pos hlt
    · constructor
      · intro h
        rcases h with ⟨hhead, -⟩ | ⟨i, hsrc, hi⟩
        · exact absurd (head_place hnodup hhead hj) (Nat.succ_ne_zero j)
        · have hij : i = j := Nat.succ_inj.mp (place_unique hnodup hi hj)
          rw [hij, hprev, Option.some.injEq] at hsrc
          exact hsrc.symm
      · rintro rfl
        exact Or.inr ⟨j, hprev, hj⟩

end Order

section Disseminate

variable {cfg : ChainReplicationConfig τ} {n src : NodeId} {blk : Block τ}

/-- What `disseminate` sends. -/
theorem disseminate_cases (hnodup : cfg.order.Nodup) (hn : n ∈ cfg.order) {msgs : List (Msg τ)}
    (h : disseminate cfg n src blk = .ok msgs) :
    From cfg.order src n ∧
      ((∃ next, Hop cfg.order n next ∧ msgs = [.newBlock n next blk]) ∨
        (cfg.order.getLast? = some n ∧ msgs = [])) := by
  obtain ⟨j, hlt, hget⟩ := List.getElem_of_mem hn
  have hj : cfg.order[j]? = some n := by rw [List.getElem?_eq_getElem hlt, hget]
  obtain ⟨prev, hnew, hfrom⟩ := linear_new hnodup hj
  unfold disseminate at h
  rw [hnew] at h
  obtain ⟨stage, hstage, h⟩ := bind_eq_ok.mp h
  rw [← Except.ok.inj hstage] at h
  split at h
  · exact absurd h (by simp)
  · rename_i hsrc
    refine ⟨(hfrom src).mpr (by simpa using hsrc), ?_⟩
    cases hnext : cfg.order[j + 1]? with
    | some next =>
      rw [hnext] at h
      exact Or.inl ⟨next, ⟨j, hj, hnext⟩, (Except.ok.inj h).symm⟩
    | none =>
      rw [hnext] at h
      refine Or.inr ⟨?_, (Except.ok.inj h).symm⟩
      have hle := List.getElem?_eq_none_iff.mp hnext
      rw [List.getLast?_eq_getElem?, show cfg.order.length - 1 = j by omega, hj]

/-- It returns for a block from where the node gets its blocks. -/
theorem disseminate_returns (hnodup : cfg.order.Nodup) (hn : n ∈ cfg.order)
    (hsrc : From cfg.order src n) : ∃ msgs, disseminate cfg n src blk = .ok msgs := by
  obtain ⟨j, hlt, hget⟩ := List.getElem_of_mem hn
  have hj : cfg.order[j]? = some n := by rw [List.getElem?_eq_getElem hlt, hget]
  obtain ⟨prev, hnew, hfrom⟩ := linear_new hnodup hj
  have hprev := (hfrom src).mp hsrc
  unfold disseminate
  cases hnext : cfg.order[j + 1]? with
  | some next =>
    refine ⟨[.newBlock n next blk], bind_eq_ok.mpr
      ⟨_, hnew, (if_neg (by simpa using hprev)).trans ?_⟩⟩
    rw [hnext]
  | none =>
    refine ⟨[], bind_eq_ok.mpr ⟨_, hnew, (if_neg (by simpa using hprev)).trans ?_⟩⟩
    rw [hnext]

end Disseminate

/-! ## What has happened to a block -/

/-- The event by which a node takes a block on. -/
def took (cfg : ChainReplicationConfig τ) (n : NodeId) (blk : Block τ) : Event τ :=
  if isHead cfg n then .made n blk else .validated n blk

/-- The node has accepted the block: the head has made it, any other node has
validated it, and then it was disseminated. -/
def Accepted (cfg : ChainReplicationConfig τ) (E : List (Event τ)) (n : NodeId) (blk : Block τ) :
    Prop := [took cfg n blk, .disseminated n blk].Sublist E

/-- The block with this id has been accepted by the tail. -/
def Replicated (cfg : ChainReplicationConfig τ) (E : List (Event τ)) (id : Nat) : Prop :=
  ∃ blk tail, blk.blkId = id ∧ cfg.order.getLast? = some tail ∧ Event.disseminated tail blk ∈ E

section Invariant

variable (cfg : ChainReplicationConfig τ) (E : List (Event τ))

/-- A message comes from where it should. -/
def MsgOk : Msg τ → Prop
  | .newBlock src dst blk => Hop cfg.order src dst ∧ Event.disseminated src blk ∈ E
  | .ack src dst recved => cfg.order.head? = some dst ∧ cfg.order.getLast? = some src ∧
      Replicated cfg E recved

/-- So does everything in the stages of a node. -/
structure ReplicaOk (n : NodeId) (r : Replica τ) : Prop where
  arrived : ∀ m ∈ r.checking ++ r.pendingBlk, Hop cfg.order m.1 n ∧
    Event.disseminated m.1 m.2 ∈ E
  taken : ∀ m ∈ r.newBlock, From cfg.order m.1 n ∧ took cfg n m.2 ∈ E
  ready : ∀ m ∈ r.sent.toList ++ r.blockReady, Event.disseminated n m.2 ∈ E
  inflight : ∀ id blk, r.decision.inflightBlks id = some blk →
    blk.blkId = id ∧ cfg.order.head? = some n ∧ Event.disseminated n blk ∈ E
  commitReady : ∀ id ∈ r.decision.commitReady,
    (r.decision.inflightBlks id).isSome ∧ Replicated cfg E id

/-- A disseminated block has been taken on before, and a validated one
disseminated by the node before. -/
structure HistoryOk : Prop where
  accepted : ∀ n blk, Event.disseminated n blk ∈ E → n ∈ cfg.order ∧ Accepted cfg E n blk
  validated : ∀ n blk, Event.validated n blk ∈ E →
    ∃ src, Hop cfg.order src n ∧ Event.disseminated src blk ∈ E

/-- All of it. -/
structure Traffic (s : Cluster τ) : Prop where
  history : HistoryOk cfg E
  msgs : ∀ m ∈ s.net, MsgOk cfg E m
  replicas : ∀ n, ReplicaOk cfg E n (s.replicas n)

end Invariant

section Steps

variable {cfg : ChainReplicationConfig τ} {E evs : List (Event τ)} {s : Cluster τ}
  {n : NodeId} {r : Replica τ}

theorem Replicated.mono {id : Nat} (h : Replicated cfg E id) : Replicated cfg (E ++ evs) id := by
  obtain ⟨blk, tail, hid, htail, hin⟩ := h
  exact ⟨blk, tail, hid, htail, List.mem_append_left _ hin⟩

theorem MsgOk.mono {m : Msg τ} (h : MsgOk cfg E m) : MsgOk cfg (E ++ evs) m := by
  cases m with
  | newBlock => exact ⟨h.1, List.mem_append_left _ h.2⟩
  | ack => exact ⟨h.1, h.2.1, h.2.2.mono⟩

theorem ReplicaOk.mono (h : ReplicaOk cfg E n r) : ReplicaOk cfg (E ++ evs) n r where
  arrived m hm := ⟨(h.arrived m hm).1, List.mem_append_left _ (h.arrived m hm).2⟩
  taken m hm := ⟨(h.taken m hm).1, List.mem_append_left _ (h.taken m hm).2⟩
  ready m hm := List.mem_append_left _ (h.ready m hm)
  inflight id blk hin :=
    ⟨(h.inflight id blk hin).1, (h.inflight id blk hin).2.1,
      List.mem_append_left _ (h.inflight id blk hin).2.2⟩
  commitReady id hid := ⟨(h.commitReady id hid).1, (h.commitReady id hid).2.mono⟩

/-- Events that are neither a validation nor a dissemination. -/
theorem HistoryOk.other (h : HistoryOk cfg E)
    (hevs : ∀ e ∈ evs, ∀ n blk, e ≠ .validated n blk ∧ e ≠ .disseminated n blk) :
    HistoryOk cfg (E ++ evs) where
  accepted n blk hin := by
    rcases List.mem_append.mp hin with hin | hin
    · obtain ⟨hn, hacc⟩ := h.accepted n blk hin
      exact ⟨hn, hacc.trans (List.sublist_append_left ..)⟩
    · exact absurd rfl (hevs _ hin n blk).2
  validated n blk hin := by
    rcases List.mem_append.mp hin with hin | hin
    · obtain ⟨src, hhop, hsent⟩ := h.validated n blk hin
      exact ⟨src, hhop, List.mem_append_left _ hsent⟩
    · exact absurd rfl (hevs _ hin n blk).1

theorem HistoryOk.validate (h : HistoryOk cfg E) {src : NodeId} {blk : Block τ}
    (hhop : Hop cfg.order src n) (hsent : Event.disseminated src blk ∈ E) :
    HistoryOk cfg (E ++ [.validated n blk]) where
  accepted m b hin := by
    rcases List.mem_append.mp hin with hin | hin
    · obtain ⟨hm, hacc⟩ := h.accepted m b hin
      exact ⟨hm, hacc.trans (List.sublist_append_left ..)⟩
    · exact absurd (List.mem_singleton.mp hin) (by simp)
  validated m b hin := by
    rcases List.mem_append.mp hin with hin | hin
    · obtain ⟨src', hhop', hsent'⟩ := h.validated m b hin
      exact ⟨src', hhop', List.mem_append_left _ hsent'⟩
    · obtain ⟨rfl, rfl⟩ := Event.validated.inj (List.mem_singleton.mp hin)
      exact ⟨src, hhop, List.mem_append_left _ hsent⟩

theorem HistoryOk.disseminate (h : HistoryOk cfg E) {blk : Block τ} (hn : n ∈ cfg.order)
    (htook : took cfg n blk ∈ E) : HistoryOk cfg (E ++ [.disseminated n blk]) where
  accepted m b hin := by
    rcases List.mem_append.mp hin with hin | hin
    · obtain ⟨hm, hacc⟩ := h.accepted m b hin
      exact ⟨hm, hacc.trans (List.sublist_append_left ..)⟩
    · obtain ⟨rfl, rfl⟩ := Event.disseminated.inj (List.mem_singleton.mp hin)
      exact ⟨hn, (List.singleton_sublist.mpr htook).append (List.Sublist.refl [_])⟩
  validated m b hin := by
    rcases List.mem_append.mp hin with hin | hin
    · obtain ⟨src, hhop, hsent⟩ := h.validated m b hin
      exact ⟨src, hhop, List.mem_append_left _ hsent⟩
    · exact absurd (List.mem_singleton.mp hin) (by simp)

/-- A node in a new state, and new messages. -/
theorem Traffic.set (h : Traffic cfg E s) {msgs : List (Msg τ)}
    (hhistory : HistoryOk cfg (E ++ evs)) (hr : ReplicaOk cfg (E ++ evs) n r)
    (hmsgs : ∀ m ∈ msgs, MsgOk cfg (E ++ evs) m) : Traffic cfg (E ++ evs) (s.set n r msgs) where
  history := hhistory
  msgs m hm := by
    rcases List.mem_append.mp hm with hm | hm
    · exact (h.msgs m hm).mono
    · exact hmsgs m hm
  replicas m := by
    show ReplicaOk cfg (E ++ evs) m (Function.update s.replicas n r m)
    by_cases hm : m = n
    · rw [hm, Function.update_self]
      exact hr
    · rw [Function.update_of_ne hm]
      exact (h.replicas m).mono

/-- Messages leave the network, or are there again. -/
theorem Traffic.net (h : Traffic cfg E s) {net : List (Msg τ)} (hsub : ∀ m ∈ net, m ∈ s.net) :
    Traffic cfg E { s with net := net } :=
  { h with msgs := fun m hm => h.msgs m (hsub m hm) }

theorem ReplicaOk.mgmt (h : ReplicaOk cfg E n r) (mgmt : BlockManagement τ) :
    ReplicaOk cfg E n { r with mgmt := mgmt } := ⟨h.1, h.2, h.3, h.4, h.5⟩

theorem ReplicaOk.make (h : ReplicaOk cfg E n r) (hhead : isHead cfg n) (mgmt : BlockManagement τ)
    (blk : Block τ) : ReplicaOk cfg (E ++ [.made n blk]) n { r with
      mgmt := mgmt
      blksSeen := insert blk.blkId r.blksSeen
      newBlock := r.newBlock ++ [(n, blk)] } := by
  refine ⟨h.mono.arrived, fun m hm => ?_, h.mono.ready, h.mono.inflight, h.mono.commitReady⟩
  rcases List.mem_append.mp hm with hm | hm
  · exact h.mono.taken m hm
  · rw [List.mem_singleton.mp hm]
    refine ⟨Or.inl ⟨of_decide_eq_true hhead, rfl⟩, ?_⟩
    unfold took
    rw [if_pos hhead]
    simp

theorem ReplicaOk.arrive (h : ReplicaOk cfg E n r) {src : NodeId} {blk : Block τ}
    (hhop : Hop cfg.order src n) (hsent : Event.disseminated src blk ∈ E) :
    ReplicaOk cfg E n { r with
      blksSeen := insert blk.blkId r.blksSeen
      checking := r.checking ++ [(src, blk)] } := by
  refine ⟨fun m hm => ?_, h.taken, h.ready, h.inflight, h.commitReady⟩
  rcases List.mem_append.mp hm with hm | hm
  · rcases List.mem_append.mp hm with hm | hm
    · exact h.arrived m (List.mem_append_left _ hm)
    · rw [List.mem_singleton.mp hm]
      exact ⟨hhop, hsent⟩
  · exact h.arrived m (List.mem_append_right _ hm)

theorem ReplicaOk.check (h : ReplicaOk cfg E n r) {i : Nat} {m : NodeId × Block τ}
    (hm : r.checking[i]? = some m) (valid : Bool) : ReplicaOk cfg E n { r with
      checking := r.checking.eraseIdx i
      pendingBlk := if valid then r.pendingBlk ++ [m] else r.pendingBlk } := by
  refine ⟨fun m' hm' => ?_, h.taken, h.ready, h.inflight, h.commitReady⟩
  rcases List.mem_append.mp hm' with hm' | hm'
  · exact h.arrived m' (List.mem_append_left _ (List.mem_of_mem_eraseIdx hm'))
  · have hm' : m' ∈ r.pendingBlk ++ [m] := by
      cases valid with
      | true => exact hm'
      | false => exact List.mem_append_left _ hm'
    rcases List.mem_append.mp hm' with hm' | hm'
    · exact h.arrived m' (List.mem_append_right _ hm')
    · rw [List.mem_singleton.mp hm']
      exact h.arrived m (List.mem_append_left _ (List.mem_of_getElem? hm))

theorem ReplicaOk.validate (h : ReplicaOk cfg E n r) {src : NodeId} {blk : Block τ}
    {rest : List (NodeId × Block τ)} (hpending : r.pendingBlk = (src, blk) :: rest)
    (hhead : ¬ isHead cfg n) : ReplicaOk cfg (E ++ [.validated n blk]) n { r with
      pendingBlk := rest
      newBlock := r.newBlock ++ [(src, blk)] } := by
  refine ⟨fun m hm => ?_, fun m hm => ?_, h.mono.ready, h.mono.inflight, h.mono.commitReady⟩
  · refine h.mono.arrived m ?_
    rw [hpending]
    rcases List.mem_append.mp hm with hm | hm
    · exact List.mem_append_left _ hm
    · exact List.mem_append_right _ (List.mem_cons_of_mem _ hm)
  · rcases List.mem_append.mp hm with hm | hm
    · exact h.mono.taken m hm
    · rw [List.mem_singleton.mp hm]
      refine ⟨Or.inr (h.arrived (src, blk) (by simp [hpending])).1, ?_⟩
      unfold took
      rw [if_neg hhead]
      simp

theorem ReplicaOk.disseminate (h : ReplicaOk cfg E n r) {src : NodeId} {blk : Block τ}
    {rest : List (NodeId × Block τ)} (hnew : r.newBlock = (src, blk) :: rest) :
    ReplicaOk cfg (E ++ [.disseminated n blk]) n
      { r with newBlock := rest, sent := some (src, blk) } := by
  refine ⟨h.mono.arrived, fun m hm => h.mono.taken m ?_, fun m hm => ?_, h.mono.inflight,
    h.mono.commitReady⟩
  · rw [hnew]
    exact List.mem_cons_of_mem _ hm
  · rcases List.mem_append.mp hm with hm | hm
    · rw [Option.toList_some, List.mem_singleton] at hm
      rw [hm]
      simp
    · exact h.mono.ready m (List.mem_append_right _ hm)

theorem ReplicaOk.queue (h : ReplicaOk cfg E n r) {m : NodeId × Block τ}
    (hsent : r.sent = some m) :
    ReplicaOk cfg E n { r with sent := none, blockReady := r.blockReady ++ [m] } := by
  refine ⟨h.arrived, h.taken, fun m' hm' => h.ready m' ?_, h.inflight, h.commitReady⟩
  rw [hsent]
  have hm' : m' ∈ r.blockReady ++ [m] := hm'
  rcases List.mem_append.mp hm' with hm' | hm'
  · exact List.mem_append_right _ hm'
  · exact List.mem_append_left _ hm'

/-- The decision stage takes a block: the head enters it, and the tail
acknowledges it. -/
theorem ReplicaOk.newTail (h : ReplicaOk cfg E n r) {src : NodeId} {blk : Block τ}
    {rest : List (NodeId × Block τ)} (hready : r.blockReady = (src, blk) :: rest)
    {d : Decision τ} {msgs : List (Msg τ)}
    (hd : ChainReplication.newTail cfg n r.decision [blk] = .ok (d, msgs)) :
    ReplicaOk cfg (E ++ [.tailed n blk]) n { r with blockReady := rest, decision := d } ∧
      ∀ m ∈ msgs, MsgOk cfg (E ++ [.tailed n blk]) m := by
  have hsent : Event.disseminated n blk ∈ E := h.ready (src, blk) (by simp [hready])
  have hrest : ∀ m ∈ r.sent.toList ++ rest, Event.disseminated n m.2 ∈ E ++ [.tailed n blk] := by
    intro m hm
    refine h.mono.ready m ?_
    rw [hready]
    rcases List.mem_append.mp hm with hm | hm
    · exact List.mem_append_left _ hm
    · exact List.mem_append_right _ (List.mem_cons_of_mem _ hm)
  rw [ChainReplication.newTail] at hd
  cases hrole : role cfg n with
  | head =>
    rw [hrole] at hd
    obtain ⟨rfl, rfl⟩ := Prod.mk.inj (Except.ok.inj hd)
    refine ⟨⟨h.mono.arrived, h.mono.taken, hrest, fun id b hb => ?_, fun id hid => ?_⟩,
      fun m hm => absurd hm (by simp)⟩
    · dsimp only at hb
      by_cases hid : id = blk.blkId
      · rw [hid, Function.update_self, Option.some.injEq] at hb
        rw [← hb]
        refine ⟨hid.symm, ?_, List.mem_append_left _ hsent⟩
        unfold role at hrole
        split at hrole
        · assumption
        · split at hrole <;> exact absurd hrole (by simp)
      · rw [Function.update_of_ne hid] at hb
        exact h.mono.inflight id b hb
    · obtain ⟨hin, hrep⟩ := h.mono.commitReady id hid
      refine ⟨?_, hrep⟩
      dsimp only
      by_cases hid' : id = blk.blkId
      · rw [hid', Function.update_self]
        rfl
      · rwa [Function.update_of_ne hid']
  | intermediate =>
    rw [hrole] at hd
    obtain ⟨rfl, rfl⟩ := Prod.mk.inj (Except.ok.inj hd)
    exact ⟨⟨h.mono.arrived, h.mono.taken, hrest, h.mono.inflight, h.mono.commitReady⟩,
      fun m hm => absurd hm (by simp)⟩
  | tail =>
    rw [hrole] at hd
    obtain ⟨head, hhead, hd⟩ := bind_eq_ok.mp hd
    obtain ⟨rfl, rfl⟩ := Prod.mk.inj (Except.ok.inj hd)
    refine ⟨⟨h.mono.arrived, h.mono.taken, hrest, h.mono.inflight, h.mono.commitReady⟩,
      fun m hm => ?_⟩
    have htail : cfg.order.getLast? = some n := by
      unfold role at hrole
      split at hrole
      · exact absurd hrole (by simp)
      · split at hrole
        · assumption
        · exact absurd hrole (by simp)
    rw [List.mem_singleton.mp hm]
    exact ⟨unwrap_eq_ok.mp hhead, htail, blk, n, rfl, htail, List.mem_append_left _ hsent⟩

theorem ReplicaOk.ack (h : ReplicaOk cfg E n r) {src : NodeId} {recved : Nat}
    (hmsg : MsgOk cfg E (.ack src n recved)) {d : Decision τ}
    (hd : handlePeerMsg cfg n r.decision src recved = .ok d) :
    ReplicaOk cfg E n { r with decision := d } := by
  unfold handlePeerMsg at hd
  split at hd
  · split at hd
    · rename_i hin
      rw [← Except.ok.inj hd]
      refine ⟨h.arrived, h.taken, h.ready, h.inflight, fun id hid => ?_⟩
      rcases Finset.mem_insert.mp hid with rfl | hid
      · exact ⟨hin, hmsg.2.2⟩
      · exact h.commitReady id hid
    · rw [← Except.ok.inj hd]
      exact h
  · exact absurd hd (by simp)

theorem nextToCommit_cases {d d' : Decision τ} {height : Nat} {txns : List τ}
    (h : nextToCommit d = .ok (d', height, txns)) :
    d.nextToCommit ∈ d.commitReady ∧ height = d.nextToCommit ∧
      ∃ blk, d.inflightBlks d.nextToCommit = some blk ∧ txns = blk.txns ∧
        d' = ⟨Function.update d.inflightBlks d.nextToCommit none,
          d.commitReady.erase d.nextToCommit, d.nextToCommit + 1⟩ := by
  unfold nextToCommit at h
  split at h
  · rename_i hready
    obtain ⟨blk, hblk, h⟩ := bind_eq_ok.mp h
    obtain ⟨n, hn, h⟩ := bind_eq_ok.mp h
    unfold asU64 at hn
    split at hn
    · obtain ⟨rfl, hrest⟩ := Prod.mk.inj (Except.ok.inj h)
      obtain ⟨rfl, rfl⟩ := Prod.mk.inj hrest
      exact ⟨hready, (Except.ok.inj hn).symm, blk, unwrap_eq_ok.mp hblk, rfl, rfl⟩
    · exact absurd hn (by simp)
  · exact absurd h (by simp)

theorem ReplicaOk.commit (h : ReplicaOk cfg E n r) {d : Decision τ} {height : Nat}
    {txns : List τ} (hd : nextToCommit r.decision = .ok (d, height, txns)) :
    ReplicaOk cfg E n { r with decision := d } := by
  obtain ⟨-, -, blk, -, -, rfl⟩ := nextToCommit_cases hd
  refine ⟨h.arrived, h.taken, h.ready, fun id b hb => h.inflight id b ?_, fun id hid => ?_⟩
  · dsimp only at hb
    by_cases hid : id = r.decision.nextToCommit
    · rw [hid, Function.update_self] at hb
      exact absurd hb (by simp)
    · rwa [Function.update_of_ne hid] at hb
  · obtain ⟨hne, hid⟩ := Finset.mem_erase.mp hid
    obtain ⟨hin, hrep⟩ := h.commitReady id hid
    refine ⟨?_, hrep⟩
    dsimp only
    rwa [Function.update_of_ne hne]

end Steps

theorem mem_of_mem_net {s : Cluster τ} {i : Nat} {m : Msg τ} (h : m ∈ s.net.eraseIdx i) :
    m ∈ s.net := List.mem_of_mem_eraseIdx h

theorem isHead_iff {cfg : ChainReplicationConfig τ} {n : NodeId} :
    isHead cfg n ↔ cfg.order.head? = some n := by simp [isHead]

theorem getNewBlock_cases {cfg : ChainReplicationConfig τ} {n : NodeId}
    {mgmt mgmt' : BlockManagement τ} {blk : Block τ}
    (h : getNewBlock cfg n mgmt = .ok (mgmt', blk)) :
    isHead cfg n ∧ mgmt.currBatchLen ≤ mgmt.memPool.length ∧
      mgmt' = ⟨mgmt.memPool.drop mgmt.currBatchLen, mgmt.nextBlkId + 1, 0, 0⟩ ∧
      blk = ⟨mgmt.nextBlkId, mgmt.memPool.take mgmt.currBatchLen⟩ := by
  unfold getNewBlock at h
  split at h
  · rename_i hok
    obtain ⟨rfl, rfl⟩ := Prod.mk.inj (Except.ok.inj h)
    exact ⟨hok.1, hok.2, rfl, rfl⟩
  · exact absurd h (by simp)

/-- Every turn keeps track of where blocks have been. -/
theorem traffic_turn {cfg : ChainReplicationConfig τ} (hnodup : cfg.order.Nodup)
    {E evs : List (Event τ)} {s s' : Cluster τ} {a : Act τ} (h : Traffic cfg E s)
    (hn : ∀ n, a.node = some n → n ∈ cfg.order) (hturn : Turn cfg s a s' evs) :
    Traffic cfg (E ++ evs) s' := by
  cases hturn with
  | record n txn => exact h.set (h.history.other (by simp)) ((h.replicas n).mono.mgmt _) (by simp)
  | prepare n => exact h.set (h.history.other (by simp)) ((h.replicas n).mono.mgmt _) (by simp)
  | @make n mgmt blk hwait hblk =>
    exact h.set (h.history.other (by simp))
      ((h.replicas n).make (getNewBlock_cases hblk).1 mgmt blk) (by simp)
  | ignore hmsg hseen =>
    rw [List.append_nil]
    exact h.net fun m hm => mem_of_mem_net hm
  | @arrive i src dst blk hmsg hnew =>
    have hok := h.msgs _ (List.mem_of_getElem? hmsg)
    refine (h.net fun m hm => mem_of_mem_net (i := i) hm).set (h.history.other (by simp)) ?_
      (by simp)
    exact ((h.replicas dst).arrive hok.1 hok.2).mono
  | @check n i valid m hm =>
    exact h.set (h.history.other (by simp)) ((h.replicas n).check hm valid).mono (by simp)
  | @validate n src blk rest hpending hhead =>
    have hok := (h.replicas n).arrived (src, blk) (by simp [hpending])
    exact h.set (h.history.validate hok.1 hok.2) ((h.replicas n).validate hpending hhead) (by simp)
  | @disseminate n src blk rest msgs hsent hnew hmsgs =>
    have htook := (h.replicas n).taken (src, blk) (by simp [hnew])
    refine h.set (h.history.disseminate (hn n rfl) htook.2) ((h.replicas n).disseminate hnew) ?_
    obtain ⟨-, ⟨next, hhop, rfl⟩ | ⟨-, rfl⟩⟩ := disseminate_cases hnodup (hn n rfl) hmsgs
    · intro m hm
      rw [List.mem_singleton.mp hm]
      exact ⟨hhop, by simp⟩
    · exact fun m hm => absurd hm (by simp)
  | @queue n m hsent =>
    exact h.set (h.history.other (by simp)) ((h.replicas n).queue hsent).mono (by simp)
  | @newTail n src blk rest d msgs hready hd =>
    obtain ⟨hr, hmsgs⟩ := (h.replicas n).newTail hready hd
    exact h.set (h.history.other (by simp)) hr hmsgs
  | @ack i src dst recved d hmsg hd =>
    have hok := h.msgs _ (List.mem_of_getElem? hmsg)
    refine (h.net fun m hm => mem_of_mem_net (i := i) hm).set (h.history.other (by simp)) ?_
      (by simp)
    exact ((h.replicas dst).ack hok hd).mono
  | @commit n d height txns hd =>
    exact h.set (h.history.other (by simp)) ((h.replicas n).commit hd).mono (by simp)
  | lose hmsg =>
    rw [List.append_nil]
    exact h.net fun m hm => mem_of_mem_net hm
  | @duplicate i msg hmsg =>
    rw [List.append_nil]
    refine h.net fun m hm => ?_
    rcases List.mem_append.mp hm with hm | hm
    · exact hm
    · rw [List.mem_singleton.mp hm]
      exact List.mem_of_getElem? hmsg

/-- Who has disseminated a block has it from all nodes before. -/
theorem HistoryOk.upstream {cfg : ChainReplicationConfig τ} {E : List (Event τ)}
    (h : HistoryOk cfg E) (hnodup : cfg.order.Nodup) {blk : Block τ} {i : Nat} {m : NodeId}
    (hm : cfg.order[i]? = some m) :
    ∀ {j : Nat} {n : NodeId}, i ≤ j → cfg.order[j]? = some n → Event.disseminated n blk ∈ E →
      Event.disseminated m blk ∈ E := by
  intro j
  induction j with
  | zero =>
    intro n hij hn hin
    obtain rfl := Nat.le_zero.mp hij
    rw [hm, Option.some.injEq] at hn
    exact hn ▸ hin
  | succ j ih =>
    intro n hij hn hin
    by_cases hi : i = j + 1
    · rw [hi, hn, Option.some.injEq] at hm
      exact hm ▸ hin
    · have hhead : ¬ isHead cfg n := fun hhead =>
        absurd (head_place hnodup (isHead_iff.mp hhead) hn) (Nat.succ_ne_zero j)
      have htook := (h.accepted n blk hin).2.subset (List.mem_cons_self ..)
      unfold took at htook
      rw [if_neg hhead] at htook
      obtain ⟨src, ⟨k, hsrc, hk⟩, hsent⟩ := h.validated n blk htook
      have hkj : k = j := Nat.succ_inj.mp (place_unique hnodup hk hn)
      exact ih (by omega) (hkj ▸ hsrc) hsent

/-- What the tail has disseminated, every node has accepted. -/
theorem HistoryOk.everywhere {cfg : ChainReplicationConfig τ} {E : List (Event τ)}
    (h : HistoryOk cfg E) (hnodup : cfg.order.Nodup) {blk : Block τ} {tail : NodeId}
    (htail : cfg.order.getLast? = some tail) (hin : Event.disseminated tail blk ∈ E) :
    ∀ m ∈ cfg.order, Accepted cfg E m blk := by
  intro m hm
  obtain ⟨i, hlt, hget⟩ := List.getElem_of_mem hm
  have hi : cfg.order[i]? = some m := by rw [List.getElem?_eq_getElem hlt, hget]
  rw [List.getLast?_eq_getElem?] at htail
  exact (h.accepted m blk (h.upstream hnodup hi (by omega) htail hin)).2

/-! ## The blocks of the head -/

/-- The transactions given to a node. -/
def recordedAt (n : NodeId) (E : List (Event τ)) : List τ :=
  E.filterMap fun
    | .recorded m txn => if m = n then some txn else none
    | _ => none

/-- The blocks a node has made. -/
def madeAt (n : NodeId) (E : List (Event τ)) : List (Block τ) :=
  E.filterMap fun
    | .made m blk => if m = n then some blk else none
    | _ => none

/-- What a node has committed. -/
def committedAt (n : NodeId) (E : List (Event τ)) : List (Nat × List τ) :=
  E.filterMap fun
    | .committed m height txns => if m = n then some (height, txns) else none
    | _ => none

theorem mem_madeAt {n : NodeId} {E : List (Event τ)} {blk : Block τ} :
    blk ∈ madeAt n E ↔ Event.made n blk ∈ E := by
  unfold madeAt
  rw [List.mem_filterMap]
  constructor
  · rintro ⟨e, he, heq⟩
    cases e with
    | made m b =>
      dsimp only at heq
      split at heq
      · rename_i hm
        rw [Option.some.injEq] at heq
        rwa [← hm, ← heq]
      · exact absurd heq (by simp)
    | _ => exact absurd heq (by simp)
  · exact fun h => ⟨_, h, by simp⟩

/-- The head numbers its blocks from one, fills them with its transactions in
order, and has committed an initial part of them. -/
structure HeadOk (E : List (Event τ)) (n : NodeId) (r : Replica τ) : Prop where
  nextBlkId : r.mgmt.nextBlkId = (madeAt n E).length + 1
  ids : ∀ i blk, (madeAt n E)[i]? = some blk → blk.blkId = i + 1
  pool : (madeAt n E).flatMap Block.txns ++ r.mgmt.memPool = recordedAt n E
  batch : r.mgmt.currBatchLen ≤ r.mgmt.memPool.length
  nextToCommit : r.decision.nextToCommit = (committedAt n E).length + 1
  commits : committedAt n E =
    ((madeAt n E).take (committedAt n E).length).map fun blk => (blk.blkId, blk.txns)

/-- Blocks of the head with the same id are the same. -/
theorem HeadOk.unique {E : List (Event τ)} {n : NodeId} {r : Replica τ} (h : HeadOk E n r)
    {b b' : Block τ} (hb : Event.made n b ∈ E) (hb' : Event.made n b' ∈ E)
    (hid : b.blkId = b'.blkId) : b = b' := by
  obtain ⟨i, hi⟩ := List.mem_iff_getElem?.mp (mem_madeAt.mpr hb)
  obtain ⟨j, hj⟩ := List.mem_iff_getElem?.mp (mem_madeAt.mpr hb')
  have hij : i = j := by
    have := h.ids i b hi
    have := h.ids j b' hj
    omega
  rw [hij, hj, Option.some.injEq] at hi
  exact hi.symm

section Head

variable {cfg : ChainReplicationConfig τ} {E evs : List (Event τ)} {s : Cluster τ}
  {n m : NodeId} {r : Replica τ}

/-- The events that do not concern the blocks of a node. -/
structure Silent (n : NodeId) (evs : List (Event τ)) : Prop where
  recorded : recordedAt n evs = []
  made : madeAt n evs = []
  committed : committedAt n evs = []

theorem HeadOk.same (h : HeadOk E n r) (hsilent : Silent n evs) {r' : Replica τ}
    (hmgmt : r'.mgmt = r.mgmt) (hnext : r'.decision.nextToCommit = r.decision.nextToCommit) :
    HeadOk (E ++ evs) n r' := by
  have hrecorded : recordedAt n (E ++ evs) = recordedAt n E := by
    unfold recordedAt
    rw [List.filterMap_append]
    exact (congrArg _ hsilent.recorded).trans (List.append_nil _)
  have hmade : madeAt n (E ++ evs) = madeAt n E := by
    unfold madeAt
    rw [List.filterMap_append]
    exact (congrArg _ hsilent.made).trans (List.append_nil _)
  have hcommitted : committedAt n (E ++ evs) = committedAt n E := by
    unfold committedAt
    rw [List.filterMap_append]
    exact (congrArg _ hsilent.committed).trans (List.append_nil _)
  refine ⟨?_, ?_, ?_, ?_, ?_, ?_⟩
  · rw [hmgmt, hmade]
    exact h.nextBlkId
  · rw [hmade]
    exact h.ids
  · rw [hmgmt, hmade, hrecorded]
    exact h.pool
  · rw [hmgmt]
    exact h.batch
  · rw [hnext, hcommitted]
    exact h.nextToCommit
  · rw [hcommitted, hmade]
    exact h.commits

theorem HeadOk.record (h : HeadOk E n r) (hhead : isHead cfg n) (txn : τ) :
    HeadOk (E ++ [.recorded n txn]) n { r with mgmt := recordNewTxn cfg n r.mgmt txn } := by
  have hrecorded : recordedAt n (E ++ [.recorded n txn]) = recordedAt n E ++ [txn] := by
    simp [recordedAt]
  have hmade : madeAt n (E ++ [.recorded n txn]) = madeAt n E := by simp [madeAt]
  have hcommitted : committedAt n (E ++ [.recorded n txn]) = committedAt n E := by
    simp [committedAt]
  unfold recordNewTxn
  rw [if_pos hhead]
  refine ⟨?_, ?_, ?_, ?_, ?_, ?_⟩
  · rw [hmade]
    exact h.nextBlkId
  · rw [hmade]
    exact h.ids
  · rw [hmade, hrecorded]
    dsimp only
    rw [← List.append_assoc, h.pool]
  · dsimp only
    rw [List.length_append]
    exact Nat.le_add_right_of_le h.batch
  · rw [hcommitted]
    exact h.nextToCommit
  · rw [hcommitted, hmade]
    exact h.commits

/-- The batch does not grow beyond the pool. -/
theorem extendBatch_le (cfg : ChainReplicationConfig τ) (rest : List τ) :
    ∀ b : Nat × Nat, (extendBatch cfg rest b).1.1 ≤ b.1 + rest.length := by
  induction rest with
  | nil =>
    intro b
    rw [extendBatch]
    split
    · exact Nat.le_refl _
    · exact Nat.le_refl _
  | cons t rest ih =>
    intro b
    rw [extendBatch]
    split
    · exact Nat.le_add_right _ _
    · have := ih (b.1 + 1, b.2 + cfg.getSize t)
      dsimp only at this ⊢
      rw [List.length_cons]
      omega

theorem HeadOk.prepare (h : HeadOk E n r) :
    HeadOk E n { r with mgmt := (prepareNewBlock cfg n r.mgmt).1 } := by
  unfold prepareNewBlock
  split
  · refine ⟨h.nextBlkId, h.ids, h.pool, ?_, h.nextToCommit, h.commits⟩
    have hle := extendBatch_le cfg (r.mgmt.memPool.drop r.mgmt.currBatchLen)
      (r.mgmt.currBatchLen, r.mgmt.currBatchSize)
    rw [List.length_drop] at hle
    have := h.batch
    dsimp only at hle ⊢
    omega
  · exact h

/-- No more is committed than has been made. -/
theorem HeadOk.committed_le (h : HeadOk E n r) :
    (committedAt n E).length ≤ (madeAt n E).length := by
  have hlen := congrArg List.length h.commits
  rw [List.length_map, List.length_take] at hlen
  omega

theorem HeadOk.make (h : HeadOk E n r) {mgmt : BlockManagement τ} {blk : Block τ}
    (hblk : getNewBlock cfg n r.mgmt = .ok (mgmt, blk)) :
    HeadOk (E ++ [.made n blk]) n { r with
      mgmt := mgmt
      blksSeen := insert blk.blkId r.blksSeen
      newBlock := r.newBlock ++ [(n, blk)] } := by
  obtain ⟨-, -, rfl, rfl⟩ := getNewBlock_cases hblk
  have hle := h.committed_le
  generalize hnew : (⟨r.mgmt.nextBlkId, r.mgmt.memPool.take r.mgmt.currBatchLen⟩ : Block τ) = blk
  have hrecorded : recordedAt n (E ++ [.made n blk]) = recordedAt n E := by simp [recordedAt]
  have hmade : madeAt n (E ++ [.made n blk]) = madeAt n E ++ [blk] := by simp [madeAt]
  have hcommitted : committedAt n (E ++ [.made n blk]) = committedAt n E := by simp [committedAt]
  refine ⟨?_, fun i b hb => ?_, ?_, Nat.zero_le _, ?_, ?_⟩
  · rw [hmade, List.length_append, List.length_singleton]
    dsimp only
    rw [h.nextBlkId]
  · rw [hmade] at hb
    by_cases hi : i < (madeAt n E).length
    · rw [List.getElem?_append_left hi] at hb
      exact h.ids i b hb
    · rw [List.getElem?_append_right (by omega)] at hb
      obtain ⟨hlt, hget⟩ := List.getElem?_eq_some_iff.mp hb
      rw [List.length_singleton] at hlt
      have hb : blk = b := by
        rw [← hget]
        simp
      rw [← hb, ← hnew]
      have := h.nextBlkId
      dsimp only
      omega
  · rw [hmade, hrecorded, List.flatMap_append, ← h.pool]
    dsimp only
    rw [List.flatMap_singleton, ← hnew, List.append_assoc]
    dsimp only
    rw [List.take_append_drop]
  · rw [hcommitted]
    exact h.nextToCommit
  · rw [hcommitted, hmade, List.take_append_of_le_length hle]
    exact h.commits

theorem newTail_next {d d' : Decision τ} {blk : Block τ} {msgs : List (Msg τ)}
    (h : newTail cfg n d [blk] = .ok (d', msgs)) : d'.nextToCommit = d.nextToCommit := by
  rw [newTail] at h
  split at h
  · rw [← (Prod.mk.inj (Except.ok.inj h)).1]
  · obtain ⟨head, -, h⟩ := bind_eq_ok.mp h
    rw [← (Prod.mk.inj (Except.ok.inj h)).1]
  · rw [← (Prod.mk.inj (Except.ok.inj h)).1]

theorem handlePeerMsg_next {d d' : Decision τ} {src : NodeId} {recved : Nat}
    (h : handlePeerMsg cfg n d src recved = .ok d') : d'.nextToCommit = d.nextToCommit := by
  unfold handlePeerMsg at h
  split at h
  · split at h
    · rw [← Except.ok.inj h]
    · rw [← Except.ok.inj h]
  · exact absurd h (by simp)

/-- What the head has disseminated, it has made. -/
theorem HistoryOk.made (h : HistoryOk cfg E) (hhead : isHead cfg n) {blk : Block τ}
    (hin : Event.disseminated n blk ∈ E) : Event.made n blk ∈ E := by
  have htook := (h.accepted n blk hin).2.subset (List.mem_cons_self ..)
  unfold took at htook
  rwa [if_pos hhead] at htook

theorem HeadOk.commit (h : HeadOk E n r) (hhistory : HistoryOk cfg E) (hr : ReplicaOk cfg E n r)
    (hhead : isHead cfg n) {d : Decision τ} {height : Nat} {txns : List τ}
    (hd : ChainReplication.nextToCommit r.decision = .ok (d, height, txns)) :
    HeadOk (E ++ [.committed n height txns]) n { r with decision := d } := by
  obtain ⟨-, rfl, blk, hblk, rfl, rfl⟩ := nextToCommit_cases hd
  obtain ⟨hid, -, hsent⟩ := hr.inflight _ blk hblk
  obtain ⟨i, hi⟩ := List.mem_iff_getElem?.mp (mem_madeAt.mpr (hhistory.made hhead hsent))
  have hplace : i = (committedAt n E).length := by
    have := h.ids i blk hi
    have := h.nextToCommit
    omega
  have hrecorded : recordedAt n (E ++ [.committed n r.decision.nextToCommit blk.txns]) =
      recordedAt n E := by simp [recordedAt]
  have hmade : madeAt n (E ++ [.committed n r.decision.nextToCommit blk.txns]) = madeAt n E := by
    simp [madeAt]
  have hcommitted : committedAt n (E ++ [.committed n r.decision.nextToCommit blk.txns]) =
      committedAt n E ++ [(r.decision.nextToCommit, blk.txns)] := by simp [committedAt]
  refine ⟨?_, ?_, ?_, h.batch, ?_, ?_⟩
  · rw [hmade]
    exact h.nextBlkId
  · rw [hmade]
    exact h.ids
  · rw [hmade, hrecorded]
    exact h.pool
  · rw [hcommitted, List.length_append, List.length_singleton]
    dsimp only
    rw [h.nextToCommit]
  · rw [hcommitted, hmade, List.length_append, List.length_singleton, ← hplace,
      List.take_add_one, hi, List.map_append, hplace, ← h.commits]
    simp [hid]

/-- The turn of another node. -/
theorem HeadOk.elsewhere (h : HeadOk E n (s.replicas n)) (hne : m ≠ n) (hsilent : Silent n evs)
    (msgs : List (Msg τ)) : HeadOk (E ++ evs) n ((s.set m r msgs).replicas n) := by
  refine h.same hsilent ?_ ?_
  · show (Function.update s.replicas m r n).mgmt = _
    rw [Function.update_of_ne hne.symm]
  · show (Function.update s.replicas m r n).decision.nextToCommit = _
    rw [Function.update_of_ne hne.symm]

/-- The turn of some node: of the head, or of another one. -/
theorem HeadOk.set {r : Replica τ} (h : HeadOk E n (s.replicas n))
    (hhead : m = n → HeadOk (E ++ evs) n r) (hsilent : m ≠ n → Silent n evs)
    (msgs : List (Msg τ)) : HeadOk (E ++ evs) n ((s.set m r msgs).replicas n) := by
  by_cases hm : m = n
  · subst hm
    rw [show (s.set m r msgs).replicas m = r from Function.update_self ..]
    exact hhead rfl
  · exact h.elsewhere hm (hsilent hm) msgs

/-- Every turn of the cluster keeps the law of the head. -/
theorem head_turn {s' : Cluster τ} {a : Act τ} (h : HeadOk E n (s.replicas n))
    (ht : Traffic cfg E s) (hhead : isHead cfg n) (hturn : Turn cfg s a s' evs) :
    HeadOk (E ++ evs) n (s'.replicas n) := by
  have hnil : Silent n ([] : List (Event τ)) := ⟨rfl, rfl, rfl⟩
  cases hturn with
  | record m txn =>
    refine h.set (fun hm => ?_) (fun hm => ⟨by simp [recordedAt, hm], rfl, rfl⟩) _
    subst hm
    exact h.record hhead txn
  | prepare m =>
    refine h.set (fun hm => ?_) (fun _ => hnil) _
    subst hm
    rw [List.append_nil]
    exact h.prepare
  | @make m mgmt blk hwait hblk =>
    refine h.set (fun hm => ?_) (fun hm => ⟨rfl, by simp [madeAt, hm], rfl⟩) _
    subst hm
    exact h.make hblk
  | ignore hmsg hseen => exact h.same hnil rfl rfl
  | @arrive i src dst blk hmsg hnew =>
    refine HeadOk.set (s := { s with net := s.net.eraseIdx i }) h (fun hm => ?_) (fun _ => hnil) _
    subst hm
    exact h.same hnil rfl rfl
  | @check m i valid x hx =>
    refine h.set (fun hm => ?_) (fun _ => hnil) _
    subst hm
    exact h.same hnil rfl rfl
  | @validate m src blk rest hpending hnot =>
    refine h.set (fun hm => ?_) (fun _ => ⟨rfl, rfl, rfl⟩) _
    subst hm
    exact h.same ⟨rfl, rfl, rfl⟩ rfl rfl
  | @disseminate m src blk rest msgs hsent hnew hmsgs =>
    refine h.set (fun hm => ?_) (fun _ => ⟨rfl, rfl, rfl⟩) _
    subst hm
    exact h.same ⟨rfl, rfl, rfl⟩ rfl rfl
  | @queue m x hsent =>
    refine h.set (fun hm => ?_) (fun _ => hnil) _
    subst hm
    exact h.same hnil rfl rfl
  | @newTail m src blk rest d msgs hready hd =>
    refine h.set (fun hm => ?_) (fun _ => ⟨rfl, rfl, rfl⟩) _
    subst hm
    exact h.same ⟨rfl, rfl, rfl⟩ rfl (newTail_next hd)
  | @ack i src dst recved d hmsg hd =>
    refine HeadOk.set (s := { s with net := s.net.eraseIdx i }) h (fun hm => ?_) (fun _ => hnil) _
    subst hm
    exact h.same hnil rfl (handlePeerMsg_next hd)
  | @commit m d height txns hd =>
    refine h.set (fun hm => ?_) (fun hm => ⟨rfl, rfl, by simp [committedAt, hm]⟩) _
    subst hm
    exact h.commit ht.history (ht.replicas m) hhead hd
  | lose hmsg => exact h.same hnil rfl rfl
  | duplicate hmsg => exact h.same hnil rfl rfl

end Head

/-! ## Runs -/

section Runs

variable {cfg : ChainReplicationConfig τ} {tr : List (Act τ × List (Event τ))} {s : Cluster τ}
  {n : NodeId}

theorem events_snoc (tr : List (Act τ × List (Event τ))) (l : Act τ × List (Event τ)) :
    events (tr ++ [l]) = events tr ++ l.2 := by simp [events]

/-- What every run keeps. -/
structure ClusterInv (cfg : ChainReplicationConfig τ) (E : List (Event τ)) (s : Cluster τ) :
    Prop where
  traffic : Traffic cfg E s
  head : ∀ n, isHead cfg n → HeadOk E n (s.replicas n)

theorem clusterInv_new (cfg : ChainReplicationConfig τ) : ClusterInv cfg [] .new where
  traffic :=
    { history := ⟨fun _ _ h => absurd h (by simp), fun _ _ h => absurd h (by simp)⟩
      msgs := fun _ h => absurd h (by simp [Cluster.new])
      replicas := fun n =>
        { arrived := fun _ h => absurd h (by simp [Cluster.new, Replica.new])
          taken := fun _ h => absurd h (by simp [Cluster.new, Replica.new])
          ready := fun _ h => absurd h (by simp [Cluster.new, Replica.new])
          inflight := fun _ _ h => absurd h (by simp [Cluster.new, Replica.new, Decision.new])
          commitReady := fun _ h => absurd h (by simp [Cluster.new, Replica.new, Decision.new]) } }
  head _ _ := ⟨rfl, fun _ _ h => absurd h (by simp [madeAt]), rfl, Nat.le_refl _, rfl, rfl⟩

theorem clusterInv_step {s' : Cluster τ} {l : Act τ × List (Event τ)} {E : List (Event τ)}
    (hnodup : cfg.order.Nodup) (h : ClusterInv cfg E s) (hstep : (cluster cfg).step s l s') :
    ClusterInv cfg (E ++ l.2) s' where
  traffic := traffic_turn hnodup h.traffic hstep.1 (act_turn hstep.2)
  head n hhead := head_turn (h.head n hhead) h.traffic hhead (act_turn hstep.2)

theorem clusterInv_run {G : Cluster τ → Act τ × List (Event τ) → Prop}
    (hnodup : cfg.order.Nodup) (h : (cluster cfg).Run G tr s) :
    ClusterInv cfg (events tr) s :=
  Machine.Run.invariant_trace (M := cluster cfg) (fun tr s => ClusterInv cfg (events tr) s)
    (clusterInv_new cfg) (fun tr s l s' hinv _ hstep => by
      rw [events_snoc]
      exact clusterInv_step hnodup hinv hstep) h

/-- What is committed has been accepted by every node before. -/
theorem commit_replicated {s' : Cluster τ} {E evs : List (Event τ)} {a : Act τ} {height : Nat}
    {txns : List τ} (hnodup : cfg.order.Nodup) (h : ClusterInv cfg E s)
    (hturn : Turn cfg s a s' evs) (hin : Event.committed n height txns ∈ evs) :
    ∃ blk, blk.blkId = height ∧ blk.txns = txns ∧ ∀ m ∈ cfg.order, Accepted cfg E m blk := by
  cases hturn with
  | @commit n' d height' txns' hd =>
    obtain ⟨rfl, rfl, rfl⟩ := Event.committed.inj (List.mem_singleton.mp hin)
    obtain ⟨hready, rfl, blk, hblk, rfl, -⟩ := nextToCommit_cases hd
    obtain ⟨hid, hhead, hsent⟩ := (h.traffic.replicas n).inflight _ blk hblk
    obtain ⟨-, blk', tail, hid', htail, hsent'⟩ := (h.traffic.replicas n).commitReady _ hready
    have hheadOk := h.head n (isHead_iff.mpr hhead)
    -- the block the tail has acknowledged is the one the head holds
    have hall := h.traffic.history.everywhere hnodup htail hsent'
    have hhead₀ : cfg.order[0]? = some n := by rw [← List.head?_eq_getElem?, hhead]
    have htail' := htail
    rw [List.getLast?_eq_getElem?] at htail'
    have hfirst := h.traffic.history.upstream hnodup hhead₀ (Nat.zero_le _) htail' hsent'
    have heq := hheadOk.unique (h.traffic.history.made (isHead_iff.mpr hhead) hsent)
      (h.traffic.history.made (isHead_iff.mpr hhead) hfirst) (hid.trans hid'.symm)
    rw [heq]
    exact ⟨blk', hid', rfl, hall⟩
  | _ => simp at hin

/-! ## Nothing fails -/

theorem newTail_returns (hn : n ∈ cfg.order) (d : Decision τ) (blk : Block τ) :
    ∃ r, newTail cfg n d [blk] = .ok r := by
  rw [newTail]
  cases role cfg n with
  | head => exact ⟨_, rfl⟩
  | intermediate => exact ⟨_, rfl⟩
  | tail =>
    obtain ⟨head, hhead⟩ : ∃ head, cfg.order.head? = some head := by
      cases horder : cfg.order with
      | nil => exact absurd hn (by simp [horder])
      | cons head rest => exact ⟨head, rfl⟩
    rw [hhead]
    exact ⟨_, rfl⟩

/-- The head takes an acknowledgement of the tail, whatever it acknowledges. -/
theorem handlePeerMsg_returns {src : NodeId} (hhead : cfg.order.head? = some n)
    (htail : cfg.order.getLast? = some src) (d : Decision τ) (recved : Nat) :
    ∃ d', handlePeerMsg cfg n d src recved = .ok d' := by
  have hrole : role cfg n = .head := if_pos hhead
  unfold handlePeerMsg
  rw [if_pos ⟨hrole, htail⟩]
  split
  · exact ⟨_, rfl⟩
  · exact ⟨_, rfl⟩

theorem nextToCommit_returns {d : Decision τ} (hready : d.nextToCommit ∈ d.commitReady)
    (hin : (d.inflightBlks d.nextToCommit).isSome) (hfits : d.nextToCommit < 2 ^ 64) :
    ∃ r, nextToCommit d = .ok r := by
  obtain ⟨blk, hblk⟩ := Option.isSome_iff_exists.mp hin
  unfold nextToCommit asU64
  rw [if_pos hready, hblk, if_pos hfits]
  exact ⟨_, rfl⟩

/-- No assertion of a stage fails, as long as the id to be committed fits `u64`. -/
theorem act_no_panic {E : List (Event τ)} (hnodup : cfg.order.Nodup) (h : ClusterInv cfg E s)
    (a : Act τ) (hn : ∀ n, a.node = some n → n ∈ cfg.order)
    (hfits : ∀ n, a = .commit n → (s.replicas n).decision.nextToCommit < 2 ^ 64) :
    act cfg s a ≠ .error .panic := by
  cases a with
  | recordNewTxn n txn => simp [act]
  | prepareNewBlock n => simp [act]
  | getNewBlock n =>
    rw [act]
    unfold waitToPropose
    split
    · rename_i hwait
      have hbatch := (h.head n hwait.1).batch
      unfold getNewBlock
      rw [if_pos ⟨hwait.1, hbatch⟩]
      simp [bind, Except.bind]
    · simp [bind, Except.bind]
  | recvBlock i =>
    rw [act]
    split
    · dsimp only
      split <;> simp
    · simp
  | checked n i valid =>
    rw [act]
    split <;> simp
  | validateBlock n =>
    rw [act]
    split
    · simp
    · rename_i src blk rest hpending
      have hhop := ((h.traffic.replicas n).arrived (src, blk) (by simp [hpending])).1
      have hhead : ¬ isHead cfg n := fun hh => hhop.not_head hnodup (isHead_iff.mp hh)
      unfold validateBlock
      rw [if_neg hhead]
      simp [bind, Except.bind]
  | disseminate n =>
    rw [act]
    split
    · rename_i src blk rest hsent hnew
      have hfrom := ((h.traffic.replicas n).taken (src, blk) (by simp [hnew])).1
      have hreturns : ∃ msgs, disseminate cfg n src blk = .ok msgs :=
        disseminate_returns hnodup (hn n rfl) hfrom
      obtain ⟨msgs, hmsgs⟩ := hreturns
      rw [hmsgs]
      simp [bind, Except.bind]
    · simp
  | queue n =>
    rw [act]
    split <;> simp
  | newTail n =>
    rw [act]
    split
    · simp
    · rename_i src blk rest hready
      obtain ⟨r, hr⟩ := newTail_returns (hn n rfl) (s.replicas n).decision blk
      rw [hr]
      simp [bind, Except.bind]
  | recvAck i =>
    rw [act]
    split
    · rename_i src dst recved hmsg
      obtain ⟨hhead, htail, -⟩ := h.traffic.msgs _ (List.mem_of_getElem? hmsg)
      obtain ⟨d, hd⟩ := handlePeerMsg_returns hhead htail (s.replicas dst).decision recved
      dsimp only
      rw [hd]
      simp [bind, Except.bind]
    · simp
  | commit n =>
    rw [act]
    unfold commitReady
    split
    · rename_i hready
      obtain ⟨hin, -⟩ := (h.traffic.replicas n).commitReady _ hready
      obtain ⟨r, hr⟩ := nextToCommit_returns hready hin (hfits n rfl)
      rw [hr]
      simp [bind, Except.bind]
    · simp [bind, Except.bind]
  | lose i =>
    rw [act]
    split <;> simp
  | duplicate i =>
    rw [act]
    split <;> simp

/-- Blocks that come in order do not trip the flow generator. -/
theorem txnCommitted_in_order {node : NodeId} (heights : List Nat) :
    ∀ numBlks : NodeId → Nat, heights = List.range' (numBlks node + 1) heights.length →
      ∃ numBlks', heights.foldlM (fun numBlks height => txnCommitted numBlks node height) numBlks =
        .ok numBlks' := by
  induction heights with
  | nil => exact fun numBlks _ => ⟨numBlks, rfl⟩
  | cons height heights ih =>
    intro numBlks h
    rw [List.length_cons, List.range'_succ] at h
    obtain ⟨rfl, hrest⟩ := List.cons.inj h
    obtain ⟨numBlks', hfold⟩ := ih (Function.update numBlks node (numBlks node + 1)) (by
      rwa [Function.update_self])
    refine ⟨numBlks', ?_⟩
    rw [List.foldlM_cons]
    unfold txnCommitted
    rw [if_pos rfl]
    exact hfold

/-- The heights of what the head has committed. -/
theorem HeadOk.heights {E : List (Event τ)} {r : Replica τ} (h : HeadOk E n r) :
    (committedAt n E).map Prod.fst = List.range' 1 (committedAt n E).length := by
  refine List.ext_getElem? fun i => ?_
  rw [List.getElem?_map]
  by_cases hi : i < (committedAt n E).length
  · have hlt : i < (madeAt n E).length := Nat.lt_of_lt_of_le hi h.committed_le
    have hblk : (madeAt n E)[i]? = some (madeAt n E)[i] := List.getElem?_eq_getElem hlt
    have hget : (committedAt n E)[i]? =
        some ((madeAt n E)[i].blkId, (madeAt n E)[i].txns) := by
      rw [h.commits, List.getElem?_map, List.getElem?_take_of_lt hi, hblk]
      rfl
    rw [hget, Option.map_some, h.ids i _ hblk, List.getElem?_range' hi, Nat.one_mul,
      Nat.add_comm]
  · rw [List.getElem?_eq_none (by omega), List.getElem?_eq_none (by simpa using hi)]
    rfl

/-- The transactions it has committed are the first ones it was given. -/
theorem HeadOk.prefix_recorded {E : List (Event τ)} {r : Replica τ} (h : HeadOk E n r) :
    (committedAt n E).flatMap Prod.snd <+: recordedAt n E := by
  have hcommits : (committedAt n E).flatMap Prod.snd =
      ((madeAt n E).take (committedAt n E).length).flatMap Block.txns := by
    conv_lhs => rw [h.commits]
    rw [List.flatMap_map]
  rw [hcommits, ← h.pool]
  have hsplit := List.take_append_drop (committedAt n E).length (madeAt n E)
  conv_rhs => rw [← hsplit, List.flatMap_append, List.append_assoc]
  exact List.prefix_append _ _

/-- A sequence of turns, each under a guard, with the run it is. -/
def turns (cfg : ChainReplicationConfig τ) (guard : Cluster τ → Act τ → Bool)
    (acts : List (Act τ)) : Res (Cluster τ × List (Act τ × List (Event τ))) :=
  acts.foldlM (fun r a =>
    if guard r.1 a then act cfg r.1 a >>= fun r' => .ok (r'.1, r.2 ++ [(a, r'.2)])
    else .error .diverge) (.new, [])

theorem run_turns {guard : Cluster τ → Act τ → Bool} {acts : List (Act τ)}
    {r : Cluster τ × List (Act τ × List (Event τ))} (h : turns cfg guard acts = .ok r)
    (hn : ∀ a ∈ acts, ∀ n, a.node = some n → n ∈ cfg.order) :
    (cluster cfg).Run (fun s l => guard s l.1) r.2 r.1 ∧ r.2.map Prod.fst = acts := by
  refine foldlM_split (l := acts) (fun done r =>
    (cluster cfg).Run (fun s l => guard s l.1) r.2 r.1 ∧ r.2.map Prod.fst = done) ?_ ⟨.nil, rfl⟩ h
  intro done a rest r r' hsplit hr hstep
  split at hstep
  · rename_i hguard
    obtain ⟨⟨s', evs⟩, hact, hstep⟩ := bind_eq_ok.mp hstep
    rw [← Except.ok.inj hstep]
    refine ⟨hr.1.snoc hguard ⟨hn a (by simp [hsplit]), hact⟩, ?_⟩
    rw [List.map_append, hr.2]
    rfl
  · exact absurd hstep (by simp)

/-- **Chain replication commits in order, and only what is replicated.** For every
order of at least two different nodes, whatever happens to the messages: the
heights the head commits are `1, 2, 3, ...`; the transactions are the first ones
it was given; every node has accepted a block before it is committed; the flow
generator finds the heights it expects; what is ready to be committed is there
to be committed; and no assertion of a stage fails, up to the conversion of block
ids to `u64`. -/
theorem committed_in_order (cfg : ChainReplicationConfig τ) (hnodup : cfg.order.Nodup)
    (hlen : 2 ≤ cfg.order.length) {tr : List (Act τ × List (Event τ))} {s : Cluster τ}
    (h : (cluster cfg).Run (fun _ _ => True) tr s) :
    (∃ head, cfg.order.head? = some head ∧
      (committedAt head (events tr)).map Prod.fst =
        List.range' 1 (committedAt head (events tr)).length ∧
      (committedAt head (events tr)).flatMap Prod.snd <+: recordedAt head (events tr) ∧
      ∃ numBlks, ((committedAt head (events tr)).map Prod.fst).foldlM
        (fun numBlks height => txnCommitted numBlks head height) (fun _ => 0) = .ok numBlks) ∧
    (∀ tr₁ l tr₂ n height txns, tr = tr₁ ++ l :: tr₂ → Event.committed n height txns ∈ l.2 →
      ∃ blk, blk.blkId = height ∧ blk.txns = txns ∧
        ∀ m ∈ cfg.order, Accepted cfg (events tr₁) m blk) ∧
    (∀ n, (s.replicas n).decision.nextToCommit ∈ (s.replicas n).decision.commitReady →
      ((s.replicas n).decision.inflightBlks (s.replicas n).decision.nextToCommit).isSome) ∧
    ∀ a : Act τ, (∀ n, a.node = some n → n ∈ cfg.order) → act cfg s a = .error .panic →
      ∃ n, a = .commit n ∧ 2 ^ 64 ≤ (s.replicas n).decision.nextToCommit := by
  have hinv := clusterInv_run hnodup h
  refine ⟨?_, ?_, fun n hready => ((hinv.traffic.replicas n).commitReady _ hready).1,
    fun a hn hpanic => ?_⟩
  · have hhead : cfg.order.head? = some cfg.order[0] := by
      rw [List.head?_eq_getElem?, List.getElem?_eq_getElem (by omega)]
    have hok := hinv.head _ (isHead_iff.mpr hhead)
    refine ⟨_, hhead, hok.heights, hok.prefix_recorded, ?_⟩
    refine txnCommitted_in_order _ _ ?_
    rw [List.length_map]
    exact hok.heights
  · rintro tr₁ l tr₂ n height txns rfl hin
    obtain ⟨s₁, hrun, hpath⟩ := Machine.Run.split (tr₁ ++ [l]) (by simpa using h)
    obtain ⟨s₀, hrun₀, -, hstep⟩ := hrun.snoc_inv
    exact commit_replicated hnodup (clusterInv_run hnodup hrun₀) (act_turn hstep.2) hin
  · by_contra hno
    refine act_no_panic hnodup hinv a hn (fun n ha => ?_) hpanic
    by_contra hbig
    exact hno ⟨n, ha, by omega⟩

/-- Two nodes, and blocks of one transaction. -/
def pair : ChainReplicationConfig Nat := ⟨[0, 1], 1, fun _ => 1⟩

/-- A transaction on its way through both. -/
def commitTurns : List (Act Nat) :=
  [.recordNewTxn 0 7, .prepareNewBlock 0, .getNewBlock 0, .disseminate 0, .queue 0, .newTail 0,
    .recvBlock 0, .checked 1 0 true, .validateBlock 1, .disseminate 1, .queue 1, .newTail 1,
    .recvAck 0, .commit 0]

theorem committed_in_order_demo : ∃ tr s, (cluster pair).Run (fun _ _ => True) tr s ∧
    tr.map Prod.fst = commitTurns ∧ committedAt 0 (events tr) = [(1, [7])] ∧
    ∃ numBlks, ((committedAt 0 (events tr)).map Prod.fst).foldlM
      (fun numBlks height => txnCommitted numBlks 0 height) (fun _ => 0) = .ok numBlks := by
  have hcheck : returns (turns pair (fun _ _ => true) commitTurns) (fun r =>
      committedAt 0 (events r.2) = [(1, [7])]) = true := by decide +kernel
  obtain ⟨⟨s, tr⟩, hr, hcommitted⟩ := returns_iff.mp hcheck
  obtain ⟨hrun, hacts⟩ := run_turns hr (by simp [commitTurns, Act.node, pair])
  have hrun : (cluster pair).Run (fun _ _ => True) tr s := hrun.mono fun _ _ _ _ => trivial
  obtain ⟨⟨head, hhead, -, -, hflow⟩, -⟩ :=
    committed_in_order pair (by decide) (by decide) hrun
  obtain rfl : 0 = head := Option.some.inj hhead
  exact ⟨tr, s, hrun, hacts, of_decide_eq_true hcommitted, hflow⟩

end Runs

end Copycat.ChainReplication
