import Copycat.Gossip.Agreement
import Mathlib.Algebra.BigOperators.Ring.Finset

/-!
# Coming to rest

Once clients submit nothing more, the network comes to rest: no node can go on
forever, and where none can go on, nothing is left to do (`comes_to_rest`).

A transaction gets closer to being validated with every step on its way through
a node, and what is disseminated may be a lot of messages, but each of them is
about a transaction that the node has just admitted. So what counts first is
how many of the submitted transactions the nodes have not admitted yet, and
then how far what they have in hand is from being handled: `Peer.weight`.
-/

namespace Copycat.Gossip

open Copycat.Lib
open Bitcoin (Topology)
open Relation (ReflTransGen)

variable {τ : Type} {stage : TxnStage τ}

/-! ## How much a node has to do -/

/-- The work of a task: three for being there, one for looking up the next
transaction, and two for each that is left. -/
def Task.weight (task : Task τ) : Nat :=
  3 + (if task.looked then 0 else 1) + 2 * task.todo.length

/-- The work of all tasks. -/
def tasksWeight (tasks : Multiset (Task τ)) : Nat := (tasks.map Task.weight).sum

theorem tasksWeight_cons (task : Task τ) (tasks : Multiset (Task τ)) :
    tasksWeight (task ::ₘ tasks) = task.weight + tasksWeight tasks := by
  unfold tasksWeight
  rw [Multiset.map_cons, Multiset.sum_cons]

theorem tasksWeight_add (tasks tasks' : Multiset (Task τ)) :
    tasksWeight (tasks + tasks') = tasksWeight tasks + tasksWeight tasks' := by
  unfold tasksWeight
  rw [Multiset.map_add, Multiset.sum_add]

/-- The work that a node has in hand, with `h` for each transaction that is to be
disseminated. -/
def Peer.weight (h : Nat) (p : Peer τ) : Nat :=
  7 * p.txnBuffer.length + tasksWeight p.tasks + 2 * p.pendingTxns.length +
    (p.validatedTxn.length + h * p.validatedTxn.flatten.length) + h * p.dissem.batch.length

/-- The work that a message makes. -/
def Packet.weight (p : Packet τ) : Nat := 1 + 7 * p.txnBatch.length

/-- A turn of a task brings it closer to its end. -/
theorem runTask_weight (stage : TxnStage τ) (seen : SeenMap) {task : Task τ}
    (htodo : task.todo ≠ []) :
    tasksWeight (runTask stage seen task).2 < task.weight := by
  obtain ⟨todo, looked, correct⟩ := task
  cases todo with
  | nil => exact absurd rfl htodo
  | cons x todo =>
    unfold tasksWeight runTask Task.weight
    cases looked with
    | false =>
      dsimp only
      rw [Bool.not_false, if_pos rfl]
      split
      · simp only [Multiset.map_singleton, Multiset.sum_singleton, List.length_cons,
          Bool.false_eq_true, if_false]
        omega
      · simp only [Multiset.map_singleton, Multiset.sum_singleton, if_true, List.length_cons,
          Bool.false_eq_true, if_false]
        omega
    | true =>
      dsimp only
      rw [Bool.not_true, if_neg Bool.false_ne_true]
      split
      · simp only [Multiset.map_zero, Multiset.sum_zero]
        omega
      · simp only [Multiset.map_singleton, Multiset.sum_singleton, List.length_cons,
          Bool.false_eq_true, if_false, if_true]
        omega
      · simp only [Multiset.map_singleton, Multiset.sum_singleton, List.length_cons,
          Bool.false_eq_true, if_false, if_true]
        omega

/-- What is in the pool stays there, so nothing else is missing afterwards. -/
theorem missing_subset {kind : TxnKind τ} (keys : Finset Hash) {v v' : Validator τ}
    (hv : v.Filed kind)
    (hsub : ∀ t, t ∈ (v.admission kind).admitted → t ∈ (v'.admission kind).admitted) :
    (keys.filter fun h => (v'.txnPool h).isNone) ⊆ keys.filter fun h => (v.txnPool h).isNone := by
  intro h hh
  obtain ⟨hkey, hnone⟩ := Finset.mem_filter.mp hh
  refine Finset.mem_filter.mpr ⟨hkey, ?_⟩
  cases hpool : v.txnPool h with
  | none => rfl
  | some t =>
    have hid := hv.pool h t hpool
    have hold : t ∈ (v.admission kind).admitted := by
      show v.txnPool (kind.txnId t) = some t
      rw [hid, hpool]
    have hin : v'.txnPool (kind.txnId t) = some t := hsub t hold
    rw [hid] at hin
    rw [hin] at hnone
    exact absurd hnone (by simp)

/-- A batch out of which something is admitted leaves less to be admitted. -/
theorem validate_missing {kind : TxnKind τ} {keys : Finset Hash} {v : Validator τ}
    (hv : v.Filed kind) {ord : EntryOrder τ} {fuel : Nat} {txnBatch : List (NodeId × τ)}
    {r : Validator τ × List (NodeId × τ)}
    (hr : Validator.validate kind ord fuel v txnBatch = .ok r)
    (hadmitted : ∀ t, t ∈ (r.1.admission kind).admitted ↔
      t ∈ (v.admission kind).admitted ∨ t ∈ r.2.map Prod.snd)
    (hkeys : ∀ x ∈ r.2, kind.txnId x.2 ∈ keys) :
    Validator.missing keys r.1 ≤ Validator.missing keys v ∧
      (r.2 ≠ [] → Validator.missing keys r.1 < Validator.missing keys v) := by
  obtain ⟨-, hworks⟩ := Validator.validate_works hv hr
  have hsub := missing_subset keys hv fun t ht => (hadmitted t).mpr (Or.inl ht)
  refine ⟨Finset.card_le_card hsub, fun hne => ?_⟩
  obtain ⟨x, hx⟩ := List.exists_mem_of_ne_nil r.2 hne
  have ht : x.2 ∈ r.2.map Prod.snd := List.mem_map_of_mem hx
  have hnew : v.txnPool (kind.txnId x.2) ≠ some x.2 := hworks.ordered.new x.2 ht
  have hin : r.1.txnPool (kind.txnId x.2) = some x.2 := (hadmitted x.2).mpr (Or.inr ht)
  refine Finset.card_lt_card
    ((Finset.ssubset_iff_of_subset hsub).mpr ⟨kind.txnId x.2, ?_, fun hmem => ?_⟩)
  · refine Finset.mem_filter.mpr ⟨hkeys x hx, ?_⟩
    cases hpool : v.txnPool (kind.txnId x.2) with
    | none => rfl
    | some t =>
      rw [kind.txnId_inj (hv.pool _ t hpool)] at hpool
      exact absurd hpool hnew
  · have hnone := (Finset.mem_filter.mp hmem).2
    rw [hin] at hnone
    exact absurd hnone (by simp)

section PeerWeight

variable {F : NodeId → τ → Prop} {D : Set τ} {p p' : Peer τ} {keys : Finset Hash}

/-- Making a task of a part of the buffer: seven for a transaction pay for the
task and for looking it up. -/
theorem weight_drain (h : Nat) (hne : p.txnBuffer ≠ []) : Peer.weight h { p with
    txnBuffer := p.txnBuffer.drop validationBatchSize
    tasks := ⟨p.txnBuffer.take validationBatchSize, false, []⟩ ::ₘ p.tasks } < p.weight h := by
  have hpos : 0 < p.txnBuffer.length := List.length_pos_iff.mpr hne
  have hsize : 0 < validationBatchSize := by decide
  have hmin : min validationBatchSize p.txnBuffer.length ≤ p.txnBuffer.length := Nat.min_le_right ..
  have hone : 0 < min validationBatchSize p.txnBuffer.length := Nat.lt_min.mpr ⟨hsize, hpos⟩
  simp only [Peer.weight, tasksWeight_cons, Task.weight, List.length_take, List.length_drop,
    Bool.false_eq_true, if_false]
  omega

/-- A turn of a task. -/
theorem weight_check (h : Nat) {task : Task τ} {rest : Multiset (Task τ)}
    (htasks : p.tasks = task ::ₘ rest) (htodo : task.todo ≠ []) : Peer.weight h { p with
      txnsSeen := (runTask stage p.txnsSeen task).1
      tasks := (runTask stage p.txnsSeen task).2 + rest } < p.weight h := by
  have hless := runTask_weight stage p.txnsSeen htodo
  simp only [Peer.weight, htasks, tasksWeight_add, tasksWeight_cons]
  omega

/-- A finished task becomes a batch that waits for validation. -/
theorem weight_send (h : Nat) {task : Task τ} {rest : Multiset (Task τ)}
    (htasks : p.tasks = task ::ₘ rest) : Peer.weight h { p with
      tasks := rest
      pendingTxns := p.pendingTxns ++ [task.correct] } < p.weight h := by
  have hthree : 3 ≤ task.weight := by
    unfold Task.weight
    omega
  simp only [Peer.weight, htasks, tasksWeight_cons, List.length_append, List.length_singleton]
  omega

/-- A batch of which nothing is admitted leaves an empty one behind. -/
theorem weight_validate (h : Nat) {txnBatch : List (NodeId × τ)}
    {rest : List (List (NodeId × τ))} (hpending : p.pendingTxns = txnBatch :: rest)
    (v : Validator τ) : Peer.weight h { p with
      pendingTxns := rest
      validator := v
      validatedTxn := p.validatedTxn ++ [[]] } < p.weight h := by
  simp only [Peer.weight, hpending, List.length_cons, List.length_append, List.length_nil,
    List.flatten_append, List.flatten_singleton, List.append_nil]
  omega

/-- Validated transactions move over to the batch that is to be disseminated. -/
theorem weight_receive (h : Nat) {txnBatch : List (NodeId × τ)}
    {rest : List (List (NodeId × τ))} (hvalidated : p.validatedTxn = txnBatch :: rest) :
    Peer.weight h { p with
      validatedTxn := rest
      dissem := p.dissem.newTxn txnBatch } < p.weight h := by
  simp only [Peer.weight, hvalidated, TxnThread.newTxn, List.length_cons, List.length_append,
    List.flatten_cons, Nat.mul_add]
  omega

/-- A step of a node leaves it with less to be admitted, or with less work. -/
theorem PeerInv.step_weight (hinv : PeerInv stage F D p)
    (hkeys : ∀ src t, F src t → stage.txnId t ∈ keys) (h : Nat) (hstep : PeerStep stage p p') :
    Validator.missing keys p'.validator < Validator.missing keys p.validator ∨
      (Validator.missing keys p'.validator = Validator.missing keys p.validator ∧
        p'.weight h < p.weight h) := by
  cases hstep with
  | drain hne => exact Or.inr ⟨rfl, weight_drain h hne⟩
  | check htasks htodo => exact Or.inr ⟨rfl, weight_check h htasks htodo⟩
  | send htasks _ => exact Or.inr ⟨rfl, weight_send h htasks⟩
  | @validate txnBatch rest ord fuel r hpending hr =>
    rw [stage.validateBatch_eq] at hr
    have hF : ∀ x ∈ txnBatch, F x.1 x.2 := by
      intro x hx
      refine hinv.coming x (Or.inr (Or.inr ?_))
      rw [hpending, List.flatten_cons]
      exact List.mem_append_left _ hx
    have hsource := validate_source ⟨hinv.stage.source.entries, by simp⟩ hF hr
    have hadmitted := ((Validator.validate_works hinv.stage.filed hr).2.law
      (hinv.stage.law.deliver (txnBatch.map Prod.snd))).2
    obtain ⟨hle, hlt⟩ := validate_missing hinv.stage.filed hr hadmitted
      fun x hx => hkeys x.1 x.2 (hsource.out x hx)
    rcases Nat.lt_or_eq_of_le hle with hless | hsame
    · exact Or.inl hless
    · refine Or.inr ⟨hsame, ?_⟩
      have hnil : r.2 = [] := by
        by_contra hne
        exact absurd hsame (Nat.ne_of_lt (hlt hne))
      rw [hnil]
      exact weight_validate h hpending r.1
  | receive hvalidated => exact Or.inr ⟨rfl, weight_receive h hvalidated⟩

end PeerWeight

/-! ## How much there is to do in the network -/

section NetWeight

variable {pattern : TxnDissemination} {net : Topology} {tr : List (Label τ)} {s s' : Net τ}

/-- The work of all messages on their way. -/
def flightWeight (flight : Multiset (Packet τ)) : Nat := (flight.map Packet.weight).sum

theorem flightWeight_cons (p : Packet τ) (flight : Multiset (Packet τ)) :
    flightWeight (p ::ₘ flight) = p.weight + flightWeight flight := by
  unfold flightWeight
  rw [Multiset.map_cons, Multiset.sum_cons]

theorem flightWeight_add (flight flight' : Multiset (Packet τ)) :
    flightWeight (flight + flight') = flightWeight flight + flightWeight flight' := by
  unfold flightWeight
  rw [Multiset.map_add, Multiset.sum_add]

/-- One copy for each destination. -/
theorem flightWeight_multicast (me : NodeId) (dests : Finset NodeId) (txns : List τ) :
    flightWeight (dests.val.map fun dest => ⟨me, dest, txns⟩) =
      dests.card * (1 + 7 * txns.length) := by
  unfold flightWeight
  rw [Multiset.map_map]
  show ∑ _dest ∈ dests, (1 + 7 * txns.length) = _
  rw [Finset.sum_const, smul_eq_mul]

/-- A message to some of the nodes is worth at most eight for each of them and
each transaction in it. -/
theorem multicast_le {dests : Finset NodeId} (hdests : dests ⊆ net.nodes) (me : NodeId)
    {txns : List τ} (hne : 0 < txns.length) :
    flightWeight (dests.val.map fun dest => ⟨me, dest, txns⟩) ≤
      8 * net.nodes.card * txns.length := by
  rw [flightWeight_multicast]
  calc dests.card * (1 + 7 * txns.length) ≤ net.nodes.card * (8 * txns.length) :=
        Nat.mul_le_mul (Finset.card_le_card hdests) (by omega)
    _ = 8 * net.nodes.card * txns.length := by ring

/-- Whatever the pattern, a transaction makes at most one copy for each node. -/
theorem disseminate_weight (pattern : TxnDissemination) (net : Topology) (me : NodeId)
    (txnBatch : List (NodeId × τ)) : flightWeight (pattern.disseminate net me txnBatch) ≤
      8 * net.nodes.card * txnBatch.length := by
  cases pattern with
  | broadcast =>
    show flightWeight (BroadcastTxnDissemination.disseminate net me txnBatch) ≤ _
    unfold BroadcastTxnDissemination.disseminate broadcast
    dsimp only
    split
    · rename_i hlen
      refine (multicast_le (Finset.erase_subset me net.nodes) me hlen).trans ?_
      refine Nat.mul_le_mul_left _ ?_
      unfold batchBySender
      rw [List.length_map]
      exact List.length_filter_le ..
    · exact Nat.zero_le _
  | gossip =>
    show flightWeight (GossipTxnDissemination.disseminate net me txnBatch) ≤ _
    have hsum : flightWeight (GossipTxnDissemination.disseminate net me txnBatch) =
        ∑ src ∈ senders txnBatch,
          flightWeight (gossip net me (batchBySender txnBatch src) {src, me}) := by
      unfold GossipTxnDissemination.disseminate flightWeight
      rw [Multiset.map_bind, Multiset.sum_bind]
      rfl
    rw [hsum, ← sum_length_batchBySender, Finset.mul_sum]
    refine Finset.sum_le_sum fun src hsrc => ?_
    obtain ⟨x, hx, rfl⟩ := List.mem_map.mp (List.mem_toFinset.mp hsrc)
    exact multicast_le (Finset.sdiff_subset.trans (net.inside me)) me
      (List.length_pos_of_mem (mem_batchBySender.mpr hx))
  | passthrough => exact Nat.zero_le _

/-- What a transaction that is to be disseminated is worth. -/
def perTxn (net : Topology) : Nat := 8 * net.nodes.card + 1

/-- How many submitted transactions the nodes have not admitted, and the work
that is in hand. -/
def Net.measure (net : Topology) (keys : Finset Hash) (s : Net τ) : Nat × Nat :=
  (∑ n ∈ net.nodes, Validator.missing keys (s.peers n).validator,
    ∑ n ∈ net.nodes, (s.peers n).weight (perTxn net) + flightWeight s.flight)

/-- A sum over the nodes when one of them has changed. -/
theorem sum_set {n : NodeId} (hn : n ∈ net.nodes) (f : Peer τ → Nat) (p : Peer τ)
    (flight : Multiset (Packet τ)) :
    ∑ m ∈ net.nodes, f ((s.set n p flight).peers m) + f (s.peers n) =
      ∑ m ∈ net.nodes, f (s.peers m) + f p := by
  have hrest : ∑ m ∈ net.nodes.erase n, f ((s.set n p flight).peers m) =
      ∑ m ∈ net.nodes.erase n, f (s.peers m) :=
    Finset.sum_congr rfl fun m hm => by rw [Net.set_ne _ p flight (Finset.ne_of_mem_erase hm)]
  rw [← Finset.add_sum_erase _ _ hn, ← Finset.add_sum_erase _ (fun m => f (s.peers m)) hn, hrest,
    Net.set_self]
  omega

/-- A node whose own part gets smaller makes the whole smaller. -/
theorem measure_set {keys : Finset Hash} {n : NodeId} (hn : n ∈ net.nodes) {p : Peer τ}
    {flight : Multiset (Packet τ)}
    (h : Validator.missing keys p.validator < Validator.missing keys (s.peers n).validator ∨
      (Validator.missing keys p.validator = Validator.missing keys (s.peers n).validator ∧
        p.weight (perTxn net) + flightWeight flight <
          (s.peers n).weight (perTxn net) + flightWeight s.flight)) :
    Prod.Lex (· < ·) (· < ·) ((s.set n p flight).measure net keys) (s.measure net keys) := by
  have hmissing := sum_set hn (fun q => Validator.missing keys q.validator) p flight (s := s)
  have hweight := sum_set hn (fun q => q.weight (perTxn net)) p flight (s := s)
  rw [Prod.lex_def]
  unfold Net.measure
  dsimp only at hmissing hweight ⊢
  rw [show (s.set n p flight).flight = flight from rfl]
  omega

/-- What is disseminated is worth less than what is left to do without it. -/
theorem weight_forward (pattern : TxnDissemination) (net : Topology) (n : NodeId) {p : Peer τ}
    (hbatch : p.dissem.batch ≠ []) :
    p.forward.weight (perTxn net) + flightWeight (pattern.disseminate net n p.sendBatch) <
      p.weight (perTxn net) := by
  have hout := disseminate_weight pattern net n p.sendBatch
  have hsplit : p.sendBatch.length + p.forward.dissem.batch.length = p.dissem.batch.length := by
    rw [← List.length_append]
    exact congrArg List.length (List.take_append_drop ..)
  have hpos : 0 < p.sendBatch.length := by
    have hsome : 0 < p.dissem.batch.length := List.length_pos_iff.mpr hbatch
    have hsize : 0 < dissemBatchSize := by decide
    unfold Peer.sendBatch
    rw [List.length_take]
    omega
  have hforward : p.forward.weight (perTxn net) + perTxn net * p.sendBatch.length =
      p.weight (perTxn net) := by
    unfold Peer.weight
    rw [← hsplit, Nat.mul_add]
    show _ + perTxn net * p.forward.dissem.batch.length + _ = _
    have hrest : p.forward.txnBuffer = p.txnBuffer ∧ p.forward.tasks = p.tasks ∧
        p.forward.pendingTxns = p.pendingTxns ∧ p.forward.validatedTxn = p.validatedTxn :=
      ⟨rfl, rfl, rfl, rfl⟩
    rw [hrest.1, hrest.2.1, hrest.2.2.1, hrest.2.2.2]
    omega
  have hper : perTxn net * p.sendBatch.length =
      8 * net.nodes.card * p.sendBatch.length + p.sendBatch.length := by
    unfold perTxn
    ring
  omega

end NetWeight

/-! ## Nodes that nothing gets to -/

section Outside

variable {pattern : TxnDissemination} {net : Topology} {tr : List (Label τ)} {s s' : Net τ}

/-- Messages go to nodes of the network. -/
theorem dest_mem_nodes {me : NodeId} {txnBatch : List (NodeId × τ)} {p : Packet τ}
    (hp : p ∈ pattern.disseminate net me txnBatch) : p.dest ∈ net.nodes := by
  cases pattern with
  | broadcast =>
    obtain ⟨-, dest, hdest, rfl⟩ := mem_disseminate_broadcast.mp hp
    exact Finset.mem_of_mem_erase hdest
  | gossip =>
    obtain ⟨src, -, dest, hdest, rfl⟩ := mem_disseminate_gossip.mp hp
    exact net.inside me (Finset.mem_sdiff.mp hdest).1
  | passthrough => exact absurd hp (Multiset.notMem_zero p)

/-- All that happens, happens at the nodes of the network. -/
structure Confined (net : Topology) (s : Net τ) : Prop where
  outside : ∀ n, n ∉ net.nodes → s.peers n = .new
  flight : ∀ p ∈ s.flight, p.dest ∈ net.nodes

/-- A node that nothing has reached has nothing to do. -/
theorem peerStep_new {p : Peer τ} (h : PeerStep stage .new p) : False := by
  generalize hnew : (Peer.new : Peer τ) = fresh at h
  cases h with
  | drain hne => exact hne (hnew ▸ rfl)
  | check htasks _ =>
    rw [← hnew] at htasks
    exact Multiset.zero_ne_cons htasks
  | send htasks _ =>
    rw [← hnew] at htasks
    exact Multiset.zero_ne_cons htasks
  | validate hpending _ =>
    rw [← hnew] at hpending
    exact List.cons_ne_nil _ _ hpending.symm
  | receive hvalidated =>
    rw [← hnew] at hvalidated
    exact List.cons_ne_nil _ _ hvalidated.symm

/-- A step of a node of the network leaves the others untouched. -/
theorem confined_set (h : Confined net s) {n : NodeId} (hn : n ∈ net.nodes) (p : Peer τ)
    {flight : Multiset (Packet τ)} (hflight : ∀ q ∈ flight, q.dest ∈ net.nodes) :
    Confined net (s.set n p flight) where
  outside m hm := by
    have hne : m ≠ n := fun he => hm (he ▸ hn)
    rw [Net.set_ne _ p flight hne]
    exact h.outside m hm
  flight := hflight

/-- A node that does something is one of the network. -/
theorem Confined.mem_of_ne (h : Confined net s) {n : NodeId} (hne : s.peers n ≠ .new) :
    n ∈ net.nodes := by
  by_contra hn
  exact hne (h.outside n hn)

/-- Only nodes of the network do something. -/
theorem Confined.mem_of_work (h : Confined net s) {n : NodeId} {p : Peer τ}
    (hp : PeerStep stage (s.peers n) p) : n ∈ net.nodes :=
  h.mem_of_ne fun he => peerStep_new (he ▸ hp)

/-- Only nodes of the network disseminate. -/
theorem Confined.mem_of_disseminate (h : Confined net s) {n : NodeId}
    (hbatch : (s.peers n).dissem.batch ≠ []) : n ∈ net.nodes :=
  h.mem_of_ne fun he => hbatch (by rw [he]; rfl)

/-- No node outside the network ever does anything. -/
theorem run_confined (h : (network stage pattern net).Run (fun _ => ByClients stage net) tr s) :
    Confined net s := by
  refine h.invariant (Confined net) ?_ fun s l s' ih hclient hstep => ?_
  · exact ⟨fun _ _ => rfl, fun p hp => absurd hp (Multiset.notMem_zero p)⟩
  · cases hstep with
    | request n txn _ => exact confined_set ih hclient.1 _ ih.flight
    | deliver p rest hflight =>
      refine confined_set ih (ih.flight p (hflight ▸ Multiset.mem_cons_self ..)) _ fun q hq => ?_
      exact ih.flight q (hflight ▸ Multiset.mem_cons_of_mem hq)
    | work n p hp => exact confined_set ih (ih.mem_of_work hp) _ ih.flight
    | disseminate n out _ hbatch hout =>
      refine confined_set ih (ih.mem_of_disseminate hbatch) _ fun q hq => ?_
      rcases Multiset.mem_add.mp hq with hq | hq
      · exact dest_mem_nodes (hout ▸ hq)
      · exact ih.flight q hq

end Outside

/-! ## Every step brings the network closer to rest -/

section Rest

variable {pattern : TxnDissemination} {net : Topology} {tr : List (Label τ)} {s s' : Net τ}

/-- What happens by itself: everything but what clients do. -/
def Label.Internal : Label τ → Prop
  | .request _ _ => False
  | _ => True

/-- The transaction that a client submits. -/
def Label.txn? : Label τ → Option τ
  | .request _ t => some t
  | _ => none

/-- The ids of what was submitted. -/
def requested (stage : TxnStage τ) (tr : List (Label τ)) : Finset Hash :=
  ((tr.filterMap Label.txn?).map stage.txnId).toFinset

/-- The id of what was submitted is among the ids. -/
theorem mem_requested {n : NodeId} {t : τ} (h : .request n t ∈ tr) :
    stage.txnId t ∈ requested stage tr :=
  List.mem_toFinset.mpr (List.mem_map_of_mem (List.mem_filterMap.mpr ⟨_, h, rfl⟩))

/-- A step that is no client's adds no id. -/
theorem requested_snoc {l : Label τ} (hl : l.Internal) :
    requested stage (tr ++ [l]) = requested stage tr := by
  have hnone : l.txn? = none := by
    cases l with
    | request _ _ => exact hl.elim
    | _ => rfl
  unfold requested
  rw [List.filterMap_append, List.filterMap_cons_none hnone, List.filterMap_nil, List.append_nil]

/-- What a node knows was submitted somewhere. -/
theorem Known.requested {n src : NodeId} {t : τ} (h : Known stage pattern net tr s n src t) :
    stage.txnId t ∈ Gossip.requested stage tr := by
  obtain ⟨-, ⟨m, -, -, hreq⟩, -⟩ := h
  exact mem_requested hreq

/-- A message that arrives makes no more work than it was worth. -/
theorem weight_arrive (h : Nat) (p : Peer τ) (q : Packet τ) :
    (p.arrive (received q)).weight h < p.weight h + q.weight := by
  have hlen : (received q).length ≤ q.txnBatch.length := by
    unfold received
    split
    · exact Nat.zero_le _
    · rw [List.length_map]
  have hsum : (p.arrive (received q)).weight h = p.weight h + 7 * (received q).length := by
    simp only [Peer.weight, Peer.arrive, List.length_append]
    omega
  unfold Packet.weight
  omega

/-- **Every step without clients makes the measure smaller**: a transaction is
admitted that was missing somewhere, or there is less to do. -/
theorem step_measure (h : (network stage pattern net).Run (fun _ => ByClients stage net) tr s)
    {l : Label τ} (hl : l.Internal) (hstep : Step stage pattern net s l s') :
    Prod.Lex (· < ·) (· < ·) (s'.measure net (requested stage tr))
      (s.measure net (requested stage tr)) := by
  have hinv := run_netInv h
  have hconf := run_confined h
  cases hstep with
  | request _ _ _ => exact hl.elim
  | deliver p rest hflight =>
    refine measure_set (hconf.flight p (hflight ▸ Multiset.mem_cons_self ..)) (Or.inr ⟨rfl, ?_⟩)
    have harrive := weight_arrive (perTxn net) (s.peers p.dest) p
    rw [hflight, flightWeight_cons]
    omega
  | work n p hp =>
    obtain ⟨D, hD⟩ := hinv.peers n
    refine measure_set (hconf.mem_of_work hp) ?_
    have hweight := hD.step_weight (fun src t hk => hk.requested) (perTxn net) hp
    omega
  | disseminate n out _ hbatch hout =>
    refine measure_set (hconf.mem_of_disseminate hbatch) (Or.inr ⟨rfl, ?_⟩)
    have hforward := weight_forward pattern net n hbatch
    rw [flightWeight_add, hout]
    omega

/-! ## Where it cannot go on, it is at rest -/

/-- The batch that is next can be validated. -/
theorem PeerInv.can_validate {F : NodeId → τ → Prop} {D : Set τ} {p : Peer τ}
    (hinv : PeerInv stage F D p) {keys : Finset Hash}
    (hknown : ∀ src t, F src t → stage.fromClient t ∧ stage.txnId t ∈ keys)
    {txnBatch : List (NodeId × τ)} {rest : List (List (NodeId × τ))}
    (hpending : p.pendingTxns = txnBatch :: rest) : ∃ p', PeerStep stage p p' := by
  have hwithin : p.validator.Within stage.toTxnKind (fun t => stage.fromClient t) keys := by
    refine ⟨fun h t ht => ?_, fun d l hl e he => hknown _ _ (hinv.stage.source.entries d l hl e he)⟩
    have hadmitted : t ∈ (p.validator.admission stage.toTxnKind).admitted := by
      show p.validator.txnPool (stage.txnId t) = some t
      rw [hinv.stage.filed.pool h t ht, ht]
    obtain ⟨x, hx, rfl⟩ := List.mem_map.mp ((hinv.stage.admitted t).mp hadmitted)
    exact (hknown _ _ (hinv.stage.source.out x hx)).1
  have hbatch : ∀ x ∈ txnBatch, stage.fromClient x.2 ∧ stage.txnId x.2 ∈ keys := by
    intro x hx
    refine hknown x.1 x.2 (hinv.coming x (Or.inr (Or.inr ?_)))
    rw [hpending, List.flatten_cons]
    exact List.mem_append_left _ hx
  obtain ⟨r, hr, -⟩ := Validator.validate_returns (.inserted τ) stage.check_returns txnBatch
    hwithin hbatch (Nat.lt_succ_self _)
  exact ⟨_, .validate hpending ((stage.validateBatch_eq ..).trans hr)⟩

/-- A node that has something to do can go on. -/
theorem PeerInv.quiet_or_step {F : NodeId → τ → Prop} {D : Set τ} {p : Peer τ}
    (hinv : PeerInv stage F D p) {keys : Finset Hash}
    (hknown : ∀ src t, F src t → stage.fromClient t ∧ stage.txnId t ∈ keys) :
    p.Quiet ∨ (∃ p', PeerStep stage p p') ∨ p.dissem.batch ≠ [] := by
  by_cases hbuffer : p.txnBuffer = []
  swap
  · exact Or.inr (Or.inl ⟨_, .drain hbuffer⟩)
  by_cases htasks : p.tasks = 0
  swap
  · obtain ⟨task, htask⟩ := Multiset.exists_mem_of_ne_zero htasks
    obtain ⟨rest, hrest⟩ := Multiset.exists_cons_of_mem htask
    by_cases htodo : task.todo = []
    · exact Or.inr (Or.inl ⟨_, .send hrest htodo⟩)
    · exact Or.inr (Or.inl ⟨_, .check hrest htodo⟩)
  cases hpending : p.pendingTxns with
  | cons txnBatch rest => exact Or.inr (Or.inl (hinv.can_validate hknown hpending))
  | nil =>
    cases hvalidated : p.validatedTxn with
    | cons txnBatch rest => exact Or.inr (Or.inl ⟨_, .receive hvalidated⟩)
    | nil =>
      by_cases hbatch : p.dissem.batch = []
      · exact Or.inl ⟨hbuffer, htasks, hpending, hvalidated, hbatch⟩
      · exact Or.inr (Or.inr hbatch)

/-- The network has nothing left to do by itself. -/
def AtRest (stage : TxnStage τ) (pattern : TxnDissemination) (net : Topology) (s : Net τ) : Prop :=
  ∀ l s', l.Internal → ¬ Step stage pattern net s l s'

/-- Where no step is possible, nobody has anything left: whatever is in a
buffer, a task or a channel allows a step. -/
theorem quiet_of_atRest (h : (network stage pattern net).Run (fun _ => ByClients stage net) tr s)
    (hrest : AtRest stage pattern net s) : s.Quiet := by
  have hinv := run_netInv h
  refine ⟨fun n => ?_, ?_⟩
  · obtain ⟨D, hD⟩ := hinv.peers n
    rcases hD.quiet_or_step fun src t hk => ⟨hk.1, hk.requested⟩ with hquiet | ⟨p, hp⟩ | hbatch
    · exact hquiet
    · exact absurd (.work n p hp) (hrest (.work n) _ trivial)
    · exact absurd (.disseminate n _ (hD.timer hbatch) hbatch rfl)
        (hrest (.disseminate n _) _ trivial)
  · by_contra hflight
    obtain ⟨p, hp⟩ := Multiset.exists_mem_of_ne_zero hflight
    obtain ⟨rest, hcons⟩ := Multiset.exists_cons_of_mem hp
    exact hrest (.deliver p) _ trivial (.deliver p rest hcons)

/-- Where nobody has anything left, no step is possible. -/
theorem atRest_of_quiet (hquiet : s.Quiet) : AtRest stage pattern net s := by
  intro l s' hl hstep
  cases hstep with
  | request _ _ _ => exact hl
  | deliver p rest hflight =>
    rw [hquiet.flight] at hflight
    exact Multiset.zero_ne_cons hflight
  | work n p hp =>
    have hn := hquiet.peers n
    cases hp with
    | drain hne => exact hne hn.txnBuffer
    | check htasks _ => exact Multiset.zero_ne_cons (hn.tasks.symm.trans htasks)
    | send htasks _ => exact Multiset.zero_ne_cons (hn.tasks.symm.trans htasks)
    | validate hpending _ => exact List.cons_ne_nil _ _ (hpending.symm.trans hn.pendingTxns)
    | receive hvalidated => exact List.cons_ne_nil _ _ (hvalidated.symm.trans hn.validatedTxn)
  | disseminate n out _ hbatch _ => exact hbatch (hquiet.peers n).batch

/-! ## Coming to rest -/

/-- The ways to go on without clients. -/
abbrev Onward (stage : TxnStage τ) (pattern : TxnDissemination) (net : Topology) :
    Net τ → List (Label τ) → Net τ → Prop :=
  (network stage pattern net).Path fun _ l => l.Internal

/-- Going on is a run as well. -/
theorem Onward.run (h : (network stage pattern net).Run (fun _ => ByClients stage net) tr s)
    {tr' : List (Label τ)} (hpath : Onward stage pattern net s tr' s') :
    (network stage pattern net).Run (fun _ => ByClients stage net) (tr ++ tr') s' ∧
      ∀ l ∈ tr', l.Internal := by
  induction hpath with
  | nil => exact ⟨by rwa [List.append_nil], fun l hl => absurd hl List.not_mem_nil⟩
  | @snoc tr₁ s₁ s₂ l _ hl hstep ih =>
    obtain ⟨hrun, hall⟩ := ih
    have hclient : ByClients stage net l := by
      cases l with
      | request _ _ => exact hl.elim
      | _ => trivial
    refine ⟨?_, fun l' hl' => ?_⟩
    · rw [← List.append_assoc]
      exact hrun.snoc hclient hstep
    · rcases List.mem_append.mp hl' with hl' | hl'
      · exact hall l' hl'
      · exact List.mem_singleton.mp hl' ▸ hl

/-- The ids stay the same without clients. -/
theorem requested_append (tr : List (Label τ)) {tr' : List (Label τ)}
    (h : ∀ l ∈ tr', l.Internal) : requested stage (tr ++ tr') = requested stage tr := by
  induction tr' using List.reverseRecOn with
  | nil => rw [List.append_nil]
  | append_singleton tr' l ih =>
    rw [← List.append_assoc, requested_snoc (h l (by simp)),
      ih fun l' hl' => h l' (List.mem_append_left _ hl')]

/-- What was submitted stays the same without clients. -/
theorem submitted_append (tr : List (Label τ)) {tr' : List (Label τ)}
    (h : ∀ l ∈ tr', l.Internal) : submitted stage (tr ++ tr') = submitted stage tr := by
  funext n
  refine Set.ext fun t => and_congr_left' ?_
  rw [List.mem_append, or_iff_left]
  intro ht
  exact h _ ht

/-- The network cannot go on forever by itself. -/
theorem run_acc (h : (network stage pattern net).Run (fun _ => ByClients stage net) tr s) :
    Acc (fun s₂ s₁ => ∃ l, l.Internal ∧ Step stage pattern net s₁ l s₂) s := by
  have hwf : WellFounded (Prod.Lex (· < · : Nat → Nat → Prop) (· < · : Nat → Nat → Prop)) :=
    WellFounded.prod_lex Nat.lt_wfRel.wf Nat.lt_wfRel.wf
  have hall : ∀ m : Nat × Nat, ∀ tr' s', Onward stage pattern net s tr' s' →
      s'.measure net (requested stage tr) = m →
      Acc (fun s₂ s₁ => ∃ l, l.Internal ∧ Step stage pattern net s₁ l s₂) s' := by
    intro m
    induction m using hwf.induction with
    | h m ih =>
      intro tr' s' hpath hm
      refine Acc.intro s' fun s₂ hs₂ => ?_
      obtain ⟨l, hl, hstep⟩ := hs₂
      obtain ⟨hrun, hinternal⟩ := Onward.run h hpath
      have hless := step_measure hrun hl hstep
      rw [requested_append tr hinternal, hm] at hless
      exact ih _ hless _ s₂ (hpath.snoc hl hstep) rfl
  exact hall _ [] s .nil rfl

end Rest

/-- **The network comes to rest.** When clients submit nothing more, there are
finitely many steps in every order, and where none is left, nothing is on the way
and the mempools agree on what was submitted. -/
theorem comes_to_rest (c : Cluster) (pattern : TxnDissemination) {tr : List (Label τ)} {s : Net τ}
    (h : (network stage pattern c.net).Run (fun _ => ByClients stage c.net) tr s) :
    Acc (fun s₂ s₁ => ∃ l, l.Internal ∧ Step stage pattern c.net s₁ l s₂) s ∧
      ∀ tr' s', Onward stage pattern c.net s tr' s' →
        (AtRest stage pattern c.net s' ↔ s'.Quiet) ∧
          (AtRest stage pattern c.net s' → Agree stage pattern c.net tr s') := by
  refine ⟨run_acc h, fun tr' s' hpath => ?_⟩
  obtain ⟨hrun, hinternal⟩ := Onward.run h hpath
  refine ⟨⟨quiet_of_atRest hrun, atRest_of_quiet⟩, fun hrest => ?_⟩
  have hagree := (run_netInv hrun).agree c (quiet_of_atRest hrun hrest)
  unfold Agree at hagree ⊢
  rwa [submitted_append tr hinternal] at hagree

open Bitcoin (demo demoGrant demoPay dummyVerify)

/-- A payment has just been submitted, and there is something to do; when its grant has
been submitted too and both have got to both nodes, there is not. -/
theorem comes_to_rest_demo :
    (Acc (fun s₂ s₁ => ∃ l, l.Internal ∧
        Step (bitcoinStage demo.ids dummyVerify) .gossip demoCluster.net s₁ l s₂)
      (Net.new.set 1 (Peer.new.arrive [(1, demoPay)]) 0) ∧
      ¬ AtRest (bitcoinStage demo.ids dummyVerify) .gossip demoCluster.net
        (Net.new.set 1 (Peer.new.arrive [(1, demoPay)]) 0)) ∧
    ∃ tr s, tr.filter Label.visible = demoActs ∧
      AtRest (bitcoinStage demo.ids dummyVerify) .gossip demoCluster.net s ∧
      Agree (bitcoinStage demo.ids dummyVerify) .gossip demoCluster.net tr s ∧
      s.mempool 0 = [demoGrant, demoPay] ∧ s.mempool 1 = [demoGrant, demoPay] := by
  have hclient : ByClients (bitcoinStage demo.ids dummyVerify) demoCluster.net
      (.request 1 demoPay) := ⟨by decide, rfl⟩
  obtain ⟨hacc, hpaths⟩ := comes_to_rest demoCluster .gossip
    (.snoc .nil hclient (.request 1 demoPay (by decide)))
  refine ⟨⟨hacc, fun hrest => ?_⟩, ?_⟩
  · exact absurd (((hpaths [] _ .nil).1.mp hrest).peers 1).txnBuffer (by simp [Peer.arrive])
  · obtain ⟨s, hquiet, ⟨tr, hacts, hrun⟩, hmempools⟩ := demo_run
    obtain ⟨hiff, hagree⟩ := (comes_to_rest demoCluster .gossip hrun).2 [] s .nil
    exact ⟨tr, s, hacts, hiff.mpr hquiet, hagree (hiff.mpr hquiet), hmempools⟩

end Copycat.Gossip
