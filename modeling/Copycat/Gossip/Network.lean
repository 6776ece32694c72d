import Copycat.Gossip.Peer
import Copycat.Lib.Sharing

/-!
# Transactions in a network

Nodes with their transaction sides (`Copycat.Gossip.Peer`) and messages between
them. Clients submit transactions at any nodes, messages arrive in any order,
and every node goes on with whatever it has in hand, in any order.

Transactions spend each other's outputs, so a node sends on nothing whose
parents it has not seen, and different parts of a chain of payments may start
at different nodes. Still, when nothing is on the way any more, every node has
handed to its block management what it would have handed on had everything been
submitted to itself: all that is admissible of what was submitted at the nodes
it is connected to (`mempools_agree`). And on the way there, a transaction goes
over each pipe at most once in each direction (`gossiped_once`), with any number
of nodes that have it and any number of ways it can come.

No transaction enters `txns_seen` here but through the transaction stage; what
peer blocks do to it is in `Copycat.Hiding`. Dissemination does not fail, as in
`Copycat.Dissemination` it may.
-/

namespace Copycat.Gossip

open Copycat.Lib
open Bitcoin (Topology)
open Relation (ReflTransGen)

variable {τ : Type}

/-- The nodes, and the messages that have been sent and not received. -/
structure Net (τ : Type) where
  peers : NodeId → Peer τ
  flight : Multiset (Packet τ)

/-- No node has done anything, and no message is on its way. -/
def Net.new : Net τ where
  peers := fun _ => .new
  flight := 0

/-- A node has changed, and the messages on their way. -/
def Net.set (s : Net τ) (n : NodeId) (p : Peer τ) (flight : Multiset (Packet τ)) : Net τ where
  peers := Function.update s.peers n p
  flight := flight

/-- A client submits a transaction, a message arrives, a node does something
that nobody else sees, or it disseminates a batch. -/
inductive Label (τ : Type) where
  | request (n : NodeId) (txn : τ)
  | deliver (p : Packet τ)
  | work (n : NodeId)
  | disseminate (n : NodeId) (out : Multiset (Packet τ))

/-- The transactions that go into the buffer of the node when a message
arrives. -/
def received (p : Packet τ) : List (NodeId × τ) :=
  -- ignore txns sent by self
  if p.src = p.dest then [] else p.txnBatch.map fun txn => (p.src, txn)

section Steps

variable (stage : TxnStage τ) (pattern : TxnDissemination) (net : Topology)

/-- One step of the network. The pattern decides which messages a batch becomes;
a message that is delivered leaves the network. -/
inductive Step (s : Net τ) : Label τ → Net τ → Prop
  | request (n : NodeId) (txn : τ) :
      (s.peers n).txnBuffer.length < validationBatchSize * 3 →
      Step s (.request n txn) (s.set n ((s.peers n).arrive [(n, txn)]) s.flight)
  | deliver (p : Packet τ) (rest : Multiset (Packet τ)) : s.flight = p ::ₘ rest →
      Step s (.deliver p) (s.set p.dest ((s.peers p.dest).arrive (received p)) rest)
  | work (n : NodeId) (p : Peer τ) : PeerStep stage (s.peers n) p →
      Step s (.work n) (s.set n p s.flight)
  | disseminate (n : NodeId) (out : Multiset (Packet τ)) :
      (s.peers n).dissem.timerSet = true → (s.peers n).dissem.batch ≠ [] →
      out = pattern.disseminate net n (s.peers n).sendBatch →
      Step s (.disseminate n out) (s.set n (s.peers n).forward (out + s.flight))

/-- The network as a machine. -/
def network : Machine (Net τ) (Label τ) where
  start := .new
  step := Step stage pattern net

/-- Clients submit transactions of the kinds that they make, at nodes of the
network. -/
def ByClients : Label τ → Prop
  | .request n txn => n ∈ net.nodes ∧ stage.fromClient txn
  | _ => True

/-- The nodes that a node sends to what it has got from clients. -/
def Next (n m : NodeId) : Prop :=
  match pattern with
  | .broadcast => n ∈ net.nodes ∧ m ∈ net.nodes
  | .gossip => m ∈ net.neighbors n
  | .passthrough => False

/-- The transactions with a valid signature that are submitted at a node. -/
def submitted (tr : List (Label τ)) (n : NodeId) : Set τ :=
  fun t => .request n t ∈ tr ∧ stage.validate t = .ok (some true)

end Steps

/-- Nothing is on the way. -/
structure Net.Quiet (s : Net τ) : Prop where
  peers : ∀ n, (s.peers n).Quiet
  flight : s.flight = 0

/-- What the node has handed to block management. -/
def Net.mempool (s : Net τ) (n : NodeId) : List τ := (s.peers n).dissem.txnReady.flatten

@[simp] theorem Net.set_self (s : Net τ) (n : NodeId) (p : Peer τ)
    (flight : Multiset (Packet τ)) : (s.set n p flight).peers n = p :=
  Function.update_self ..

/-- What one node does leaves the others as they are. -/
theorem Net.set_ne (s : Net τ) {n m : NodeId} (p : Peer τ) (flight : Multiset (Packet τ))
    (h : m ≠ n) : (s.set n p flight).peers m = s.peers m :=
  Function.update_of_ne h ..

@[simp] theorem Net.set_set (s : Net τ) (n : NodeId) (p p' : Peer τ)
    (flight flight' : Multiset (Packet τ)) :
    (s.set n p flight).set n p' flight' = s.set n p' flight' := by
  unfold Net.set
  rw [Function.update_idem]

variable {stage : TxnStage τ} {pattern : TxnDissemination} {net : Topology}

/-! ## What was sent -/

/-- `n` has disseminated a transaction with a source for which it goes to `m`. -/
def Sent (pattern : TxnDissemination) (net : Topology) (s : Net τ) (n m : NodeId) (t : τ) : Prop :=
  ∃ src, (src, t) ∈ (s.peers n).dissem.disseminated.flatten ∧ m ∈ pattern.recipients net n src

/-- Every node has at least disseminated what it had before. -/
def Grows (s s' : Net τ) : Prop :=
  ∀ n, (s.peers n).dissem.disseminated <+: (s'.peers n).dissem.disseminated

/-- What has been sent stays sent. -/
theorem Sent.mono {s s' : Net τ} (hgrows : Grows s s') {n m : NodeId} {t : τ}
    (h : Sent pattern net s n m t) : Sent pattern net s' n m t := by
  obtain ⟨src, hsrc, hm⟩ := h
  obtain ⟨l, hl⟩ := hgrows n
  refine ⟨src, ?_, hm⟩
  rw [← hl, List.flatten_append]
  exact List.mem_append_left _ hsrc

/-- What is known of a transaction at the node `n` whose source is `src`: it was
submitted somewhere, and comes from a client or was sent by the source. -/
def Known (stage : TxnStage τ) (pattern : TxnDissemination) (net : Topology) (tr : List (Label τ))
    (s : Net τ) (n src : NodeId) (t : τ) : Prop :=
  stage.fromClient t ∧
  (∃ m ∈ net.nodes, ReflTransGen (Next pattern net) m n ∧ .request m t ∈ tr) ∧
  (src = n ∨ Sent pattern net s src n t)

/-- What a node has from somewhere, it has from there ever after. -/
theorem Known.mono {tr tr' : List (Label τ)} {s s' : Net τ} (htr : ∀ l ∈ tr, l ∈ tr')
    (hgrows : Grows s s') {n src : NodeId} {t : τ} (h : Known stage pattern net tr s n src t) :
    Known stage pattern net tr' s' n src t := by
  obtain ⟨hclient, ⟨m, hnode, hm, hreq⟩, hsrc⟩ := h
  exact ⟨hclient, ⟨m, hnode, hm, htr _ hreq⟩, hsrc.imp_right fun h => h.mono hgrows⟩

/-- A pattern sends only to nodes that are next to each other. -/
theorem next_of_mem_recipients {n m src : NodeId} (hn : n ∈ net.nodes)
    (h : m ∈ pattern.recipients net n src) : Next pattern net n m := by
  cases pattern with
  | broadcast =>
    rw [TxnDissemination.recipients] at h
    split at h
    · exact ⟨hn, Finset.mem_of_mem_erase h⟩
    · exact absurd h (Finset.notMem_empty m)
  | gossip => exact (Finset.mem_sdiff.mp h).1
  | passthrough => exact absurd h (Finset.notMem_empty m)

/-- Next to a node there are only nodes of the network. -/
theorem mem_nodes_of_next {n m : NodeId} (h : Next pattern net n m) : m ∈ net.nodes := by
  cases pattern with
  | broadcast => exact h.2
  | gossip => exact net.inside n h
  | passthrough => exact h.elim

/-- From a node of the network, a path stays among its nodes. -/
theorem mem_nodes_of_reach {n m : NodeId} (h : ReflTransGen (Next pattern net) n m)
    (hn : n ∈ net.nodes) : m ∈ net.nodes := by
  rcases h.cases_tail with rfl | ⟨k, -, hk⟩
  · exact hn
  · exact mem_nodes_of_next hk

/-- No node sends to itself. -/
theorem Sent.ne {s : Net τ} {n m : NodeId} {t : τ} (h : Sent pattern net s n m t) : n ≠ m := by
  obtain ⟨src, -, hm⟩ := h
  intro he
  exact not_mem_recipients_self (he ▸ hm)

/-- After the labels `tr`. -/
structure NetInv (stage : TxnStage τ) (pattern : TxnDissemination) (net : Topology)
    (tr : List (Label τ)) (s : Net τ) : Prop where
  peers : ∀ n, ∃ D, PeerInv stage (Known stage pattern net tr s n) D (s.peers n)
  arrived : ∀ n, ∀ t ∈ submitted stage tr n, (s.peers n).Holds stage t
  flight : ∀ p ∈ s.flight, ∀ t ∈ p.txnBatch, Sent pattern net s p.src p.dest t
  sent : ∀ n m t, Sent pattern net s n m t → stage.validate t = .ok (some true) →
    (s.peers m).Holds stage t ∨ ∃ p ∈ s.flight, p.dest = m ∧ t ∈ p.txnBatch

/-- At the start nothing has been submitted, sent or admitted. -/
theorem netInv_new (stage : TxnStage τ) (pattern : TxnDissemination) (net : Topology) :
    NetInv stage pattern net [] Net.new where
  peers n := ⟨∅, peerInv_new stage _⟩
  arrived n t ht := absurd ht.1 List.not_mem_nil
  flight p hp := absurd hp (Multiset.notMem_zero p)
  sent n m t ht := by
    obtain ⟨src, hsrc, -⟩ := ht
    exact absurd hsrc List.not_mem_nil

variable {tr : List (Label τ)} {s s' : Net τ}

/-- What a node has disseminated, it has from somewhere. -/
theorem NetInv.known_of_disseminated (h : NetInv stage pattern net tr s) {n src : NodeId} {t : τ}
    (ht : (src, t) ∈ (s.peers n).dissem.disseminated.flatten) :
    Known stage pattern net tr s n src t := by
  obtain ⟨D, hD⟩ := h.peers n
  exact hD.stage.source.out (src, t) (List.mem_append_left _ (List.mem_append_left _ ht))

/-- What is sent is known where it goes. -/
theorem NetInv.known_of_sent (h : NetInv stage pattern net tr s) {n m : NodeId} {t : τ}
    (ht : Sent pattern net s n m t) : Known stage pattern net tr s m n t := by
  obtain ⟨src, hsrc, hm⟩ := ht
  obtain ⟨hclient, ⟨k, hk, hreach, hreq⟩, -⟩ := h.known_of_disseminated hsrc
  have hnext := next_of_mem_recipients (mem_nodes_of_reach hreach hk) hm
  exact ⟨hclient, ⟨k, hk, hreach.tail hnext, hreq⟩, Or.inr ⟨src, hsrc, hm⟩⟩

/-- A step of one node only adds to what has been disseminated. -/
theorem grows_set {n : NodeId} {p : Peer τ} {flight : Multiset (Packet τ)}
    (h : (s.peers n).dissem.disseminated <+: p.dissem.disseminated) :
    Grows s (s.set n p flight) := by
  intro m
  by_cases hm : m = n
  · rw [hm, Net.set_self]
    exact h
  · rw [Net.set_ne _ p flight hm]

/-- The invariants of the nodes, when one of them has changed. -/
theorem NetInv.peers_set (h : NetInv stage pattern net tr s) {tr' : List (Label τ)} {n : NodeId}
    {p : Peer τ} {flight : Multiset (Packet τ)} (htr : ∀ l ∈ tr, l ∈ tr')
    (hgrows : (s.peers n).dissem.disseminated <+: p.dissem.disseminated)
    (hp : ∃ D, PeerInv stage (Known stage pattern net tr' (s.set n p flight) n) D p) (m : NodeId) :
    ∃ D, PeerInv stage (Known stage pattern net tr' (s.set n p flight) m) D
      ((s.set n p flight).peers m) := by
  by_cases hm : m = n
  · rw [hm, Net.set_self]
    exact hp
  · obtain ⟨D, hD⟩ := h.peers m
    rw [Net.set_ne _ p flight hm]
    exact ⟨D, hD.mono fun src t hk => hk.mono htr (grows_set hgrows)⟩

/-- What a node holds it still holds after a step, its own or another's. -/
theorem holds_set {n m : NodeId} {p : Peer τ} {flight : Multiset (Packet τ)} {t : τ}
    (hp : (s.peers n).Holds stage t → p.Holds stage t) (ht : (s.peers m).Holds stage t) :
    ((s.set n p flight).peers m).Holds stage t := by
  by_cases hm : m = n
  · rw [hm, Net.set_self]
    exact hp (hm ▸ ht)
  · rw [Net.set_ne _ p flight hm]
    exact ht

/-- A step that disseminates nothing sends nothing. -/
theorem sent_set {n : NodeId} {p : Peer τ} {flight : Multiset (Packet τ)}
    (hp : p.dissem.disseminated = (s.peers n).dissem.disseminated) {k m : NodeId} {t : τ} :
    Sent pattern net (s.set n p flight) k m t ↔ Sent pattern net s k m t := by
  have hsame : ((s.set n p flight).peers k).dissem.disseminated =
      (s.peers k).dissem.disseminated := by
    by_cases hk : k = n
    · rw [hk, Net.set_self, hp]
    · rw [Net.set_ne _ p flight hk]
  unfold Sent
  rw [hsame]

theorem Peer.arrive_disseminated (p : Peer τ) (txns : List (NodeId × τ)) :
    (p.arrive txns).dissem.disseminated = p.dissem.disseminated := rfl

/-- More in the buffer takes nothing away. -/
theorem Peer.Holds.arrive {p : Peer τ} {t : τ} (h : p.Holds stage t)
    (txns : List (NodeId × τ)) : (p.arrive txns).Holds stage t := by
  rcases h with h | h | h
  · refine Or.inl ?_
    rw [Peer.arrive, List.map_append]
    exact List.mem_append_left _ h
  · exact Or.inr (Or.inl h)
  · exact Or.inr (Or.inr h)

/-- What goes into the buffer is held. -/
theorem Peer.holds_arrived (p : Peer τ) {txns : List (NodeId × τ)} {t : τ}
    (h : t ∈ txns.map Prod.snd) : (p.arrive txns).Holds stage t := by
  refine Or.inl ?_
  rw [Peer.arrive, List.map_append]
  exact List.mem_append_right _ h

/-! ## The steps -/

/-- The labels that submit a transaction. -/
theorem submitted_snoc {l : Label τ} {n : NodeId} {t : τ} :
    t ∈ submitted stage (tr ++ [l]) n ↔
      t ∈ submitted stage tr n ∨ l = .request n t ∧ stage.validate t = .ok (some true) := by
  show (_ ∈ tr ++ [l] ∧ _) ↔ (_ ∧ _) ∨ _
  rw [List.mem_append, List.mem_singleton, or_and_right, @eq_comm _ l]

/-- A client's transaction goes into the buffer of its node. -/
theorem NetInv.request (h : NetInv stage pattern net tr s) {n : NodeId} {txn : τ}
    (hn : n ∈ net.nodes) (hclient : stage.fromClient txn) :
    NetInv stage pattern net (tr ++ [.request n txn])
      (s.set n ((s.peers n).arrive [(n, txn)]) s.flight) := by
  have htr : ∀ l ∈ tr, l ∈ tr ++ [.request n txn] := fun l hl => List.mem_append_left _ hl
  have hgrows : (s.peers n).dissem.disseminated <+:
      ((s.peers n).arrive [(n, txn)]).dissem.disseminated := List.prefix_rfl
  have hholds : ∀ {m t}, (s.peers m).Holds stage t →
      ((s.set n ((s.peers n).arrive [(n, txn)]) s.flight).peers m).Holds stage t :=
    fun hm => holds_set (fun ht => ht.arrive _) hm
  refine ⟨h.peers_set htr hgrows ?_, fun m t ht => ?_, fun p hp t ht => ?_,
    fun k m t ht hvalid => ?_⟩
  · obtain ⟨D, hD⟩ := h.peers n
    refine ⟨D, (hD.mono fun src t hk => hk.mono htr (grows_set hgrows)).arrive fun x hx => ?_⟩
    rw [List.mem_singleton.mp hx]
    exact ⟨hclient, ⟨n, hn, .refl, by simp⟩, Or.inl rfl⟩
  · rcases submitted_snoc.mp ht with ht | ⟨he, -⟩
    · exact hholds (h.arrived m t ht)
    · obtain ⟨rfl, rfl⟩ := Label.request.inj he
      rw [Net.set_self]
      exact Peer.holds_arrived _ (by simp)
  · exact (sent_set (Peer.arrive_disseminated ..)).mpr (h.flight p hp t ht)
  · exact (h.sent k m t ((sent_set (Peer.arrive_disseminated ..)).mp ht) hvalid).imp_left hholds

/-- A message that arrives is in the buffer of the node it was sent to. -/
theorem NetInv.deliver (h : NetInv stage pattern net tr s) {p : Packet τ}
    {rest : Multiset (Packet τ)} (hflight : s.flight = p ::ₘ rest) :
    NetInv stage pattern net (tr ++ [.deliver p])
      (s.set p.dest ((s.peers p.dest).arrive (received p)) rest) := by
  have htr : ∀ l ∈ tr, l ∈ tr ++ [.deliver p] := fun l hl => List.mem_append_left _ hl
  have hgrows : (s.peers p.dest).dissem.disseminated <+:
      ((s.peers p.dest).arrive (received p)).dissem.disseminated := List.prefix_rfl
  have hp : p ∈ s.flight := hflight ▸ Multiset.mem_cons_self ..
  have hholds : ∀ {m t}, (s.peers m).Holds stage t →
      ((s.set p.dest ((s.peers p.dest).arrive (received p)) rest).peers m).Holds stage t :=
    fun hm => holds_set (fun ht => ht.arrive _) hm
  refine ⟨h.peers_set htr hgrows ?_, fun m t ht => ?_, fun q hq t ht => ?_,
    fun k m t ht hvalid => ?_⟩
  · obtain ⟨D, hD⟩ := h.peers p.dest
    refine ⟨D, (hD.mono fun src t hk => hk.mono htr (grows_set hgrows)).arrive fun x hx => ?_⟩
    unfold received at hx
    split at hx
    · exact absurd hx List.not_mem_nil
    · obtain ⟨t, ht, rfl⟩ := List.mem_map.mp hx
      exact (h.known_of_sent (h.flight p hp t ht)).mono htr (grows_set hgrows)
  · rcases submitted_snoc.mp ht with ht | ⟨he, -⟩
    · exact hholds (h.arrived m t ht)
    · exact absurd he (by simp)
  · exact (sent_set (Peer.arrive_disseminated ..)).mpr
      (h.flight q (hflight ▸ Multiset.mem_cons_of_mem hq) t ht)
  · rcases h.sent k m t ((sent_set (Peer.arrive_disseminated ..)).mp ht) hvalid with
      hm | ⟨q, hq, rfl, htq⟩
    · exact Or.inl (hholds hm)
    · rw [hflight] at hq
      rcases Multiset.mem_cons.mp hq with rfl | hq
      · -- the message has arrived
        refine Or.inl ?_
        rw [Net.set_self]
        refine Peer.holds_arrived _ ?_
        unfold received
        rw [if_neg (h.flight q hp t htq).ne, List.map_map]
        exact List.mem_map.mpr ⟨t, htq, rfl⟩
      · exact Or.inr ⟨q, hq, rfl, htq⟩

/-- Inside a node nothing is lost, and nothing new is made. -/
theorem NetInv.work (h : NetInv stage pattern net tr s) {n : NodeId} {p : Peer τ}
    (hstep : PeerStep stage (s.peers n) p) :
    NetInv stage pattern net (tr ++ [.work n]) (s.set n p s.flight) := by
  have htr : ∀ l ∈ tr, l ∈ tr ++ [.work n] := fun l hl => List.mem_append_left _ hl
  obtain ⟨D, hD⟩ := h.peers n
  obtain ⟨⟨D', hD'⟩, hkeeps⟩ := hD.step (fun src t hk => hk.1) hstep
  have hgrows : (s.peers n).dissem.disseminated <+: p.dissem.disseminated :=
    hkeeps.disseminated ▸ List.prefix_rfl
  have hholds : ∀ {m t}, stage.validate t = .ok (some true) → (s.peers m).Holds stage t →
      ((s.set n p s.flight).peers m).Holds stage t :=
    fun hvalid hm => holds_set (hkeeps.holds _ hvalid) hm
  refine ⟨h.peers_set htr hgrows
    ⟨D', hD'.mono fun src t hk => hk.mono htr (grows_set hgrows)⟩, fun m t ht => ?_,
    fun q hq t ht => ?_, fun k m t ht hvalid => ?_⟩
  · rcases submitted_snoc.mp ht with ht | ⟨he, -⟩
    · exact hholds ht.2 (h.arrived m t ht)
    · exact absurd he (by simp)
  · exact (sent_set hkeeps.disseminated).mpr (h.flight q hq t ht)
  · exact (h.sent k m t ((sent_set hkeeps.disseminated).mp ht) hvalid).imp_left (hholds hvalid)

/-- A batch that is disseminated becomes messages to every recipient, so what it
sends is on its way. -/
theorem NetInv.disseminate (h : NetInv stage pattern net tr s) {n : NodeId}
    {out : Multiset (Packet τ)} (hout : out = pattern.disseminate net n (s.peers n).sendBatch) :
    NetInv stage pattern net (tr ++ [.disseminate n out])
      (s.set n (s.peers n).forward (out + s.flight)) := by
  have htr : ∀ l ∈ tr, l ∈ tr ++ [.disseminate n out] := fun l hl => List.mem_append_left _ hl
  have hgrows : (s.peers n).dissem.disseminated <+: (s.peers n).forward.dissem.disseminated :=
    List.prefix_append ..
  have hholds : ∀ {m t}, (s.peers m).Holds stage t →
      ((s.set n (s.peers n).forward (out + s.flight)).peers m).Holds stage t :=
    fun hm => holds_set (fun ht => ht) hm
  refine ⟨h.peers_set htr hgrows ?_, fun m t ht => ?_, fun q hq t ht => ?_,
    fun k m t ht hvalid => ?_⟩
  · obtain ⟨D, hD⟩ := h.peers n
    exact ⟨D, (hD.mono fun src t hk => hk.mono htr (grows_set hgrows)).forward⟩
  · rcases submitted_snoc.mp ht with ht | ⟨he, -⟩
    · exact hholds (h.arrived m t ht)
    · exact absurd he (by simp)
  · rcases Multiset.mem_add.mp hq with hq | hq
    · obtain ⟨rfl, src, hsrc, hdest⟩ := recipient_of_mem_disseminate (hout ▸ hq) ht
      refine ⟨src, ?_, hdest⟩
      rw [Net.set_self, Peer.forward_flatten]
      exact List.mem_append_right _ hsrc
    · exact (h.flight q hq t ht).mono (grows_set hgrows)
  · obtain ⟨src, hsrc, hm⟩ := ht
    have hcases : (src, t) ∈ (s.peers k).dissem.disseminated.flatten ∨
        k = n ∧ (src, t) ∈ (s.peers n).sendBatch := by
      by_cases hk : k = n
      · rw [hk, Net.set_self, Peer.forward_flatten, List.mem_append] at hsrc
        rw [hk]
        exact hsrc.imp_right fun hx => ⟨rfl, hx⟩
      · rw [Net.set_ne _ _ _ hk] at hsrc
        exact Or.inl hsrc
    rcases hcases with hsrc | ⟨rfl, hsrc⟩
    · rcases h.sent k m t ⟨src, hsrc, hm⟩ hvalid with hm | ⟨q, hq, hdest, htq⟩
      · exact Or.inl (hholds hm)
      · exact Or.inr ⟨q, Multiset.mem_add.mpr (Or.inr hq), hdest, htq⟩
    · obtain ⟨q, hq, hdest, htq⟩ := mem_disseminate_of_recipient hsrc hm
      exact Or.inr ⟨q, Multiset.mem_add.mpr (Or.inl (hout ▸ hq)), hdest, htq⟩

/-- The invariant holds after every run in which clients submit. -/
theorem run_netInv (h : (network stage pattern net).Run (fun _ => ByClients stage net) tr s) :
    NetInv stage pattern net tr s := by
  refine h.invariant_trace (NetInv stage pattern net) (netInv_new stage pattern net) ?_
  intro tr s l s' ih hclient hstep
  cases hstep with
  | request n txn _ => exact ih.request hclient.1 hclient.2
  | deliver p rest hflight => exact ih.deliver hflight
  | work n p hp => exact ih.work hp
  | disseminate n out _ _ hout => exact ih.disseminate hout

end Copycat.Gossip
