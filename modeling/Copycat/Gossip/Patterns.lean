import Copycat.Dissemination
import Copycat.Gossip.Topology
import Mathlib.Algebra.BigOperators.Group.Multiset.Defs
import Mathlib.Algebra.Order.BigOperators.Group.Finset
import Mathlib.Data.Multiset.Bind

/-!
# Dissemination of transactions

The stages behind `txn_dissemination_thread`: gossip sends a batch to the
neighbors, without those it came from, broadcast sends what clients submitted
here to everybody, and passthrough sends nothing. `get_txn_dissemination` picks
one of them; for the two other patterns it has none.

A batch holds transactions of several sources and leaves in several messages.
What matters of them is to whom a transaction goes, which depends on its source
only: `recipients`. It goes to each of these (`mem_disseminate_of_recipient`),
to nobody else (`recipient_of_mem_disseminate`), and once
(`copies_disseminate_le`).
-/

namespace Copycat.Gossip

open Bitcoin (Topology)

/-- `DissemPattern`. -/
inductive DissemPattern where
  | broadcast
  | gossip
  | sample (sampleSize : Nat)
  | linear (order : List NodeId)
  | passthrough
deriving DecidableEq, Repr

/-- The stages there are. -/
inductive TxnDissemination where
  | broadcast
  | gossip
  | passthrough
deriving DecidableEq, Repr

/-- `get_txn_dissemination`; `none` is a `todo!()`. -/
def getTxnDissemination (enabled : Bool) (pattern : DissemPattern) : Option TxnDissemination :=
  if !enabled then some .passthrough
  else
    match pattern with
    | .broadcast => some .broadcast
    | .gossip => some .gossip
    | .sample _ => none
    | .passthrough => some .passthrough
    | .linear _ => none

/-- A message `NewTxn` on its way. -/
structure Packet (τ : Type) where
  src : NodeId
  dest : NodeId
  txnBatch : List τ
deriving DecidableEq, Repr

variable {τ : Type}

/-- `PeerMessenger::broadcast` of the node `me`. -/
def broadcast (net : Topology) (me : NodeId) (txnBatch : List τ) : Multiset (Packet τ) :=
  (net.nodes.erase me).val.map fun dest => ⟨me, dest, txnBatch⟩

/-- `PeerMessenger::gossip` of the node `me`. -/
def gossip (net : Topology) (me : NodeId) (txnBatch : List τ) (skipping : Finset NodeId) :
    Multiset (Packet τ) :=
  (net.neighbors me \ skipping).val.map fun dest => ⟨me, dest, txnBatch⟩

/-- The transactions of a batch that came from a node. -/
def batchBySender (txnBatch : List (NodeId × τ)) (src : NodeId) : List τ :=
  (txnBatch.filter fun x => x.1 = src).map Prod.snd

namespace GossipTxnDissemination

/-- `disseminate`: gossip to all neighbors except where it comes from. -/
def disseminate (net : Topology) (me : NodeId) (txnBatch : List (NodeId × τ)) :
    Multiset (Packet τ) :=
  (txnBatch.map Prod.fst).toFinset.val.bind fun src =>
    gossip net me (batchBySender txnBatch src) {src, me}

end GossipTxnDissemination

namespace BroadcastTxnDissemination

/-- `disseminate`: only the node that receives the txn first needs to broadcast. -/
def disseminate (net : Topology) (me : NodeId) (txnBatch : List (NodeId × τ)) :
    Multiset (Packet τ) :=
  let txnToDissem := batchBySender txnBatch me
  if txnToDissem.length > 0 then broadcast net me txnToDissem else 0

end BroadcastTxnDissemination

/-- `disseminate` of the stage that was picked. -/
def TxnDissemination.disseminate (stage : TxnDissemination) (net : Topology) (me : NodeId)
    (txnBatch : List (NodeId × τ)) : Multiset (Packet τ) :=
  match stage with
  | broadcast => BroadcastTxnDissemination.disseminate net me txnBatch
  | gossip => GossipTxnDissemination.disseminate net me txnBatch
  | passthrough => 0

/-! ## To whom a transaction goes -/

/-- To whom the node `me` sends what it has from `src`. -/
def TxnDissemination.recipients (stage : TxnDissemination) (net : Topology) (me src : NodeId) :
    Finset NodeId :=
  match stage with
  | broadcast => if src = me then net.nodes.erase me else ∅
  | gossip => net.neighbors me \ {src, me}
  | passthrough => ∅

variable {stage : TxnDissemination} {net : Topology} {me src dest : NodeId} {t : τ}
  {txnBatch : List (NodeId × τ)} {p : Packet τ}

theorem not_mem_recipients_self : me ∉ stage.recipients net me src := by
  cases stage with
  | broadcast =>
    rw [TxnDissemination.recipients]
    split
    · exact Finset.notMem_erase me net.nodes
    · exact Finset.notMem_empty me
  | gossip => exact fun h => (Finset.mem_sdiff.mp h).2 (by simp)
  | passthrough => exact Finset.notMem_empty me

theorem mem_batchBySender : t ∈ batchBySender txnBatch src ↔ (src, t) ∈ txnBatch := by
  unfold batchBySender
  simp

theorem mem_gossip {txns : List τ} {skipping : Finset NodeId} :
    p ∈ gossip net me txns skipping ↔
      ∃ dest ∈ net.neighbors me \ skipping, p = ⟨me, dest, txns⟩ := by
  unfold gossip
  simp only [Multiset.mem_map, Finset.mem_val, eq_comm]

theorem mem_disseminate_gossip : p ∈ GossipTxnDissemination.disseminate net me txnBatch ↔
    ∃ src ∈ txnBatch.map Prod.fst, ∃ dest ∈ net.neighbors me \ {src, me},
      p = ⟨me, dest, batchBySender txnBatch src⟩ := by
  unfold GossipTxnDissemination.disseminate
  simp only [Multiset.mem_bind, Finset.mem_val, List.mem_toFinset, mem_gossip]

theorem mem_disseminate_broadcast : p ∈ BroadcastTxnDissemination.disseminate net me txnBatch ↔
    batchBySender txnBatch me ≠ [] ∧
      ∃ dest ∈ net.nodes.erase me, p = ⟨me, dest, batchBySender txnBatch me⟩ := by
  unfold BroadcastTxnDissemination.disseminate broadcast
  dsimp only
  split
  · rename_i hlen
    rw [and_iff_right (List.length_pos_iff.mp hlen)]
    simp only [Multiset.mem_map, Finset.mem_val, eq_comm]
  · rename_i hlen
    refine iff_of_false (Multiset.notMem_zero p) fun h => ?_
    exact hlen (List.length_pos_iff.mpr h.1)

/-- A transaction goes to its recipients. -/
theorem mem_disseminate_of_recipient (ht : (src, t) ∈ txnBatch)
    (hdest : dest ∈ stage.recipients net me src) :
    ∃ p ∈ stage.disseminate net me txnBatch, p.dest = dest ∧ t ∈ p.txnBatch := by
  cases stage with
  | broadcast =>
    rw [TxnDissemination.recipients] at hdest
    split at hdest
    · rename_i hsrc
      subst hsrc
      have hmem := mem_batchBySender.mpr ht
      have hne : batchBySender txnBatch src ≠ [] := List.ne_nil_of_mem hmem
      exact ⟨_, mem_disseminate_broadcast.mpr ⟨hne, dest, hdest, rfl⟩, rfl, hmem⟩
    · exact absurd hdest (Finset.notMem_empty dest)
  | gossip =>
    have hsrc : src ∈ txnBatch.map Prod.fst := List.mem_map_of_mem ht
    exact ⟨_, mem_disseminate_gossip.mpr ⟨src, hsrc, dest, hdest, rfl⟩, rfl,
      mem_batchBySender.mpr ht⟩
  | passthrough => exact absurd hdest (Finset.notMem_empty dest)

/-- What goes anywhere is of the batch, and goes to a recipient. -/
theorem recipient_of_mem_disseminate (hp : p ∈ stage.disseminate net me txnBatch)
    (ht : t ∈ p.txnBatch) : p.src = me ∧
      ∃ src, (src, t) ∈ txnBatch ∧ p.dest ∈ stage.recipients net me src := by
  cases stage with
  | broadcast =>
    obtain ⟨-, dest, hdest, rfl⟩ := mem_disseminate_broadcast.mp hp
    refine ⟨rfl, me, mem_batchBySender.mp ht, ?_⟩
    rwa [TxnDissemination.recipients, if_pos rfl]
  | gossip =>
    obtain ⟨src, -, dest, hdest, rfl⟩ := mem_disseminate_gossip.mp hp
    exact ⟨rfl, src, mem_batchBySender.mp ht, hdest⟩
  | passthrough => exact absurd hp (Multiset.notMem_zero p)

/-! ## How often it goes there -/

/-- The batches by sender make up the whole. -/
theorem sum_countP_batchBySender (q : τ → Bool) (srcs : Finset NodeId)
    (txnBatch : List (NodeId × τ)) : (∀ x ∈ txnBatch, x.1 ∈ srcs) →
      ∑ src ∈ srcs, (batchBySender txnBatch src).countP q = (txnBatch.map Prod.snd).countP q := by
  induction txnBatch with
  | nil => exact fun _ => Finset.sum_const_zero
  | cons x txnBatch ih =>
    intro hsrcs
    have hsplit : ∀ src, (batchBySender (x :: txnBatch) src).countP q =
        (batchBySender txnBatch src).countP q + if x.1 = src then [x.2].countP q else 0 := by
      intro src
      unfold batchBySender
      rw [List.filter_cons]
      by_cases hx : x.1 = src
      · simp [hx, List.countP_cons]
      · simp [hx]
    rw [Finset.sum_congr rfl fun src _ => hsplit src, Finset.sum_add_distrib,
      ih fun y hy => hsrcs y (List.mem_cons_of_mem _ hy), Finset.sum_ite_eq,
      if_pos (hsrcs x (List.mem_cons_self ..)), List.map_cons, Nat.add_comm]
    exact List.countP_append.symm

/-- The nodes that the transactions of a batch came from. -/
def senders (txnBatch : List (NodeId × τ)) : Finset NodeId := (txnBatch.map Prod.fst).toFinset

theorem mem_senders {x : NodeId × τ} (h : x ∈ txnBatch) : x.1 ∈ senders txnBatch :=
  List.mem_toFinset.mpr (List.mem_map_of_mem h)

theorem sum_length_batchBySender (txnBatch : List (NodeId × τ)) :
    ∑ src ∈ senders txnBatch, (batchBySender txnBatch src).length = txnBatch.length := by
  have hall := sum_countP_batchBySender (fun _ => true) (senders txnBatch) txnBatch
    fun x hx => mem_senders hx
  simpa only [List.countP_true, List.length_map] using hall

section Copies

variable [DecidableEq τ]

/-- How many copies of a transaction the messages bring to a node. -/
def copies (dest : NodeId) (t : τ) (out : Multiset (Packet τ)) : Nat :=
  (out.map fun p => if p.dest = dest then p.txnBatch.count t else 0).sum

theorem copies_multicast (dests : Finset NodeId) (txns : List τ) :
    copies dest t (dests.val.map fun dest => ⟨me, dest, txns⟩) =
      if dest ∈ dests then txns.count t else 0 := by
  unfold copies
  rw [Multiset.map_map]
  exact Finset.sum_ite_eq' dests dest fun _ => txns.count t

theorem copies_bind (srcs : Finset NodeId) (out : NodeId → Multiset (Packet τ)) :
    copies dest t (srcs.val.bind out) = ∑ src ∈ srcs, copies dest t (out src) := by
  unfold copies
  rw [Multiset.map_bind, Multiset.sum_bind]
  rfl

/-- No node is sent more copies of a transaction than the batch holds. -/
theorem copies_disseminate_le (stage : TxnDissemination) (net : Topology) (me dest : NodeId) (t : τ)
    (txnBatch : List (NodeId × τ)) :
    copies dest t (stage.disseminate net me txnBatch) ≤ (txnBatch.map Prod.snd).count t := by
  have hall : ∑ src ∈ senders txnBatch, (batchBySender txnBatch src).count t =
      (txnBatch.map Prod.snd).count t := sum_countP_batchBySender _ _ _ fun x hx => mem_senders hx
  cases stage with
  | broadcast =>
    show copies dest t (BroadcastTxnDissemination.disseminate net me txnBatch) ≤ _
    unfold BroadcastTxnDissemination.disseminate broadcast
    dsimp only
    split
    · rename_i hlen
      obtain ⟨t', ht'⟩ := List.exists_mem_of_length_pos hlen
      have hme : me ∈ senders txnBatch := mem_senders (mem_batchBySender.mp ht')
      rw [copies_multicast, ← hall]
      have hone := Finset.single_le_sum (f := fun src => (batchBySender txnBatch src).count t)
        (fun _ _ => Nat.zero_le _) hme
      split
      · exact hone
      · exact Nat.zero_le _
    · exact Nat.zero_le _
  | gossip =>
    show copies dest t (GossipTxnDissemination.disseminate net me txnBatch) ≤ _
    unfold GossipTxnDissemination.disseminate gossip
    rw [copies_bind, ← hall]
    refine Finset.sum_le_sum fun src _ => ?_
    rw [copies_multicast]
    split
    · exact le_rfl
    · exact Nat.zero_le _
  | passthrough => exact Nat.zero_le _

end Copies

end Copycat.Gossip
