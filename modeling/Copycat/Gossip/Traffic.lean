import Copycat.Gossip.Rest

/-!
# Once over each pipe

A node gossips what it has validated to all its neighbors but the one it has it
from, whoever else may have it. So a transaction may be on the way over a pipe in
both directions at once, but never twice in the same, and only when the node has
admitted it (`gossiped_once`).
-/

namespace Copycat.Gossip

open Copycat.Lib
open Bitcoin (Topology)

variable {τ : Type} {stage : TxnStage τ}

/-- Only disseminating disseminates. -/
theorem peerStep_disseminated {p p' : Peer τ} (h : PeerStep stage p p') :
    p'.dissem.disseminated = p.dissem.disseminated := by
  cases h with
  | _ => rfl

variable [DecidableEq τ] {pattern : TxnDissemination} {net : Topology} {tr : List (Label τ)}
  {s : Net τ}

/-- The copies of a transaction that `n` sends to `m` in a step. -/
def Label.copies (n m : NodeId) (t : τ) : Label τ → Nat
  | .disseminate k out => if k = n then Gossip.copies m t out else 0
  | _ => 0

/-- The copies of a transaction that `n` has sent to `m`. -/
def copiesSent (n m : NodeId) (t : τ) (tr : List (Label τ)) : Nat :=
  (tr.map (Label.copies n m t)).sum

theorem copiesSent_snoc (n m : NodeId) (t : τ) (tr : List (Label τ)) (l : Label τ) :
    copiesSent n m t (tr ++ [l]) = copiesSent n m t tr + l.copies n m t := by
  unfold copiesSent
  rw [List.map_append, List.sum_append, List.map_singleton, List.sum_singleton]

/-- What nobody else sees sends nothing. -/
theorem copiesSent_visible (n m : NodeId) (t : τ) (tr : List (Label τ)) :
    copiesSent n m t (tr.filter Label.visible) = copiesSent n m t tr := by
  induction tr with
  | nil => rfl
  | cons l tr ih =>
    have hcons : copiesSent n m t (l :: tr) = l.copies n m t + copiesSent n m t tr := rfl
    rw [hcons, ← ih]
    cases l with
    | work => exact (Nat.zero_add _).symm
    | request => rfl
    | deliver => rfl
    | disseminate => rfl

/-- Who counts a copy finds the message that brings it. -/
theorem copies_pos {dest : NodeId} {t : τ} {out : Multiset (Packet τ)} (h : 0 < copies dest t out) :
    ∃ p ∈ out, p.dest = dest ∧ t ∈ p.txnBatch := by
  by_contra hnone
  refine absurd (Multiset.sum_eq_zero fun x hx => ?_) (Nat.ne_of_gt h)
  obtain ⟨p, hp, rfl⟩ := Multiset.mem_map.mp hx
  by_cases hdest : p.dest = dest
  · rw [if_pos hdest]
    exact List.count_eq_zero.mpr fun ht => hnone ⟨p, hp, hdest, ht⟩
  · rw [if_neg hdest]

/-- How often the node has disseminated the transaction. -/
def timesSent (s : Net τ) (n : NodeId) (t : τ) : Nat :=
  ((s.peers n).dissem.disseminated.flatten.map Prod.snd).count t

/-- What has gone out, counted and by itself. -/
structure Accounted (pattern : TxnDissemination) (net : Topology) (tr : List (Label τ))
    (s : Net τ) : Prop where
  count : ∀ n m t, copiesSent n m t tr ≤ timesSent s n t
  sent : ∀ n m t, 0 < copiesSent n m t tr → Sent pattern net s n m t

/-- A step that disseminates nothing. -/
theorem Accounted.silent (h : Accounted pattern net tr s) {l : Label τ} {n : NodeId} {p : Peer τ}
    {flight : Multiset (Packet τ)} (hl : ∀ k m t, l.copies k m t = 0)
    (hp : p.dissem.disseminated = (s.peers n).dissem.disseminated) :
    Accounted pattern net (tr ++ [l]) (s.set n p flight) := by
  have hsame : ∀ k t, timesSent (s.set n p flight) k t = timesSent s k t := by
    intro k t
    unfold timesSent
    by_cases hk : k = n
    · rw [hk, Net.set_self, hp]
    · rw [Net.set_ne _ p flight hk]
  refine ⟨fun k m t => ?_, fun k m t hpos => ?_⟩
  · rw [copiesSent_snoc, hl, hsame]
    exact h.count k m t
  · rw [copiesSent_snoc, hl] at hpos
    exact (sent_set hp).mpr (h.sent k m t hpos)

/-- A batch that is disseminated makes one copy for each recipient, and is entered. -/
theorem Accounted.disseminate (h : Accounted pattern net tr s) {n : NodeId}
    {out : Multiset (Packet τ)} (hout : out = pattern.disseminate net n (s.peers n).sendBatch)
    (flight : Multiset (Packet τ)) :
    Accounted pattern net (tr ++ [.disseminate n out]) (s.set n (s.peers n).forward flight) := by
  have hgrows : Grows s (s.set n (s.peers n).forward flight) :=
    grows_set (List.prefix_append ..)
  have hself : ∀ t, timesSent (s.set n (s.peers n).forward flight) n t =
      timesSent s n t + ((s.peers n).sendBatch.map Prod.snd).count t := by
    intro t
    unfold timesSent
    rw [Net.set_self, Peer.forward_flatten, List.map_append, List.count_append]
  have hother : ∀ k t, k ≠ n →
      timesSent (s.set n (s.peers n).forward flight) k t = timesSent s k t := by
    intro k t hk
    unfold timesSent
    rw [Net.set_ne _ _ flight hk]
  refine ⟨fun k m t => ?_, fun k m t hpos => ?_⟩
  · have hk := h.count k m t
    rw [copiesSent_snoc]
    by_cases hkn : n = k
    · rcases hkn with rfl
      have hle := copies_disseminate_le pattern net n m t (s.peers n).sendBatch
      rw [hself, Label.copies, if_pos rfl, hout]
      omega
    · rw [hother k t fun he => hkn he.symm, Label.copies, if_neg hkn]
      exact hk
  · rw [copiesSent_snoc] at hpos
    by_cases hold : 0 < copiesSent k m t tr
    · exact (h.sent k m t hold).mono hgrows
    · have hnew : 0 < (if n = k then copies m t out else 0) := by
        have hlabel : (Label.disseminate n out).copies k m t =
          if n = k then copies m t out else 0 := rfl
        omega
      by_cases hkn : n = k
      · rcases hkn with rfl
        rw [if_pos rfl] at hnew
        obtain ⟨p, hp, rfl, ht⟩ := copies_pos hnew
        obtain ⟨-, src, hsrc, hdest⟩ := recipient_of_mem_disseminate (hout ▸ hp) ht
        refine ⟨src, ?_, hdest⟩
        rw [Net.set_self, Peer.forward_flatten]
        exact List.mem_append_right _ hsrc
      · rw [if_neg hkn] at hnew
        exact absurd hnew (Nat.lt_irrefl 0)

/-- In every run the copies are accounted for. -/
theorem run_accounted (h : (network stage pattern net).Run (fun _ => ByClients stage net) tr s) :
    Accounted pattern net tr s := by
  refine h.invariant_trace (Accounted pattern net)
    ⟨fun n m t => Nat.zero_le _, fun n m t h => absurd h (Nat.lt_irrefl 0)⟩ ?_
  intro tr s l s' ih _ hstep
  cases hstep with
  | request n txn _ => exact ih.silent (fun _ _ _ => rfl) (Peer.arrive_disseminated ..)
  | deliver p rest _ => exact ih.silent (fun _ _ _ => rfl) (Peer.arrive_disseminated ..)
  | work n p hp => exact ih.silent (fun _ _ _ => rfl) (peerStep_disseminated hp)
  | disseminate n out _ _ hout => exact ih.disseminate hout _

/-- **Once over each pipe**: in every run and for every transaction, a node has
sent it to another at most once, and then it has a valid signature, they are next
to each other and the sender has admitted it. -/
theorem gossiped_once (pattern : TxnDissemination) (net : Topology) {tr : List (Label τ)}
    {s : Net τ} (h : (network stage pattern net).Run (fun _ => ByClients stage net) tr s)
    (n m : NodeId) (t : τ) :
    copiesSent n m t tr ≤ 1 ∧ (copiesSent n m t tr = 1 → Next pattern net n m ∧
      stage.validate t = .ok (some true) ∧ t ∈ (admissions stage s n).admitted) := by
  have hacc := run_accounted h
  have hinv := run_netInv h
  obtain ⟨D, hD⟩ := hinv.peers n
  refine ⟨(hacc.count n m t).trans ?_, fun hone => ?_⟩
  · have honce := hD.stage.once
    unfold Peer.returned at honce
    rw [List.append_assoc, List.map_append] at honce
    exact List.nodup_iff_count_le_one.mp (List.nodup_append.mp honce).1 t
  · obtain ⟨src, hsrc, hm⟩ := hacc.sent n m t (by omega)
    have hadmitted := hD.admitted_of_disseminated hsrc
    obtain ⟨-, ⟨k, hk, hreach, -⟩, -⟩ := hinv.known_of_disseminated hsrc
    exact ⟨next_of_mem_recipients (mem_nodes_of_reach hreach hk) hm,
      hD.delivered t (hD.admitted_delivered hadmitted), hadmitted⟩

open Bitcoin (demo demoGrant demoPay dummyVerify)

/-- The grant goes over the pipe in one direction, and the payment in the other. -/
theorem gossiped_once_demo : ∃ tr s, tr.filter Label.visible = demoActs ∧
    copiesSent 0 1 demoGrant tr = 1 ∧ copiesSent 1 0 demoPay tr = 1 ∧
    Next .gossip demoCluster.net 0 1 ∧ Next .gossip demoCluster.net 1 0 ∧
    demoGrant ∈ (admissions (bitcoinStage demo.ids dummyVerify) s 0).admitted ∧
    demoPay ∈ (admissions (bitcoinStage demo.ids dummyVerify) s 1).admitted := by
  obtain ⟨s, -, ⟨tr, hacts, hrun⟩, -⟩ := demo_run
  have hgrant : copiesSent 0 1 demoGrant tr = 1 := by
    rw [← copiesSent_visible, hacts]
    decide
  have hpay : copiesSent 1 0 demoPay tr = 1 := by
    rw [← copiesSent_visible, hacts]
    decide
  obtain ⟨hnext, -, hadmitted⟩ :=
    (gossiped_once .gossip demoCluster.net hrun 0 1 demoGrant).2 hgrant
  obtain ⟨hnext', -, hadmitted'⟩ :=
    (gossiped_once .gossip demoCluster.net hrun 1 0 demoPay).2 hpay
  exact ⟨tr, s, hacts, hgrant, hpay, hnext, hnext', hadmitted, hadmitted'⟩

end Copycat.Gossip
