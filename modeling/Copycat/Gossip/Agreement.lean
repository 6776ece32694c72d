import Copycat.Gossip.Network
import Copycat.Hiding

/-!
# What the nodes agree on

When nothing is on the way any more, the transaction sides of the nodes share
their admissions in the sense of `Copycat.Lib.Sharing`: a node has been given
what clients submitted to it, and what any neighbor has admitted. So what a
node has handed to block management is what is admissible of all that was
submitted at the nodes it is connected to, once each (`mempools_agree`), be the
pattern gossip, broadcast or passthrough.
-/

namespace Copycat.Gossip

open Copycat.Lib
open Bitcoin (Topology)
open Relation (ReflTransGen)

variable {τ : Type} {stage : TxnStage τ} {pattern : TxnDissemination} {net : Topology}
  {tr : List (Label τ)} {s : Net τ}

/-! ## A quiet node -/

section Quiet

variable {F : NodeId → τ → Prop} {D : Set τ} {p : Peer τ}

/-- A quiet node has disseminated all it has validated. -/
theorem Peer.Quiet.returned_eq (h : p.Quiet) :
    p.returned = p.dissem.disseminated.flatten := by
  unfold Peer.returned
  rw [h.batch, h.validatedTxn, List.append_nil, List.flatten_nil, List.append_nil]

/-- What is valid and has arrived, `validate` has been given. -/
theorem PeerInv.delivered_of_quiet (h : PeerInv stage F D p) (hquiet : p.Quiet) {t : τ}
    (hvalid : stage.validate t = .ok (some true)) (ht : p.Holds stage t) : t ∈ D := by
  rcases ht with ht | ⟨task, htask, -⟩ | ht
  · rw [hquiet.txnBuffer] at ht
    exact absurd ht List.not_mem_nil
  · rw [hquiet.tasks] at htask
    exact absurd htask (Multiset.notMem_zero task)
  · obtain ⟨v, hv⟩ := Option.isSome_iff_exists.mp ht
    obtain rfl : v = true :=
      Option.some.inj (Except.ok.inj ((h.coherent t v hv).symm.trans hvalid))
    rcases h.entered t hv with (⟨task, htask, -⟩ | hpending) | hD
    · rw [hquiet.tasks] at htask
      exact absurd htask (Multiset.notMem_zero task)
    · rw [hquiet.pendingTxns] at hpending
      exact absurd hpending List.not_mem_nil
    · exact hD

/-- Only what was delivered is admitted. -/
theorem PeerInv.admitted_delivered (h : PeerInv stage F D p) {t : τ}
    (ht : t ∈ (p.validator.admission stage.toTxnKind).admitted) : t ∈ D :=
  (h.stage.law.sound t ht).delivered

/-- Only what was admitted is disseminated. -/
theorem PeerInv.admitted_of_disseminated (h : PeerInv stage F D p) {src : NodeId} {t : τ}
    (ht : (src, t) ∈ p.dissem.disseminated.flatten) :
    t ∈ (p.validator.admission stage.toTxnKind).admitted := by
  rw [h.stage.admitted]
  exact List.mem_map_of_mem (List.mem_append_left _ (List.mem_append_left _ ht))

end Quiet

/-! ## A quiet network -/

/-- What the node has validated. -/
def admissions (stage : TxnStage τ) (s : Net τ) (n : NodeId) : Admission Hash τ :=
  (s.peers n).validator.admission stage.toTxnKind

/-- A transaction that was sent has got there. -/
theorem NetInv.delivered_of_sent (h : NetInv stage pattern net tr s) (hquiet : s.Quiet)
    {n m : NodeId} {D : Set τ} {F : NodeId → τ → Prop} (hD : PeerInv stage F D (s.peers m)) {t : τ}
    (hvalid : stage.validate t = .ok (some true)) (ht : Sent pattern net s n m t) : t ∈ D := by
  rcases h.sent n m t ht hvalid with hm | ⟨p, hp, -⟩
  · exact hD.delivered_of_quiet (hquiet.peers m) hvalid hm
  · rw [hquiet.flight] at hp
    exact absurd hp (Multiset.notMem_zero p)

/-- What a node has admitted, the nodes next to it have been given: from it, or
from the node that it has it from, or because they are the ones it has it
from. -/
theorem NetInv.passed (h : NetInv stage pattern net tr s) (hquiet : s.Quiet)
    {D : NodeId → Set τ}
    (hD : ∀ n, PeerInv stage (Known stage pattern net tr s n) (D n) (s.peers n)) {n m : NodeId}
    (hnext : Next pattern net n m) {t : τ} (ht : t ∈ (admissions stage s n).admitted) :
    t ∈ D m := by
  have hvalid : stage.validate t = .ok (some true) :=
    (hD n).delivered t ((hD n).admitted_delivered ht)
  have hself : ∀ k, (∃ src, (src, t) ∈ (s.peers k).dissem.disseminated.flatten) → t ∈ D k := by
    intro k hk
    obtain ⟨src, hsrc⟩ := hk
    exact (hD k).admitted_delivered ((hD k).admitted_of_disseminated hsrc)
  have hsent : ∀ k src, (src, t) ∈ (s.peers k).dissem.disseminated.flatten →
      m ∈ pattern.recipients net k src → t ∈ D m :=
    fun k src hsrc hm => h.delivered_of_sent hquiet (hD m) hvalid ⟨src, hsrc, hm⟩
  obtain ⟨⟨src, t'⟩, hsrc, rfl⟩ := List.mem_map.mp (((hD n).stage.admitted t).mp ht)
  rw [(hquiet.peers n).returned_eq] at hsrc
  by_cases hm : m = n
  · exact hself m ⟨src, hm ▸ hsrc⟩
  have hfrom := (h.known_of_disseminated hsrc).2.2
  cases pattern with
  | gossip =>
    by_cases hms : m = src
    · rcases hfrom with he | ⟨src', hsrc', -⟩
      · exact absurd (hms.trans he) hm
      · exact hself m ⟨src', hms ▸ hsrc'⟩
    · exact hsent n src hsrc (Finset.mem_sdiff.mpr ⟨hnext, by simp [hm, hms]⟩)
  | broadcast =>
    have hall : ∀ k, m ≠ k → m ∈ TxnDissemination.broadcast.recipients net k k := by
      intro k hk
      rw [TxnDissemination.recipients, if_pos rfl]
      exact Finset.mem_erase.mpr ⟨hk, hnext.2⟩
    rcases hfrom with rfl | ⟨src', hsrc', hn⟩
    · exact hsent src src hsrc (hall src hm)
    · -- the source has broadcast it, since only the first node does
      rw [TxnDissemination.recipients] at hn
      split at hn
      · rename_i he
        subst he
        by_cases hms : m = src'
        · exact hself m ⟨src', hms ▸ hsrc'⟩
        · exact hsent src' src' hsrc' (hall src' hms)
      · exact absurd hn (Finset.notMem_empty n)
  | passthrough => exact hnext.elim

/-- A quiet network shares as the generic procedure asks for. -/
theorem NetInv.shares (h : NetInv stage pattern net tr s) (hquiet : s.Quiet) :
    ∃ D : NodeId → Set τ, Admission.Shares stage.items (Next pattern net) (submitted stage tr) D
      (admissions stage s) := by
  choose D hD using h.peers
  refine ⟨D, ⟨fun n => (hD n).stage.law, fun n t ht => ?_, fun n m hnext t ht => ?_,
    fun n t ht => ?_⟩⟩
  · exact (hD n).delivered_of_quiet (hquiet.peers n) ht.2 (h.arrived n t ht)
  · exact h.passed hquiet hD hnext ht
  · obtain ⟨⟨src, t'⟩, hsrc, rfl⟩ := List.mem_map.mp (((hD n).stage.admitted t).mp ht)
    obtain ⟨-, ⟨m, -, hreach, hreq⟩, -⟩ := (hD n).stage.source.out _ hsrc
    exact ⟨m, hreach, hreq, (hD n).delivered _ ((hD n).admitted_delivered ht)⟩

/-- What a quiet node has handed over is what it has admitted, once each. -/
theorem NetInv.mempool_eq (h : NetInv stage pattern net tr s) (hquiet : s.Quiet) (n : NodeId) :
    (s.mempool n).Nodup ∧ ∀ t, t ∈ s.mempool n ↔ t ∈ (admissions stage s n).admitted := by
  obtain ⟨D, hD⟩ := h.peers n
  have hmempool : s.mempool n = (s.peers n).returned.map Prod.snd := by
    rw [(hquiet.peers n).returned_eq]
    exact hD.ready
  rw [hmempool]
  exact ⟨hD.stage.once, fun t => (hD.stage.admitted t).symm⟩

/-- Pipes and dissemination go both ways. -/
theorem Cluster.next_symm (c : Cluster) (pattern : TxnDissemination) (n m : NodeId)
    (h : Next pattern c.net n m) : Next pattern c.net m n := by
  cases pattern with
  | broadcast => exact ⟨h.2, h.1⟩
  | gossip => exact c.neighbors_symm h
  | passthrough => exact h

/-- Every node has handed on, once each, what is admissible of all that was
submitted at nodes it is connected to. -/
def Agree (stage : TxnStage τ) (pattern : TxnDissemination) (net : Topology) (tr : List (Label τ))
    (s : Net τ) : Prop :=
  ∀ n, (s.mempool n).Nodup ∧ ∀ t, t ∈ s.mempool n ↔
    Admission.Admissible stage.items (reaching (Next pattern net) (submitted stage tr) n) t

/-- So at rest the mempools agree. -/
theorem NetInv.agree (c : Cluster) {pattern : TxnDissemination}
    (hinv : NetInv stage pattern c.net tr s) (hquiet : s.Quiet) :
    Agree stage pattern c.net tr s := by
  intro n
  obtain ⟨D, hshares⟩ := hinv.shares hquiet
  obtain ⟨hnodup, hmem⟩ := hinv.mempool_eq hquiet n
  exact ⟨hnodup, fun t => (hmem t).trans (hshares.admitted_iff (c.next_symm pattern) n t)⟩

/-- **Mempools agree** when nothing is on the way. -/
theorem mempools_agree (c : Cluster) (pattern : TxnDissemination)
    (h : (network stage pattern c.net).Run (fun _ => ByClients stage c.net) tr s)
    (hquiet : s.Quiet) : Agree stage pattern c.net tr s :=
  (run_netInv h).agree c hquiet

/-! ## A payment and its grant between two nodes -/

/-- Whether anybody else sees the step. -/
def Label.visible : Label τ → Bool
  | .work _ => false
  | _ => true

/-- A state that a run leads to, with what there is to be seen of the run. -/
def After (stage : TxnStage τ) (pattern : TxnDissemination) (net : Topology)
    (acts : List (Label τ)) (s : Net τ) : Prop :=
  ∃ tr, tr.filter Label.visible = acts ∧
    (network stage pattern net).Run (fun _ => ByClients stage net) tr s

theorem After.new : After stage pattern net [] Net.new :=
  ⟨[], rfl, .nil⟩

theorem After.step {acts : List (Label τ)} {l : Label τ} {s s' : Net τ}
    (h : After stage pattern net acts s) (hclient : ByClients stage net l)
    (hstep : Step stage pattern net s l s') :
    After stage pattern net (acts ++ [l].filter Label.visible) s' := by
  obtain ⟨tr, rfl, hrun⟩ := h
  exact ⟨tr ++ [l], List.filter_append .., hrun.snoc hclient hstep⟩

/-- A node goes on for as long as it likes. -/
theorem After.work {acts : List (Label τ)} {s : Net τ} (hafter : After stage pattern net acts s)
    {n : NodeId} {p : Peer τ} (h : ReflTransGen (PeerStep stage) (s.peers n) p) :
    After stage pattern net acts (s.set n p s.flight) := by
  induction h with
  | refl =>
    have hsame : s.set n (s.peers n) s.flight = s := by
      unfold Net.set
      rw [Function.update_eq_self]
    rwa [hsame]
  | @tail p p' _ hstep ih =>
    have hwork : Step stage pattern net (s.set n p s.flight) (.work n)
        ((s.set n p s.flight).set n p' s.flight) :=
      .work n p' ((s.set_self n p s.flight).symm ▸ hstep)
    rw [Net.set_set] at hwork
    have hclient : ByClients stage net (.work n) := trivial
    exact List.append_nil acts ▸ ih.step hclient hwork

theorem peerStep_turn {p : Peer τ} {task task' : Task τ} {seen : SeenMap}
    (htasks : p.tasks = {task}) (htodo : task.todo ≠ [])
    (hturn : runTask stage p.txnsSeen task = (seen, {task'})) :
    PeerStep stage p { p with txnsSeen := seen, tasks := {task'} } := by
  have hstep := @PeerStep.check _ stage p task 0 htasks htodo
  rw [hturn, add_zero] at hstep
  exact hstep

/-- The node when a transaction has been validated, with what has come of it. -/
def Peer.took (stage : TxnStage τ) (p : Peer τ) (t : τ) (r : Validator τ × List (NodeId × τ)) :
    Peer τ :=
  { p with
    txnsSeen := Function.update p.txnsSeen (stage.txnId t) (some true)
    validator := r.1
    dissem := p.dissem.newTxn r.2 }

/-- A node with nothing else to do takes in a new transaction. -/
theorem takes_in {p : Peer τ} (hquiet : p.Quiet) {src : NodeId} {t : τ} {fuel : Nat}
    {r : Validator τ × List (NodeId × τ)} (hnew : p.txnsSeen (stage.txnId t) = none)
    (hvalid : stage.validate t = .ok (some true))
    (hr : stage.validateBatch (.inserted τ) fuel p.validator [(src, t)] = .ok r) :
    ReflTransGen (PeerStep stage) (p.arrive [(src, t)]) (p.took stage t r) := by
  obtain ⟨txnBuffer, tasks, pendingTxns, seen, validator, validatedTxn, dissem⟩ := p
  obtain ⟨hbuffer, htasks, hpending, hvalidated, -⟩ := hquiet
  dsimp only at hbuffer htasks hpending hvalidated hnew hr
  subst hbuffer htasks hpending hvalidated
  obtain ⟨seen', hseen'⟩ : ∃ seen' : SeenMap,
      seen' = Function.update seen (stage.txnId t) (some true) := ⟨_, rfl⟩
  have hdrain : PeerStep stage ⟨[(src, t)], 0, [], seen, validator, [], dissem⟩
      ⟨[], {⟨[(src, t)], false, []⟩}, [], seen, validator, [], dissem⟩ :=
    .drain (List.cons_ne_nil _ _)
  have hlook : PeerStep stage ⟨[], {⟨[(src, t)], false, []⟩}, [], seen, validator, [], dissem⟩
      ⟨[], {⟨[(src, t)], true, []⟩}, [], seen, validator, [], dissem⟩ := by
    refine peerStep_turn rfl (List.cons_ne_nil _ _) ?_
    simp [runTask, hnew]
  have henter : PeerStep stage ⟨[], {⟨[(src, t)], true, []⟩}, [], seen, validator, [], dissem⟩
      ⟨[], {⟨[], false, [(src, t)]⟩}, [], seen', validator, [], dissem⟩ := by
    refine peerStep_turn rfl (List.cons_ne_nil _ _) ?_
    unfold runTask
    dsimp only
    rw [Bool.not_true, if_neg Bool.false_ne_true, hvalid, hseen']
    rfl
  have hsend : PeerStep stage
      ⟨[], {⟨[], false, [(src, t)]⟩}, [], seen', validator, [], dissem⟩
      ⟨[], 0, [[(src, t)]], seen', validator, [], dissem⟩ :=
    @PeerStep.send _ stage _ ⟨[], false, [(src, t)]⟩ 0 rfl rfl
  have hvalidate : PeerStep stage ⟨[], 0, [[(src, t)]], seen', validator, [], dissem⟩
      ⟨[], 0, [], seen', r.1, [r.2], dissem⟩ :=
    @PeerStep.validate _ stage ⟨[], 0, [[(src, t)]], seen', validator, [], dissem⟩ _ [] _ _ _ rfl hr
  have hreceive : PeerStep stage ⟨[], 0, [], seen', r.1, [r.2], dissem⟩
      ⟨[], 0, [], seen', r.1, [], dissem.newTxn r.2⟩ :=
    @PeerStep.receive _ stage ⟨[], 0, [], seen', r.1, [r.2], dissem⟩ _ [] rfl
  have hgone := ((((ReflTransGen.single hdrain).tail hlook).tail henter).tail hsend).tail hvalidate
  rw [hseen'] at hgone hreceive
  exact hgone.tail hreceive

section Through

variable {acts : List (Label τ)} {s : Net τ} {n src : NodeId} {t : τ} {fuel : Nat} {p : Peer τ}
  {r : Validator τ × List (NodeId × τ)}

/-- The other transactions are as new as before. -/
theorem Peer.took_new {t' : τ} (hne : stage.txnId t' ≠ stage.txnId t)
    (hnew : p.txnsSeen (stage.txnId t') = none) :
    (p.took stage t r).txnsSeen (stage.txnId t') = none := by
  show Function.update p.txnsSeen (stage.txnId t) (some true) (stage.txnId t') = none
  rw [Function.update_of_ne hne, hnew]

/-- If nothing comes of it, the node is done. -/
theorem Peer.Quiet.took (hquiet : p.Quiet) (hr : r.2 = []) : (p.took stage t r).Quiet where
  txnBuffer := hquiet.txnBuffer
  tasks := hquiet.tasks
  pendingTxns := hquiet.pendingTxns
  validatedTxn := hquiet.validatedTxn
  batch := by
    show p.dissem.batch ++ r.2 = []
    rw [hquiet.batch, hr]
    rfl

theorem Peer.Quiet.sendBatch (hquiet : p.Quiet) (hle : r.2.length ≤ dissemBatchSize) :
    (p.took stage t r).sendBatch = r.2 := by
  have hbatch : (p.took stage t r).dissem.batch = r.2 := by
    show p.dissem.batch ++ r.2 = r.2
    rw [hquiet.batch, List.nil_append]
  rw [Peer.sendBatch, hbatch, Nat.min_eq_right hle, List.take_length]

/-- Otherwise it is done when that has been disseminated. -/
theorem Peer.Quiet.forward (hquiet : p.Quiet) (hle : r.2.length ≤ dissemBatchSize) :
    (p.took stage t r).forward.Quiet where
  txnBuffer := hquiet.txnBuffer
  tasks := hquiet.tasks
  pendingTxns := hquiet.pendingTxns
  validatedTxn := hquiet.validatedTxn
  batch := by
    show (p.took stage t r).dissem.batch.drop _ = []
    have hbatch : (p.took stage t r).dissem.batch = r.2 := by
      show p.dissem.batch ++ r.2 = r.2
      rw [hquiet.batch, List.nil_append]
    rw [hbatch, Nat.min_eq_right hle, List.drop_length]

/-- A transaction comes in, and what comes of it goes out. -/
theorem After.through (hafter : After stage pattern net acts s) (hquiet : p.Quiet)
    (hnew : p.txnsSeen (stage.txnId t) = none) (hvalid : stage.validate t = .ok (some true))
    (hr : stage.validateBatch (.inserted τ) fuel p.validator [(src, t)] = .ok r)
    (hle : r.2.length ≤ dissemBatchSize) (hne : r.2 ≠ [])
    (hn : s.peers n = p.arrive [(src, t)]) :
    After stage pattern net (acts ++ [.disseminate n (pattern.disseminate net n r.2)])
      (s.set n (p.took stage t r).forward (pattern.disseminate net n r.2 + s.flight)) := by
  have hworked := hafter.work (hn ▸ takes_in hquiet hnew hvalid hr)
  have hself := s.set_self n (p.took stage t r) s.flight
  have hbatch : (p.took stage t r).sendBatch = r.2 := hquiet.sendBatch hle
  have hstep : Step stage pattern net (s.set n (p.took stage t r) s.flight)
      (.disseminate n (pattern.disseminate net n r.2))
      ((s.set n (p.took stage t r) s.flight).set n
        ((s.set n (p.took stage t r) s.flight).peers n).forward
        (pattern.disseminate net n r.2 + s.flight)) := by
    refine .disseminate n _ ?_ ?_ ?_
    · rw [hself]
      rfl
    · rw [hself]
      exact List.append_ne_nil_of_right_ne_nil _ hne
    · rw [hself, hbatch]
  have hset : (s.set n (p.took stage t r) s.flight).set n
      ((s.set n (p.took stage t r) s.flight).peers n).forward
      (pattern.disseminate net n r.2 + s.flight) =
        s.set n (p.took stage t r).forward (pattern.disseminate net n r.2 + s.flight) := by
    rw [hself, Net.set_set]
  rw [← hset]
  have hclient : ByClients stage net (.disseminate n (pattern.disseminate net n r.2)) := trivial
  exact hworked.step hclient hstep

end Through

open Bitcoin (demo demoGrant demoPay dummyVerify)

/-- Two nodes with a pipe between them, on two machines. -/
def demoCluster : Cluster where
  nodes := {0, 1}
  localNodes n := if n = 0 then [0] else if n = 1 then [1] else []
  hosted n := by
    by_cases h₀ : n = 0
    · simp [h₀]
    · by_cases h₁ : n = 1
      · simp [h₁]
      · simp [h₀, h₁]
  topology := .file [(0, 1)]
  inside pipes hpipes pipe hpipe := by
    obtain rfl := TopologyArg.file.inj hpipes
    rw [List.mem_singleton.mp hpipe]
    decide

/-- A payment is submitted at the second node, which cannot validate it yet, and its
grant at the first. The grant gets to the second node, and the payment to the first. -/
def demoActs : List (Label BitcoinTxn) :=
  [.request 1 demoPay, .request 0 demoGrant, .disseminate 0 {⟨0, 1, [demoGrant]⟩},
    .deliver ⟨0, 1, [demoGrant]⟩, .disseminate 1 {⟨1, 0, [demoPay]⟩}, .deliver ⟨1, 0, [demoPay]⟩,
    .disseminate 0 0]

/-- What the stages of the two nodes return. -/
theorem stages_demo : ∃ v v' w w',
    (bitcoinStage demo.ids dummyVerify).validateBatch (.inserted _) 5 .new [(0, demoGrant)] =
      .ok (v, [(0, demoGrant)]) ∧
    (bitcoinStage demo.ids dummyVerify).validateBatch (.inserted _) 5 v [(1, demoPay)] =
      .ok (v', [(1, demoPay)]) ∧
    (bitcoinStage demo.ids dummyVerify).validateBatch (.inserted _) 5 .new [(1, demoPay)] =
      .ok (w, []) ∧
    (bitcoinStage demo.ids dummyVerify).validateBatch (.inserted _) 5 w [(0, demoGrant)] =
      .ok (w', [(0, demoGrant), (1, demoPay)]) := by
  have hstages : returns (do
      let stage := bitcoinStage demo.ids dummyVerify
      let v ← stage.validateBatch (.inserted _) 5 .new [(0, demoGrant)]
      let v' ← stage.validateBatch (.inserted _) 5 v.1 [(1, demoPay)]
      let w ← stage.validateBatch (.inserted _) 5 .new [(1, demoPay)]
      let w' ← stage.validateBatch (.inserted _) 5 w.1 [(0, demoGrant)]
      .ok (v.2, v'.2, w.2, w'.2)) (fun r => r = ([(0, demoGrant)], [(1, demoPay)], [],
        [(0, demoGrant), (1, demoPay)])) = true := by
    decide +kernel
  obtain ⟨r, hr, hout⟩ := returns_iff.mp hstages
  simp only [bind_eq_ok, Except.ok.injEq] at hr
  obtain ⟨⟨v, _⟩, hv, ⟨v', _⟩, hv', ⟨w, _⟩, hw, ⟨w', _⟩, hw', rfl⟩ := hr
  simp only [decide_eq_true_eq, Prod.mk.injEq] at hout
  obtain ⟨rfl, rfl, rfl, rfl⟩ := hout
  exact ⟨v, v', w, w', hv, hv', hw, hw'⟩

/-- In the end both nodes have handed on the grant and then the payment. -/
theorem demo_run : ∃ s : Net BitcoinTxn, s.Quiet ∧
    After (bitcoinStage demo.ids dummyVerify) .gossip demoCluster.net demoActs s ∧
    s.mempool 0 = [demoGrant, demoPay] ∧ s.mempool 1 = [demoGrant, demoPay] := by
  obtain ⟨v, v', w, w', hv, hv', hw, hw'⟩ := stages_demo
  have hquiet : (Peer.new : Peer BitcoinTxn).Quiet := ⟨rfl, rfl, rfl, rfl, rfl⟩
  have hstart : After (bitcoinStage demo.ids dummyVerify) .gossip demoCluster.net [] Net.new := .new
  have hclient : ∀ n t, n ∈ demoCluster.net.nodes → (t = demoGrant ∨ t = demoPay) →
      ByClients (bitcoinStage demo.ids dummyVerify) demoCluster.net (.request n t) := by
    intro n t hn ht
    rcases ht with rfl | rfl
    · exact ⟨hn, rfl⟩
    · exact ⟨hn, rfl⟩
  have hne : (bitcoinStage demo.ids dummyVerify).txnId demoGrant ≠
      (bitcoinStage demo.ids dummyVerify).txnId demoPay := by
    decide +kernel
  -- the payment waits at the second node
  have h₁ := hstart.step (hclient 1 demoPay (by decide) (Or.inr rfl))
    (.request 1 demoPay (by decide))
  have h₂ := h₁.work (n := 1) (takes_in hquiet rfl rfl hw)
  rw [Net.set_set] at h₂
  have hwaits : ((Peer.new : Peer BitcoinTxn).took (bitcoinStage demo.ids dummyVerify) demoPay
      (w, [])).Quiet := hquiet.took rfl
  -- the grant is submitted at the first
  have h₃ := h₂.step (hclient 0 demoGrant (by decide) (Or.inl rfl)) (.request 0 demoGrant
    (show (0 : Nat) < validationBatchSize * 3 by decide))
  have h₄ := h₃.through hquiet rfl rfl hv (show 1 ≤ dissemBatchSize by decide)
    (List.cons_ne_nil _ _) (Net.set_self ..)
  have hfirst : ((Peer.new : Peer BitcoinTxn).took (bitcoinStage demo.ids dummyVerify) demoGrant
      (v, [(0, demoGrant)])).forward.Quiet := hquiet.forward (show 1 ≤ dissemBatchSize by decide)
  rw [Net.set_set, show TxnDissemination.gossip.disseminate demoCluster.net 0 [(0, demoGrant)] =
    {⟨0, 1, [demoGrant]⟩} by decide] at h₄
  -- it gets to the second, and the payment to the first
  have h₅ := h₄.step (show ByClients (bitcoinStage demo.ids dummyVerify) demoCluster.net
    (.deliver ⟨0, 1, [demoGrant]⟩) from trivial) (.deliver _ 0 rfl)
  have h₆ := h₅.through hwaits (Peer.took_new hne rfl) rfl hw'
    (show 2 ≤ dissemBatchSize by decide) (List.cons_ne_nil _ _) (Net.set_self ..)
  rw [Net.set_set, show TxnDissemination.gossip.disseminate demoCluster.net 1
    [(0, demoGrant), (1, demoPay)] = {⟨1, 0, [demoPay]⟩} by decide] at h₆
  have h₇ := h₆.step (show ByClients (bitcoinStage demo.ids dummyVerify) demoCluster.net
    (.deliver ⟨1, 0, [demoPay]⟩) from trivial) (.deliver _ 0 rfl)
  have h₈ := h₇.through hfirst (Peer.took_new (r := (v, [(0, demoGrant)])) hne.symm rfl) rfl hv'
    (show 1 ≤ dissemBatchSize by decide) (List.cons_ne_nil _ _) (Net.set_self ..)
  rw [Net.set_set, show TxnDissemination.gossip.disseminate demoCluster.net 0 [(1, demoPay)] = 0
    by decide] at h₈
  refine ⟨_, ⟨fun n => ?_, rfl⟩, h₈, rfl, rfl⟩
  by_cases h₀ : n = 0
  · rw [h₀, Net.set_self]
    exact hfirst.forward (show 1 ≤ dissemBatchSize by decide)
  rw [Net.set_ne _ _ _ h₀]
  by_cases h₁ : n = 1
  · rw [h₁, Net.set_self]
    exact hwaits.forward (show 2 ≤ dissemBatchSize by decide)
  · rw [Net.set_ne _ _ _ h₁, Net.set_ne _ _ _ h₀, Net.set_ne _ _ _ h₁]
    exact hquiet

theorem mempools_agree_demo : ∃ tr s, tr.filter Label.visible = demoActs ∧
    Agree (bitcoinStage demo.ids dummyVerify) .gossip demoCluster.net tr s ∧
    s.mempool 0 = [demoGrant, demoPay] ∧ s.mempool 1 = [demoGrant, demoPay] := by
  obtain ⟨s, hquiet, ⟨tr, hacts, hrun⟩, hmempools⟩ := demo_run
  exact ⟨tr, s, hacts, mempools_agree demoCluster .gossip hrun hquiet, hmempools⟩

end Copycat.Gossip
