import Copycat.Avalanche.Acceptance

/-!
# Commits and their dependencies

Whether the parents of a committed `Send` are committed before it. What leaves
the DAG has been accepted (`LeftInv`), and what is emitted is emitted in the
order of acceptance; so a parent that had left the DAG when its child was
accepted comes out first. The `beta2` rule does not ask about parents: a child
whose own conflict sets have seen `beta2` successes in a row is accepted, also
while the counters of a parent have been reset by failed queries
(`child_before_parent`). `commits_respect_dependencies` says that this is the
only way in which a child overtakes a parent.
-/

namespace Copycat.Avalanche

open Copycat.Lib

variable {C : Type} {cfg : Config C}

/-! ## Delivery -/

/-- The transactions a call delivers. A placeholder stands for no transaction. -/
def Call.delivers : Call → List AvalancheTxn
  | newTail _ tail => (tail.flatMap Block.txns).filter fun txn => decide (txn ≠ .placeHolder)
  | _ => []

/-- The transactions delivered to `new_tail`, in order. -/
def delivered (tr : List Call) : List AvalancheTxn :=
  tr.flatMap Call.delivers

/-- The inputs of every `Send` are delivered before it. -/
def ParentsFirst (ids : TxnIds) (txns : List AvalancheTxn) : Prop :=
  ∀ done sender inUtxo receiver outUtxo remainder sig rest,
    txns = done ++ .send sender inUtxo receiver outUtxo remainder sig :: rest →
    ∀ p ∈ inUtxo, ∃ q ∈ done, ids.txnId q = p

/-- What is recorded after `txns` have been delivered. -/
structure Delivered (ids : TxnIds) (txns : List AvalancheTxn) (l : Ledger C) : Prop where
  known : ∀ q ∈ txns, l.txnPool (ids.txnId q) ≠ none
  only : ∀ x txn, l.txnPool x = some txn → txn ∈ txns

/-- One transaction of a block. -/
theorem newTxn_delivered {fuel : Nat} {b b' : Batch C} {txn : AvalancheTxn}
    {txns : List AvalancheTxn} (h : newTxn cfg fuel b txn = .ok b')
    (hd : Delivered cfg.ids txns b.ledger) :
    Delivered cfg.ids (txns ++ [txn].filter fun txn => decide (txn ≠ .placeHolder)) b'.ledger := by
  -- what `recordIfNew` makes of the pool
  have hrec : ∀ t : AvalancheTxn, Delivered cfg.ids (txns ++ [t]) (recordIfNew cfg b.ledger t) := by
    intro t
    unfold recordIfNew
    split
    · next hsome =>
      refine ⟨fun q hq => ?_, fun x t' hx => List.mem_append_left _ (hd.only x t' hx)⟩
      rcases List.mem_append.mp hq with hq | hq
      · exact hd.known q hq
      · rw [List.mem_singleton.mp hq]
        exact Option.isSome_iff_ne_none.mp hsome
    · refine ⟨fun q hq => ?_, fun x t' hx => ?_⟩
      · by_cases hid : cfg.ids.txnId q = cfg.ids.txnId t
        · rw [hid, recordTxn_pool_self]
          simp
        · rw [recordTxn_pool_ne b.ledger hid]
          rcases List.mem_append.mp hq with hq | hq
          · exact hd.known q hq
          · exact absurd (congrArg cfg.ids.txnId (List.mem_singleton.mp hq)) hid
      · rcases recordTxn_pool_cases hx with ⟨-, rfl⟩ | ⟨-, hx⟩
        · simp
        · exact List.mem_append_left _ (hd.only x t' hx)
  have hcheck : ∀ {t : AvalancheTxn}, t ≠ .placeHolder →
      (isStronglyPreferred fuel (recordIfNew cfg b.ledger t) (cfg.ids.txnId t) >>=
        fun (r : Ledger C × Bool) => .ok (⟨r.1, b.votes ++ [r.2],
          b.queryTxns ++ [some (cfg.ids.txnId t)]⟩ : Batch C)) = .ok b' →
      Delivered cfg.ids (txns ++ [t].filter fun txn => decide (txn ≠ .placeHolder))
        b'.ledger := by
    intro t ht h
    rw [bind_eq_ok] at h
    obtain ⟨⟨l, vote⟩, hs, h⟩ := h
    rw [Except.ok.injEq] at h
    obtain ⟨cache, -, hl⟩ := isStronglyPreferred_cases hs
    rw [← h, hl, List.filter_cons_of_pos (by simpa using ht)]
    exact ⟨(hrec t).known, (hrec t).only⟩
  unfold newTxn at h
  cases txn with
  | grant out rcv nonce =>
    rw [Except.ok.injEq] at h
    rw [← h]
    exact hrec _
  | placeHolder =>
    rw [Except.ok.injEq] at h
    rw [← h]
    simpa using hd
  | send => exact hcheck (by simp) h
  | noop => exact hcheck (by simp) h

/-- The transactions of a block. -/
theorem newTxns_delivered {fuel : Nat} {l : Ledger C} {b : Batch C}
    {txns before : List AvalancheTxn}
    (h : txns.foldlM (newTxn cfg fuel) ⟨l, [], []⟩ = .ok b)
    (hd : Delivered cfg.ids before l) :
    Delivered cfg.ids (before ++ txns.filter fun txn => decide (txn ≠ .placeHolder))
      b.ledger := by
  refine foldlM_prefix (fun done (b : Batch C) => Delivered cfg.ids
    (before ++ done.filter fun txn => decide (txn ≠ .placeHolder)) b.ledger) ?_ ?_ h
  · intro done b txn b' hdone hstep
    rw [List.filter_append, ← List.append_assoc]
    exact newTxn_delivered hstep hdone
  · simpa using hd

/-! ## Calls -/

/-- A vote records nothing. -/
theorem RunInv.recordVotes_pool {fuel blkId : Nat} {votes : List Bool} {tr : List Call}
    {s s' : Decision C} (h : RunInv cfg tr s)
    (hr : Avalanche.recordVotes cfg fuel s blkId votes = .ok s') :
    s'.txnPool = s.txnPool ∧ ∃ ops, Ops cfg s.toLedger ops s'.toLedger := by
  rcases recordVotes_cases hr with ⟨-, rfl⟩ | ⟨hfin, -, ⟨-, rfl⟩ | ⟨-, hv⟩⟩
  · exact ⟨rfl, [], .nil⟩
  · exact ⟨rfl, [], .nil⟩
  · rcases handleVotes_cases hv with ⟨-, rfl⟩ | ⟨txns, n, acc, l, c, -, -, -, hf, rfl⟩
    · exact ⟨rfl, [], .nil⟩
    · obtain ⟨-, hpool, ops, hops, -⟩ := handleSlots_spec h.hist (fun i hi => hfin hi) hf
      exact ⟨hpool, ops, hops⟩

/-- What a call does to the ledger: first it records what it delivers, then it
decides queries, and nothing is recorded any more. -/
theorem RunInv.step_ops {tr : List Call} {s s' : Decision C} {call : Call}
    (h : RunInv cfg tr s) (hs : Step cfg s call s') {txns : List AvalancheTxn}
    (hd : Delivered cfg.ids txns s.toLedger) :
    ∃ ops ops' l, Ops cfg s.toLedger ops l ∧ QuietOps ops ∧ Ops cfg l ops' s'.toLedger ∧
      s'.txnPool = l.txnPool ∧ Delivered cfg.ids (txns ++ call.delivers) l := by
  have hquiet : QuietOps [] := fun op hop => absurd hop (by simp)
  have hnone : Delivered cfg.ids (txns ++ []) s.toLedger := by simpa using hd
  cases hs with
  | @newTail _ fuel now src tail reply hs =>
    obtain ⟨rfl, rfl, -⟩ | ⟨blk, b, rfl, -, -, hb, hs⟩ := newTail_cases hs
    · exact ⟨[], [], s'.toLedger, .nil, hquiet, .nil, rfl, hnone⟩
    obtain ⟨⟨ops, hops, hq⟩, -⟩ := newTxns_ops hb
    have hdel : Delivered cfg.ids (txns ++ (Call.newTail src [blk]).delivers) b.ledger := by
      have := newTxns_delivered hb hd
      simpa [Call.delivers] using this
    obtain ⟨-, hr, -⟩ | ⟨-, rfl, -⟩ := hs
    · have hinv : RunInv cfg (tr ++ [.timeout]) (opened cfg now s blk b) :=
        RunInv.quiet h hops hq rfl rfl rfl
      obtain ⟨hpool, ops', hops'⟩ := hinv.recordVotes_pool hr
      exact ⟨ops, ops', b.ledger, hops, hq, hops', hpool, hdel⟩
    · exact ⟨ops, [], b.ledger, hops, hq, .nil, rfl, hdel⟩
  | peerMsg hs =>
    obtain ⟨rfl, -⟩ | ⟨msg, -, -, -, hr⟩ := handlePeerMsg_cases hs
    · exact ⟨[], [], s'.toLedger, .nil, hquiet, .nil, rfl, hnone⟩
    · obtain ⟨hpool, ops', hops'⟩ := h.recordVotes_pool hr
      exact ⟨[], ops', s.toLedger, .nil, hquiet, hops', hpool, hnone⟩
  | timeout hne hs =>
    obtain ⟨blkId, time, rest, -, ⟨-, rfl⟩ | ⟨hfin, hv⟩⟩ := handleTimeout_cases hs
    · exact ⟨[], [], s.toLedger, .nil, hquiet, .nil, rfl, hnone⟩
    rcases handleVotes_cases hv with ⟨-, rfl⟩ | ⟨qs, n, acc, l, c, -, -, -, hf, rfl⟩
    · exact ⟨[], [], s.toLedger, .nil, hquiet, .nil, rfl, hnone⟩
    · obtain ⟨-, hpool, ops', hops', -⟩ := handleSlots_spec h.hist (fun i hi => hfin hi) hf
      exact ⟨[], ops', s.toLedger, .nil, hquiet, hops', hpool, hnone⟩
  | commit hne hs =>
    obtain ⟨hashes, rest, -, -, rfl⟩ := nextToCommit_cases hs
    exact ⟨[], [], s.toLedger, .nil, hquiet, .nil, rfl, hnone⟩

/-- The parents of every recorded `Send` are recorded. -/
def ClosedOps (ids : TxnIds) (ops : List Op) : Prop :=
  ∀ sender inUtxo receiver outUtxo remainder sig,
    Op.record (.send sender inUtxo receiver outUtxo remainder sig) ∈ ops →
    ∀ p ∈ inUtxo, ∃ q, Op.record q ∈ ops ∧ ids.txnId q = p

theorem Delivered.closed {l : Ledger C} {ops : List Op} {txns : List AvalancheTxn}
    (hd : Delivered cfg.ids txns l) (hrun : LedgerRun cfg ops l)
    (hfirst : ParentsFirst cfg.ids txns) : ClosedOps cfg.ids ops := by
  intro sender inUtxo receiver outUtxo remainder sig hop p hp
  have hpool := (hrun.recorded _ _).mpr ⟨hop, rfl⟩
  obtain ⟨done, rest, hsplit⟩ := List.append_of_mem (hd.only _ _ hpool)
  obtain ⟨q, hq, hid⟩ := hfirst done sender inUtxo receiver outUtxo remainder sig rest hsplit p hp
  have hmem : q ∈ txns := by
    rw [hsplit]
    exact List.mem_append_left _ hq
  obtain ⟨q', hq'⟩ := Option.ne_none_iff_exists'.mp (hd.known q hmem)
  obtain ⟨hop', hid'⟩ := (hrun.recorded _ q').mp hq'
  exact ⟨q', hop', hid'.trans hid⟩

theorem delivered_snoc (tr : List Call) (call : Call) :
    delivered (tr ++ [call]) = delivered tr ++ call.delivers := by
  simp [delivered]

theorem ParentsFirst.left {ids : TxnIds} {txns txns' : List AvalancheTxn}
    (h : ParentsFirst ids (txns ++ txns')) : ParentsFirst ids txns := by
  intro done sender inUtxo receiver outUtxo remainder sig rest hsplit
  apply h done sender inUtxo receiver outUtxo remainder sig (rest ++ txns')
  rw [hsplit, List.append_assoc, List.cons_append]

/-- Along a run whose `Send`s come after their parents, the parents of a `Send`
are recorded whenever a query succeeds. -/
structure DepInv (cfg : Config C) (tr : List Call) (s : Decision C) : Prop where
  run : RunInv cfg tr s
  delivered : Delivered cfg.ids (delivered tr) s.toLedger
  closed : ParentsFirst cfg.ids (Avalanche.delivered tr) →
    ∀ pre slot t b post, s.history = pre ++ .bump slot t b :: post → ClosedOps cfg.ids pre

theorem depInv_step {tr : List Call} {s s' : Decision C} {call : Call} (h : DepInv cfg tr s)
    (hs : Step cfg s call s') : DepInv cfg (tr ++ [call]) s' := by
  have hinv' := runInv_step h.run hs
  obtain ⟨ops, ops', l, hops, hquiet, hops', hpool, hdel⟩ := h.run.step_ops hs h.delivered
  have hl : LedgerRun cfg (s.history ++ ops) l := h.run.hist.run.append hops
  have hhist : s'.history = (s.history ++ ops) ++ ops' := by
    rw [history_ops hops', history_ops hops]
  refine ⟨hinv', ?_, ?_⟩
  · rw [delivered_snoc]
    refine ⟨fun q hq => ?_, fun x txn hx => ?_⟩
    · rw [hpool]
      exact hdel.known q hq
    · rw [hpool] at hx
      exact hdel.only x txn hx
  · rw [delivered_snoc]
    intro hfirst pre slot t b post hsplit
    rw [hhist] at hsplit
    rcases append_eq_split hsplit with ⟨post', hin⟩ | ⟨mid, rfl, hin⟩
    · rcases append_eq_split hin with ⟨post'', hin⟩ | ⟨mid, -, hin⟩
      · exact h.closed hfirst.left pre slot t b post'' hin
      · -- no query is decided while a block comes in
        rcases hquiet (.bump slot t b) (by rw [hin]; simp) with ⟨y, he⟩ | ⟨y, he⟩
        · exact absurd he (by simp)
        · exact absurd he (by simp)
    · have hclosed := hdel.closed hl hfirst
      intro sender inUtxo receiver outUtxo remainder sig hop p hp
      -- what the history records by then was recorded before the queries
      have hrec : Op.record (.send sender inUtxo receiver outUtxo remainder sig) ∈
          s.history ++ ops := by
        have hin' : Op.record (.send sender inUtxo receiver outUtxo remainder sig) ∈
            s'.history := by
          rw [hhist, hin, ← List.append_assoc]
          exact List.mem_append_left _ hop
        have hx := (hinv'.hist.run.recorded _ _).mpr ⟨hin', rfl⟩
        rw [hpool] at hx
        exact ((hl.recorded _ _).mp hx).1
      obtain ⟨q, hq, hid⟩ := hclosed sender inUtxo receiver outUtxo remainder sig hrec p hp
      exact ⟨q, List.mem_append_left _ hq, hid⟩

theorem depInv_run {tr : List Call} {s : Decision C} (h : Run cfg tr s) : DepInv cfg tr s := by
  refine h.invariant_trace (DepInv cfg) ?_ fun _ _ _ _ hinv _ hs => depInv_step hinv hs
  refine ⟨runInv_run .nil, ⟨?_, ?_⟩, ?_⟩
  · intro q hq
    exact absurd hq (by simp [delivered])
  · intro x txn hx
    exact absurd hx (by simp [stage, Decision.new, Ledger.new])
  · intro _ pre slot t b post hsplit
    exact absurd hsplit (by simp [stage, Decision.new, Ledger.new])

/-! ## Leaving the DAG -/

/-- What is recorded and not in the DAG has been accepted. -/
def LeftInv (l : Ledger C) : Prop :=
  ∀ x txn, l.txnPool x = some txn → l.txnDag x = none → x ∈ acceptedTxns l.history

theorem leftInv_op {l l' : Ledger C} {op : Op} (hinv : LeftInv l) (h : OpStep cfg l op l') :
    LeftInv l' := by
  have hhist := history_op h
  -- an operation that leaves the pool and the DAG alone
  have hsame : l'.txnPool = l.txnPool → l'.txnDag = l.txnDag → LeftInv l' := by
    intro hpool hdag x txn hx hn
    rw [hhist, acceptedTxns_append]
    rw [hpool] at hx
    rw [hdag] at hn
    exact List.mem_append_left _ (hinv x txn hx hn)
  cases h with
  | @record txn hnew hph =>
    intro x txn' hx hn
    rw [hhist, acceptedTxns_append]
    rw [recordTxn_dag, Option.map_eq_none_iff] at hn
    have hxh : x ≠ cfg.ids.txnId txn := by
      intro he
      rw [he, Function.update_self] at hn
      exact absurd hn (by simp)
    rw [Function.update_of_ne hxh] at hn
    rw [recordTxn_pool_ne l hxh] at hx
    exact List.mem_append_left _ (hinv x txn' hx hn)
  | check hs =>
    obtain ⟨cache, -, rfl⟩ := isStronglyPreferred_cases hs
    exact hsame rfl rfl
  | ask => exact hsame rfl rfl
  | bump _ hb =>
    obtain ⟨n, txn, t, -, -, -, -, -, rfl, -⟩ := bump_spec hb
    exact hsame rfl rfl
  | @accept _ h hdag hlast =>
    intro x txn hx hn
    rw [hhist, acceptedTxns_append]
    by_cases hxh : x = h
    · rw [hxh]
      exact List.mem_append_right _ (mem_acceptedTxns.mpr (by simp))
    · have hn : Function.update l.txnDag h none x = none := hn
      rw [Function.update_of_ne hxh] at hn
      exact List.mem_append_left _ (hinv x txn hx hn)
  | reset _ _ hr =>
    obtain ⟨txn, sets, -, rfl, -⟩ := resetTxn_spec hr
    exact hsame rfl rfl

theorem LedgerRun.left {l : Ledger C} {ops : List Op} (h : LedgerRun cfg ops l) : LeftInv l := by
  refine h.invariant LeftInv ?_ fun _ _ _ hl _ hs => leftInv_op hl hs
  intro x txn hx
  exact absurd hx (by simp [ledger, Ledger.new])

/-- What was accepted before a transaction that is emitted is emitted before
it, if it is emitted at all. -/
theorem RunInv.emitted_before {tr : List Call} {s : Decision C} (h : RunInv cfg tr s)
    {done rest : List AvalancheTxn} {txn : AvalancheTxn} {pre post : List Op}
    (hsplit : emitted tr = done ++ txn :: rest)
    (hhist : s.history = pre ++ .accept (cfg.ids.txnId txn) :: post) {p : Hash}
    (hp : p ∈ committedTxns s.txnPool pre) : ∃ q ∈ done, cfg.ids.txnId q = p := by
  obtain ⟨hpre, hknown⟩ := h.emitted_ids
  set t := cfg.ids.txnId txn with ht
  have hmem : t ∈ committedTxns s.txnPool s.history := by
    apply hpre.subset
    exact List.mem_map_of_mem (by rw [hsplit]; simp)
  -- the committed transactions, cut at `t` in the two ways
  have hcut : committedTxns s.txnPool s.history =
      committedTxns s.txnPool pre ++ t :: committedTxns s.txnPool post := by
    have hcommits := (mem_committedTxns.mp hmem).2
    obtain ⟨txn', htxn', hc⟩ := hcommits
    have hone : committedTxns s.txnPool [.accept t] = [t] := by
      unfold committedTxns acceptedTxns
      simp [htxn', hc]
    rw [hhist, show pre ++ Op.accept t :: post = pre ++ ([.accept t] ++ post) from rfl,
      committedTxns_append, committedTxns_append, hone]
    rfl
  obtain ⟨tail, htail⟩ := hpre
  rw [hsplit, hcut, List.map_append, List.map_cons, List.append_assoc, ← ht] at htail
  -- `t` is committed once, so the cuts are the same
  have hnd : (committedTxns s.txnPool pre ++ t :: committedTxns s.txnPool post).Nodup := by
    rw [← hcut]
    exact h.hist.run.accepts.nodup.filter _
  have hdone : done.map cfg.ids.txnId = committedTxns s.txnPool pre := by
    have hnd' := htail ▸ hnd
    rcases List.append_eq_append_iff.mp htail with ⟨mid, hm, hr⟩ | ⟨mid, hm, hr⟩
    · cases mid with
      | nil => simpa using hm.symm
      | cons x mid =>
        rw [List.cons_append, List.cons_append, List.cons.injEq] at hr
        rw [hm, ← hr.1] at hnd
        exact absurd hnd (by simp [List.nodup_append])
    · cases mid with
      | nil => simpa using hm
      | cons x mid =>
        rw [List.cons_append, List.cons.injEq] at hr
        rw [hm, ← hr.1] at hnd'
        exact absurd hnd' (by simp [List.nodup_append])
  rw [← hdone] at hp
  obtain ⟨q, hq, hid⟩ := List.mem_map.mp hp
  exact ⟨q, hq, hid⟩

/-- **Dependencies.** In a run of Avalanche in which every `Send` is delivered
after its parents, a `Send` is emitted after each of its parents, with two
exceptions: a parent that is a `Noop` is accepted before it and never emitted,
and a parent that was still in the DAG when the `Send` was accepted has been
overtaken. The second takes the `beta2` rule: the counter of every conflict set
of the `Send` was at `beta2`, and the `Send` the last one it counted. -/
theorem commits_respect_dependencies {cfg : Config Streak} (hrule : cfg.rule = avalancheRule)
    {tr : List Call} {s : Decision Streak} (h : Run cfg tr s)
    (hfirst : ParentsFirst cfg.ids (delivered tr)) {done rest : List AvalancheTxn}
    {sender receiver : PubKey} {inUtxo : List Hash} {outUtxo remainder : UInt64} {sig : Signature}
    {t : Hash}
    (hsplit : emitted tr = done ++ .send sender inUtxo receiver outUtxo remainder sig :: rest)
    (ht : cfg.ids.txnId (.send sender inUtxo receiver outUtxo remainder sig) = t) :
    ∃ pre slot post l l', s.history = pre ++ .bump slot t true :: .accept t :: post ∧
      LedgerRun cfg pre l ∧ LedgerRun cfg (pre ++ [.bump slot t true]) l' ∧
      ∀ p ∈ inUtxo, (∃ q ∈ done, cfg.ids.txnId q = p) ∨
        ((∃ parents, s.txnPool p = some (.noop parents)) ∧ p ∈ acceptedTxns pre) ∨
        (l.txnDag p ≠ none ∧ ∀ r ∈ inUtxo, ∃ ct, l'.conflictSets (r, sender) = some ct ∧
          ct.ctr.last = some t ∧ cfg.beta2.toNat ≤ ct.ctr.count) := by
  subst ht
  set txn : AvalancheTxn := .send sender inUtxo receiver outUtxo remainder sig with htxn
  have hdep := depInv_run h
  have hinv := hdep.run
  obtain ⟨hpre, hknown⟩ := hinv.emitted_ids
  have hin : txn ∈ emitted tr := by
    rw [hsplit]
    simp
  have hacc := (mem_committedTxns.mp (hpre.subset (List.mem_map_of_mem hin))).1
  obtain ⟨pre, slot, post, hhist⟩ := hinv.hist.run.accept_after_bump hacc
  have hrun : LedgerRun cfg (pre ++ .bump slot (cfg.ids.txnId txn) true ::
      (.accept (cfg.ids.txnId txn) :: post)) s.toLedger := hhist ▸ hinv.hist.run
  obtain ⟨l, l', hl, hstep, hl', hpool, hpost⟩ := hrun.at_bump
  refine ⟨pre, slot, post, l, l', hhist, hl, hl', fun p hp => ?_⟩
  -- the `Send` was recorded by then, and so was its parent
  obtain ⟨txn', htxn', -, hlate⟩ := LedgerRun.streak_verdict hrule hl hstep
  have he : txn' = txn := by
    have := pool_ops hpost (hpool ▸ htxn')
    rw [hknown txn hin, Option.some.injEq] at this
    exact this.symm
  subst he
  have hclosed := hdep.closed hfirst pre slot _ true _ hhist
  obtain ⟨q, hq, hid⟩ := hclosed sender inUtxo receiver outUtxo remainder sig
    ((hl.recorded _ _).mp htxn').1 p hp
  have hpq : l.txnPool p = some q := (hl.recorded p q).mpr ⟨hq, hid⟩
  by_cases hdag : l.txnDag p = none
  · -- it had left the DAG: it was accepted before
    have hpacc : p ∈ acceptedTxns pre := by
      have := hl.left p q hpq hdag
      rwa [hl.history] at this
    have hpool' : s.txnPool p = some q := pool_ops hpost (hpool ▸ hpq)
    by_cases hc : q.commits = true
    · have hcut : s.history = (pre ++ [.bump slot (cfg.ids.txnId txn) true]) ++
          .accept (cfg.ids.txnId txn) :: post := by
        rw [hhist, List.append_assoc]
        rfl
      refine Or.inl (hinv.emitted_before hsplit hcut ?_)
      rw [committedTxns_append]
      exact List.mem_append_left _ (mem_committedTxns.mpr ⟨hpacc, q, hpool', hc⟩)
    · refine Or.inr (Or.inl ⟨?_, hpacc⟩)
      have hph := (hl.inv.keyed p q hpq).2
      cases q with
      | send => exact absurd rfl hc
      | grant => exact absurd rfl hc
      | noop parents => exact ⟨parents, hpool'⟩
      | placeHolder => exact absurd rfl hph
  · refine Or.inr (Or.inr ⟨hdag, fun r hr => ?_⟩)
    exact hlate (Or.inr ⟨p, hp, hdag⟩) (r, sender) (List.mem_map_of_mem hr)

/-- A `Grant`, a `Send` of it, and a `Send` of that. -/
def demoChain : List AvalancheTxn :=
  [.grant 4 [1] 0, demoSend 1, .send [2] [7] [3] 1 0 []]

/-- A node that decides by two votes, its own and a peer's. -/
def demoPair : Config Streak :=
  { demo avalancheRule 2 2 with k := 2, voteThresh := 2 }

/-- Two blocks with the chain; the peer likes the `Grant` and the last `Send`,
but not the one between. -/
def overtakingQueries : List Call :=
  [demoBlock 1 demoChain, .peerMsg 1 (some ⟨1, [true, false, true], []⟩),
    .commit 1 [.grant 4 [1] 0], demoBlock 2 demoChain,
    .peerMsg 1 (some ⟨2, [true, false, true], []⟩), .commit 2 [.send [2] [7] [3] 1 0 []]]

theorem parentsFirst_demo : ParentsFirst demoIds (delivered overtakingQueries) := by
  have hd : delivered overtakingQueries = demoChain ++ demoChain := by decide
  rw [hd]
  -- the inputs of the chain are `5` and `7`, the ids of what stands before
  have hall : ∀ i < 6, ∀ txn ∈ (demoChain ++ demoChain)[i]?, ∀ p ∈ txn.parents,
      p ∈ ((demoChain ++ demoChain).take i).map demoIds.txnId := by
    decide
  intro done sender inUtxo receiver outUtxo remainder sig rest hsplit p hp
  have hlen : done.length < 6 := by
    have h6 : 6 = (done ++ .send sender inUtxo receiver outUtxo remainder sig :: rest).length :=
      congrArg List.length hsplit
    rw [List.length_append, List.length_cons] at h6
    omega
  have hmem := hall done.length hlen (.send sender inUtxo receiver outUtxo remainder sig)
    (by rw [hsplit]; simp) p hp
  rw [hsplit, List.take_left] at hmem
  exact List.mem_map.mp hmem

/-- The child is emitted, the parent is not: each query for the parent failed,
and the `beta2` rule does not look at it. -/
theorem child_before_parent :
    (∃ s, Run demoPair overtakingQueries s ∧ s.txnDag 7 ≠ none) ∧
    ParentsFirst demoPair.ids (delivered overtakingQueries) ∧
    emitted overtakingQueries = [.grant 4 [1] 0] ++ .send [2] [7] [3] 1 0 [] :: [] ∧
    ∀ q ∈ [AvalancheTxn.grant 4 [1] 0], demoPair.ids.txnId q ≠ 7 := by
  have hcheck : returns (runCalls demoPair 20 overtakingQueries)
      (fun s => (s.txnDag 7).isSome) = true := by
    decide +kernel
  obtain ⟨s, hs, hdag⟩ := returns_iff.mp hcheck
  exact ⟨⟨s, run_of_runCalls hs, Option.isSome_iff_ne_none.mp hdag⟩, parentsFirst_demo, rfl,
    by decide⟩

/-- The `Send` of the example, and the parent it overtook. -/
theorem commits_respect_dependencies_demo :
    ∃ s, Run demoPair overtakingQueries s ∧
      ∃ pre slot post l l', s.history = pre ++ .bump slot 9 true :: .accept 9 :: post ∧
        LedgerRun demoPair pre l ∧ LedgerRun demoPair (pre ++ [.bump slot 9 true]) l' ∧
        ∀ p ∈ [7], (∃ q ∈ [AvalancheTxn.grant 4 [1] 0], demoIds.txnId q = p) ∨
          ((∃ parents, s.txnPool p = some (.noop parents)) ∧ p ∈ acceptedTxns pre) ∨
          (l.txnDag p ≠ none ∧ ∀ r ∈ [7], ∃ ct, l'.conflictSets (r, [2]) = some ct ∧
            ct.ctr.last = some 9 ∧ 2 ≤ ct.ctr.count) := by
  have hcheck : returns (runCalls demoPair 20 overtakingQueries) (fun _ => true) = true := by
    decide +kernel
  obtain ⟨s, hs, -⟩ := returns_iff.mp hcheck
  have hrun := run_of_runCalls hs
  have hsplit : emitted overtakingQueries =
      [.grant 4 [1] 0] ++ .send [2] [7] [3] 1 0 [] :: [] := rfl
  exact ⟨s, hrun, commits_respect_dependencies rfl hrun parentsFirst_demo hsplit rfl⟩

end Copycat.Avalanche
