import Copycat.Avalanche.Counters

/-!
# What an acceptance rests on

Two results about the transactions the stage commits. `acceptance_sound` is
about Avalanche: an accepted `Send` has been reached by enough successful
queries, and if it has a rival or a parent that is not accepted yet, the last
`beta2` outcomes touching each of its conflict sets were successes through it.
`conflicting_commits` is about both rules: acceptance does not exclude a later
acceptance of a rival (`conflict_committed` is a run in which both are
committed), but the rival needs `beta2` successes of its own after that.
-/

namespace Copycat.Avalanche

open Copycat.Lib

variable {C : Type} {cfg : Config C}

/-! ## Moments of a run -/

/-- The moment of a bump: the ledger before and after. -/
theorem LedgerRun.at_bump {l : Ledger C} {pre post : List Op} {slot : Slot} {t : Hash} {b : Bool}
    (h : LedgerRun cfg (pre ++ .bump slot t b :: post) l) :
    ∃ l₁ l₂, LedgerRun cfg pre l₁ ∧ OpStep cfg l₁ (.bump slot t b) l₂ ∧
      LedgerRun cfg (pre ++ [.bump slot t b]) l₂ ∧ l₂.txnPool = l₁.txnPool ∧
      Ops cfg l₂ post l := by
  have h' : LedgerRun cfg ((pre ++ [.bump slot t b]) ++ post) l := by
    rw [List.append_assoc]
    exact h
  obtain ⟨l₂, hl₂, hpost⟩ := h'.split
  obtain ⟨l₁, hl₁, -, hstep⟩ := hl₂.snoc_inv
  have hpool : l₂.txnPool = l₁.txnPool := by
    cases effect_of_op hstep with
    | bump _ _ hpool => exact hpool
    | idle hop => simp at hop
  exact ⟨l₁, l₂, hl₁, hstep, hl₂, hpool, hpost⟩

/-- An acceptance follows the bump that decided it. -/
theorem LedgerRun.accept_after_bump {l : Ledger C} {ops : List Op} (h : LedgerRun cfg ops l)
    {t : Hash} (ht : t ∈ acceptedTxns ops) :
    ∃ pre slot post, ops = pre ++ .bump slot t true :: .accept t :: post := by
  obtain ⟨pre, post, rfl⟩ := List.append_of_mem (mem_acceptedTxns.mp ht)
  have h' : LedgerRun cfg ((pre ++ [.accept t]) ++ post) l := by
    rw [List.append_assoc]
    exact h
  obtain ⟨l₂, hl₂, -⟩ := h'.split
  obtain ⟨l₁, hl₁, -, hstep⟩ := hl₂.snoc_inv
  cases hstep with
  | @accept slot _ _ hlast =>
    rw [LedgerRun.history hl₁, List.getLast?_eq_some_iff] at hlast
    obtain ⟨pre', rfl⟩ := hlast
    exact ⟨pre', slot, post, by simp⟩

/-- What has been emitted was accepted, in that order, and is recorded under
its id. -/
theorem RunInv.emitted_ids {tr : List Call} {s : Decision C} (h : RunInv cfg tr s) :
    (emitted tr).map cfg.ids.txnId <+: committedTxns s.txnPool s.history ∧
      ∀ txn ∈ emitted tr, s.txnPool (cfg.ids.txnId txn) = some txn := by
  obtain ⟨popped, hpop, hqueue⟩ := h.emits
  have hkeyed := h.hist.run.inv.keyed
  have hmem : ∀ txn ∈ emitted tr, s.txnPool (cfg.ids.txnId txn) = some txn := by
    intro txn htxn
    have hin : some txn ∈ popped.map s.txnPool := by
      rw [hpop]
      exact List.mem_map_of_mem htxn
    obtain ⟨x, -, hx⟩ := List.mem_map.mp hin
    rw [(hkeyed x txn hx).1]
    exact hx
  have hids : popped = (emitted tr).map cfg.ids.txnId := by
    have hmap := congrArg (List.map (Option.map cfg.ids.txnId)) hpop
    rw [List.map_map, List.map_map] at hmap
    apply List.map_injective_iff.mpr (Option.some_injective Hash)
    rw [List.map_map]
    refine Eq.trans ?_ hmap
    apply List.map_congr_left
    intro x hx
    have hin : s.txnPool x ∈ (emitted tr).map some := hpop ▸ List.mem_map_of_mem hx
    obtain ⟨txn, -, htxn⟩ := List.mem_map.mp hin
    show some x = (s.txnPool x).map cfg.ids.txnId
    rw [← htxn, Option.map_some, (hkeyed x txn htxn.symm).1]
  exact ⟨⟨_, hids ▸ hqueue⟩, hmem⟩

/-- Another recorded transaction spends an output that `txn` spends. -/
def HasRival (l : Ledger C) (t : Hash) (txn : AvalancheTxn) : Prop :=
  ∃ x rival, l.txnPool x = some rival ∧ x ≠ t ∧ ∃ u ∈ txn.utxos, u ∈ rival.utxos

/-- A transaction with a rival has a marked conflict set. -/
theorem CountInv.rival {l : Ledger C} (hcount : CountInv l) (hinv : LedgerInv cfg.ids l)
    {t : Hash} {txn : AvalancheTxn} (ht : l.txnPool t = some txn) (hrival : HasRival l t txn) :
    ∃ u ∈ txn.utxos, ∃ ct, l.conflictSets u = some ct ∧ ct.hasConflicts = true := by
  obtain ⟨x, rival, hx, hne, u, hu, hu'⟩ := hrival
  obtain ⟨ct, hct⟩ := hinv.entered t txn ht u hu
  refine ⟨u, hu, ct, hct, hcount.marked u ct x t hne ?_ ?_ hct⟩
  · rw [mult_some hx]
    exact List.count_pos_iff.mpr hu'
  · rw [mult_some ht]
    exact List.count_pos_iff.mpr hu

/-- What a bump that ends in an acceptance has found: the rule accepts with one
of the two thresholds, and with `beta2` if the transaction has a rival or a
parent in the DAG. -/
theorem LedgerRun.verdict {l l' : Ledger C} {ops : List Op} {slot : Slot} {h : Hash}
    (hrun : LedgerRun cfg ops l) (hstep : OpStep cfg l (.bump slot h true) l') :
    ∃ fuel txn t, l.confidence h = some ((bumpedTxns ops).count h) ∧ l.txnPool h = some txn ∧
      l'.conflictSets = t.conflictSets ∧
      txn.utxos.foldlM (bumpInput cfg fuel (raised l h ((bumpedTxns ops).count h + 1)) h
          ((bumpedTxns ops).count h + 1))
        ⟨l.conflictSets, l.preferenceCache, false,
          cfg.rule.start ((bumpedTxns ops).count h + 1)⟩ = .ok t ∧
      (cfg.rule.accepts cfg.beta1 ((bumpedTxns ops).count h + 1) t.count = true ∨
        cfg.rule.accepts cfg.beta2 ((bumpedTxns ops).count h + 1) t.count = true) ∧
      (HasRival l h txn ∨ (∃ p ∈ txn.parents, l.txnDag p ≠ none) →
        cfg.rule.accepts cfg.beta2 ((bumpedTxns ops).count h + 1) t.count = true) := by
  cases hstep with
  | bump hnode hb =>
    obtain ⟨n, txn, t, hn, htxn, -, hfold, ht, rfl, hverdict⟩ := bump_spec hb
    have hconf : n = (bumpedTxns ops).count h := by
      rw [← hrun.history]
      exact hrun.counts.conf h n hn
    subst hconf
    obtain ⟨txn', htxn', hpar, -⟩ := hrun.inv.node h _ hnode
    have he : txn' = txn := Option.some.inj (htxn'.symm.trans htxn)
    subst he
    refine ⟨_, txn', t, hn, htxn, rfl, hfold, ?_, fun hlate => ?_⟩
    · split at hverdict
      · exact Or.inl hverdict.symm
      · exact Or.inr hverdict.symm
    · -- the early commitment is not open to it
      have hcond : ((txn'.parents.all fun p => (l.txnDag p).isNone) &&
          !t.hasConflicts) = false := by
        rcases hlate with hrival | ⟨p, hp, hpdag⟩
        · have : t.hasConflicts = true :=
            ht.conflicts.mpr (hrun.counts.rival hrun.inv htxn hrival)
          simp [this]
        · have : (txn'.parents.all fun p => (l.txnDag p).isNone) = false := by
            rw [List.all_eq_false]
            exact ⟨p, hp, by simpa using hpdag⟩
          simp [this]
      rw [hpar, hcond] at hverdict
      exact hverdict.symm

/-! ## Avalanche -/

/-- What an acceptance in Avalanche rests on. -/
theorem LedgerRun.streak_verdict {cfg : Config Streak} (hrule : cfg.rule = avalancheRule)
    {l l' : Ledger Streak} {ops : List Op} {slot : Slot} {h : Hash} (hrun : LedgerRun cfg ops l)
    (hstep : OpStep cfg l (.bump slot h true) l') :
    ∃ txn, l.txnPool h = some txn ∧
      min cfg.beta1.toNat cfg.beta2.toNat ≤ (bumpedTxns (ops ++ [.bump slot h true])).count h ∧
      (HasRival l h txn ∨ (∃ p ∈ txn.parents, l.txnDag p ≠ none) →
        ∀ u ∈ txn.utxos, ∃ ct, l'.conflictSets u = some ct ∧ ct.ctr.last = some h ∧
          cfg.beta2.toNat ≤ ct.ctr.count) := by
  obtain ⟨fuel, txn, t, -, htxn, hsets, hfold, hsome, hlate⟩ := hrun.verdict hstep
  obtain ⟨hscore, htally⟩ := streak_tally hrule hfold
  rw [hrule] at hsome hlate
  refine ⟨txn, htxn, ?_, fun hc u hu => ?_⟩
  · rw [bumpedTxns_append, List.count_append, show (bumpedTxns [Op.bump slot h true]).count h = 1
      from List.count_singleton_self]
    have hle : cfg.beta1.toNat ≤ t.count ∨ cfg.beta2.toNat ≤ t.count :=
      hsome.imp of_decide_eq_true of_decide_eq_true
    omega
  · obtain ⟨ct, hct, hlast, hle⟩ := htally u hu
    exact ⟨ct, hsets ▸ hct, hlast, (of_decide_eq_true (hlate hc)).trans hle⟩

theorem bumpedTxns_eq_map (ops : List Op) : bumpedTxns ops = (bumpedSlots ops).map Prod.snd := by
  induction ops with
  | nil => rfl
  | cons op ops ih =>
    cases op with
    | bump slot h b => simpa [bumpedTxns, bumpedSlots] using ih
    | _ => simpa [bumpedTxns, bumpedSlots] using ih

/-- As many slots bumped `t` as there are bumps of it. -/
theorem exists_slots {ops : List Op} (hnd : (bumpedSlots ops).Nodup) (t : Hash) :
    ∃ slots : Finset Slot, slots.card = (bumpedTxns ops).count t ∧
      ∀ σ ∈ slots, ∃ pre b post, ops = pre ++ .bump σ t b :: post := by
  refine ⟨(((bumpedSlots ops).filter fun p => decide (p.2 = t)).map Prod.fst).toFinset, ?_, ?_⟩
  · rw [List.toFinset_card_of_nodup, List.length_map, ← List.countP_eq_length_filter,
      bumpedTxns_eq_map, List.count_eq_countP, List.countP_map]
    · rfl
    · refine (hnd.filter _).map_on ?_
      rintro ⟨σ, x⟩ hx ⟨τ, y⟩ hy hστ
      have hxt : x = t := by simpa using (List.mem_filter.mp hx).2
      have hyt : y = t := by simpa using (List.mem_filter.mp hy).2
      rw [hxt, hyt, show σ = τ from hστ]
  · intro σ hσ
    rw [List.mem_toFinset, List.mem_map] at hσ
    obtain ⟨⟨σ', x⟩, hin, rfl⟩ := hσ
    obtain ⟨hslot, hx⟩ := List.mem_filter.mp hin
    have hx' : x = t := by simpa using hx
    subst hx'
    obtain ⟨b, hop⟩ := mem_bumpedSlots.mp hslot
    obtain ⟨pre, post, hsplit⟩ := List.append_of_mem hop
    exact ⟨pre, b, post, hsplit⟩

/-- After `ops`, at least `n` distinct slots of decided blocks have bumped `t`,
each with enough votes for a transaction that reached `t` at the time. -/
def Backed (cfg : Config C) (finishedQuery : Finset Nat) (ops : List Op) (t : Hash) (n : Nat) :
    Prop :=
  ∃ slots : Finset Slot, n ≤ slots.card ∧ ∀ σ ∈ slots, σ.1 ∈ finishedQuery ∧
    ∃ pre b post, ops = pre ++ .bump σ t b :: post ∧ Justified cfg pre σ t

theorem HistInv.backed {finishedQuery : Finset Nat} {l : Ledger C} {ops post : List Op}
    (h : HistInv cfg (fun σ => σ.1 ∈ finishedQuery) l) (hsplit : l.history = ops ++ post)
    (t : Hash) : Backed cfg finishedQuery ops t ((bumpedTxns ops).count t) := by
  have hnd : (bumpedSlots ops).Nodup := by
    have := h.nodup
    rw [hsplit, bumpedSlots_append] at this
    exact this.of_append_left
  obtain ⟨slots, hcard, hslots⟩ := exists_slots hnd t
  refine ⟨slots, hcard.ge, fun σ hσ => ?_⟩
  obtain ⟨pre, b, post', rfl⟩ := hslots σ hσ
  have hsplit' : l.history = pre ++ .bump σ t b :: (post' ++ post) := by
    rw [hsplit, List.append_assoc, List.cons_append]
  refine ⟨h.asked_of_bumped (x := t) (mem_bumpedSlots.mpr ⟨b, by simp [hsplit']⟩), ?_⟩
  exact ⟨pre, b, post', rfl, h.bumps pre σ t b (post' ++ post) hsplit'⟩

/-- The last `n` outcomes that touch the conflict set `u` were successes through
`t`. -/
def LastThrough (pool : Hash → Option AvalancheTxn) (ops : List Op) (t : Hash) (n : Nat)
    (u : Utxo) : Prop :=
  ∃ earlier trail, outcomes pool u ops = earlier ++ trail ∧ AllThrough t trail ∧ n ≤ trail.length

/-- Avalanche accepts for a reason. What is emitted is emitted once, is no
`Noop` or `PlaceHolder`, and was accepted right after a bump. At such a bump of
a `Send` with distinct inputs, enough slots stand behind it; and if it is
contested or waits for a parent, the last `beta2` outcomes for each of its
conflict sets were successes through it. The operations of the history are those
of the queries: a slot with enough votes bumps exactly what its transaction
reaches in the DAG, any other resets exactly that. -/
theorem acceptance_sound {cfg : Config Streak} (hrule : cfg.rule = avalancheRule)
    {tr : List Call} {s : Decision Streak} (h : Run cfg tr s) :
    ((emitted tr).map cfg.ids.txnId).Nodup ∧
    (∀ txn ∈ emitted tr, txn.commits = true ∧ ∃ pre slot post, s.history =
      pre ++ .bump slot (cfg.ids.txnId txn) true :: .accept (cfg.ids.txnId txn) :: post) ∧
    (∀ pre slot t post sender inUtxo receiver outUtxo remainder sig,
      s.history = pre ++ .bump slot t true :: post →
      s.txnPool t = some (.send sender inUtxo receiver outUtxo remainder sig) → inUtxo.Nodup →
      ∃ l, LedgerRun cfg pre l ∧
        Backed cfg s.finishedQuery (pre ++ [.bump slot t true]) t
          (min cfg.beta1.toNat cfg.beta2.toNat) ∧
        (HasRival l t (.send sender inUtxo receiver outUtxo remainder sig) ∨
          (∃ p ∈ inUtxo, l.txnDag p ≠ none) → ∀ p ∈ inUtxo,
          LastThrough l.txnPool (pre ++ [.bump slot t true]) t cfg.beta2.toNat (p, sender))) ∧
    (∀ pre slot root votes post, s.history = pre ++ .ask slot root votes :: post →
      ∃ ops rest l l' commits, post = ops ++ rest ∧ LedgerRun cfg pre l ∧
        Decided cfg slot l root votes ops l' commits) := by
  have hinv := runInv_run h
  obtain ⟨hpre, hknown⟩ := hinv.emitted_ids
  refine ⟨?_, ?_, ?_, hinv.hist.exact⟩
  · exact (hinv.hist.run.accepts.nodup.filter _).sublist hpre.sublist
  · intro txn htxn
    have hc := mem_committedTxns.mp (hpre.subset (List.mem_map_of_mem htxn))
    obtain ⟨hacc, txn', hpool, hcommits⟩ := hc
    rw [hknown txn htxn, Option.some.injEq] at hpool
    subst hpool
    exact ⟨hcommits, hinv.hist.run.accept_after_bump hacc⟩
  · intro pre slot t post sender inUtxo receiver outUtxo remainder sig hsplit hpool hnd
    have hrun : LedgerRun cfg (pre ++ .bump slot t true :: post) s.toLedger :=
      hsplit ▸ hinv.hist.run
    obtain ⟨l₁, l₂, hl₁, hstep, hl₂, hsame, hpost⟩ := hrun.at_bump
    obtain ⟨txn, htxn, hmin, hlate⟩ := LedgerRun.streak_verdict hrule hl₁ hstep
    -- what is recorded now was recorded then
    have he := (pool_ops hpost (hsame ▸ htxn)).symm.trans hpool
    rw [Option.some.injEq] at he
    subst he
    refine ⟨l₁, hl₁, ?_, fun hcontested p hp => ?_⟩
    · have hsplit' : s.toLedger.history = (pre ++ [.bump slot t true]) ++ post := by
        rw [hsplit, List.append_assoc]
        rfl
      obtain ⟨slots, hcard, hslots⟩ := hinv.hist.backed hsplit' t
      exact ⟨slots, hmin.trans hcard, hslots⟩
    · have hu : (p, sender) ∈ (AvalancheTxn.send sender inUtxo receiver outUtxo remainder
          sig).utxos := List.mem_map_of_mem hp
      obtain ⟨ct, hct, hlast, hbeta⟩ := hlate hcontested (p, sender) hu
      obtain ⟨-, earlier, trail, hout, hthrough, hle⟩ :=
        LedgerRun.streaks hrule hl₂ (p, sender) ct t hct hlast
      rw [LedgerRun.history hl₂, hsame] at hout
      refine ⟨earlier, trail, hout, hthrough, hbeta.trans (hle.trans ?_)⟩
      have hone : mult l₂.txnPool (p, sender) t ≤ 1 := by
        rw [hsame, mult_some htxn]
        refine List.nodup_iff_count_le_one.mp ?_ _
        exact hnd.map fun a b hab => (Prod.mk.inj hab).1
      calc mult l₂.txnPool (p, sender) t * trail.length ≤ 1 * trail.length :=
            Nat.mul_le_mul_right _ hone
        _ = trail.length := Nat.one_mul _

/-- A peer brings a `Send`, and two queries for another that spends the same
output succeed. -/
def contestedQueries : List Call :=
  [.newTail 1 [⟨1, 1, 0, [demoSend 1]⟩], demoVote 1, demoBlock 1 [demoSend 2], demoVote 2,
    demoBlock 2 [demoSend 2], .commit 1 [], .commit 2 [demoSend 2]]

/-- What the stage had done when the second `Send` was accepted. -/
def contestedHistory : List Op :=
  [.record (demoSend 1), .check 7, .record (demoSend 2), .check 8, .ask (1, 0) 8 1,
    .bump (1, 0) 8 false, .check 8, .ask (2, 0) 8 2]

/-- The first query is not enough, since there is a rival. -/
theorem acceptance_sound_demo :
    ∃ s, Run (demo avalancheRule 1 2) contestedQueries s ∧
      s.history = contestedHistory ++ .bump (2, 0) 8 true :: [.accept 8] ∧
      Backed (demo avalancheRule 1 2) s.finishedQuery
        (contestedHistory ++ [.bump (2, 0) 8 true]) 8 1 ∧
      ∃ l, LedgerRun (demo avalancheRule 1 2) contestedHistory l ∧ HasRival l 8 (demoSend 2) ∧
        LastThrough l.txnPool (contestedHistory ++ [.bump (2, 0) 8 true]) 8 2 (5, [1]) := by
  have hcheck : returns (runCalls (demo avalancheRule 1 2) 20 contestedQueries) (fun s =>
      s.txnPool 8 = some (demoSend 2) &&
        s.history = contestedHistory ++ .bump (2, 0) 8 true :: [.accept 8]) = true := by
    decide +kernel
  obtain ⟨s, hs, hcheck⟩ := returns_iff.mp hcheck
  simp only [Bool.and_eq_true, decide_eq_true_eq] at hcheck
  obtain ⟨hpool, hhist⟩ := hcheck
  have hrun := run_of_runCalls hs
  obtain ⟨-, -, haccept, -⟩ := acceptance_sound rfl hrun
  obtain ⟨l, hl, hbacked, hlast⟩ :=
    haccept _ _ _ _ _ _ _ _ _ _ hhist hpool (List.nodup_singleton 5)
  -- the peer's transaction had been recorded
  have hrival : HasRival l 8 (demoSend 2) := by
    refine ⟨7, demoSend 1, (hl.recorded 7 (demoSend 1)).mpr ⟨by decide, rfl⟩, by decide, ?_⟩
    exact ⟨(5, [1]), by decide, by decide⟩
  exact ⟨s, hrun, hhist, hbacked, l, hl, hrival, hlast (Or.inl hrival) 5 (by decide)⟩

/-! ## Two conflicting acceptances -/

/-- `b` was accepted after `a`, and between the two acceptances so many slots
bumped `b` that `m` times their number reaches `beta2`. -/
def Late (cfg : Config C) (history : List Op) (m : Nat) (a b : Hash) : Prop :=
  ∃ pre σ mid τ post,
    history = pre ++ .bump σ a true :: (mid ++ .bump τ b true :: post) ∧
    ∃ slots : Finset Slot, cfg.beta2.toNat ≤ m * slots.card ∧
      ∀ ρ ∈ slots, ∃ v, .bump ρ b v ∈ mid ++ [.bump τ b true]

/-- The slots of `Late` are found by counting. -/
theorem Late.of_count {history pre mid post : List Op} {σ τ : Slot} {m : Nat} {a b : Hash}
    (hnd : (bumpedSlots history).Nodup)
    (hsplit : history = pre ++ .bump σ a true :: (mid ++ .bump τ b true :: post))
    (hle : cfg.beta2.toNat ≤ m * (bumpedTxns (mid ++ [.bump τ b true])).count b) :
    Late cfg history m a b := by
  have hseg : history = (pre ++ [.bump σ a true]) ++ ((mid ++ [.bump τ b true]) ++ post) := by
    rw [hsplit]
    simp
  have hnd' : (bumpedSlots (mid ++ [.bump τ b true])).Nodup := by
    rw [hseg, bumpedSlots_append, bumpedSlots_append (mid ++ _)] at hnd
    exact hnd.of_append_right.of_append_left
  obtain ⟨slots, hcard, hslots⟩ := exists_slots hnd' b
  refine ⟨pre, σ, mid, τ, post, hsplit, slots, hcard ▸ hle, fun ρ hρ => ?_⟩
  obtain ⟨pre', v, post', he⟩ := hslots ρ hρ
  exact ⟨v, by rw [he]; simp⟩

/-- Of two different bumps in a history, one comes first. -/
theorem two_bumps {history pre pre' post post' : List Op} {σ τ : Slot} {a b : Hash} (hab : a ≠ b)
    (ha : history = pre ++ .bump σ a true :: post)
    (hb : history = pre' ++ .bump τ b true :: post') :
    (∃ mid, history = pre ++ .bump σ a true :: (mid ++ .bump τ b true :: post')) ∨
      ∃ mid, history = pre' ++ .bump τ b true :: (mid ++ .bump σ a true :: post) := by
  have he : (pre ++ [.bump σ a true]) ++ post = pre' ++ .bump τ b true :: post' := by
    rw [← hb, ha]
    simp
  rcases append_eq_split he with ⟨mid, hl⟩ | ⟨mid, hpre', -⟩
  · -- `b` stands in front of `a`
    rcases append_eq_split hl with ⟨mid', hpre⟩ | ⟨mid', -, hr⟩
    · exact Or.inr ⟨mid', by rw [ha, hpre]; simp⟩
    · cases mid' with
      | nil => exact absurd hr (by simp [hab])
      | cons x xs => exact absurd hr (by simp)
  · exact Or.inl ⟨mid, by rw [hb, hpre']; simp⟩

/-- The later of two acceptances: what was recorded when it was decided. -/
theorem LedgerRun.second_bump {l : Ledger C} {pre mid post : List Op} {σ τ : Slot} {a b : Hash}
    {ta tb : AvalancheTxn}
    (h : LedgerRun cfg (pre ++ .bump σ a true :: (mid ++ .bump τ b true :: post)) l)
    (ha : l.txnPool a = some ta) (hb : l.txnPool b = some tb) :
    ∃ l₁ l₂, LedgerRun cfg (pre ++ .bump σ a true :: mid) l₁ ∧
      OpStep cfg l₁ (.bump τ b true) l₂ ∧
      LedgerRun cfg ((pre ++ .bump σ a true :: mid) ++ [.bump τ b true]) l₂ ∧
      l₂.txnPool = l₁.txnPool ∧ l₁.txnPool a = some ta ∧ l₁.txnPool b = some tb ∧
      Ops cfg l₂ post l := by
  have h' : LedgerRun cfg ((pre ++ .bump σ a true :: mid) ++ .bump τ b true :: post) l := by
    rw [List.append_assoc]
    exact h
  obtain ⟨l₁, l₂, hl₁, hstep, hl₂, hpool, hpost⟩ := h'.at_bump
  have hold : ∀ x, l₂.txnPool x ≠ none → l₁.txnPool x = l.txnPool x := by
    intro x hx
    obtain ⟨txn, htxn⟩ := Option.ne_none_iff_exists'.mp hx
    rw [pool_ops hpost htxn, ← hpool, htxn]
  have hbumped : ∀ x ∈ bumpedTxns ((pre ++ .bump σ a true :: mid) ++ [.bump τ b true]),
      l₂.txnPool x ≠ none := by
    have := (LedgerRun.counts hl₂).bumped
    rwa [LedgerRun.history hl₂] at this
  refine ⟨l₁, l₂, hl₁, hstep, hl₂, hpool, ?_, ?_, hpost⟩
  · rw [hold a (hbumped a (mem_bumpedTxns.mpr ⟨σ, true, by simp⟩)), ha]
  · rw [hold b (hbumped b (mem_bumpedTxns.mpr ⟨τ, true, by simp⟩)), hb]

/-- A trail of successes through `t` is as long as the number of bumps of `t` in
it. -/
theorem AllThrough.count {t : Hash} {trail : List Op} (h : AllThrough t trail) :
    (bumpedTxns trail).count t = trail.length := by
  induction trail with
  | nil => rfl
  | cons op trail ih =>
    obtain ⟨slot, b, rfl⟩ := h op (by simp)
    have ih := ih fun op hop => h op (List.mem_cons_of_mem _ hop)
    show (t :: bumpedTxns trail).count t = trail.length + 1
    rw [List.count_cons_self, ih]

/-- In Avalanche the streak of the second acceptance began after the first. -/
theorem LedgerRun.streak_late {cfg : Config Streak} (hrule : cfg.rule = avalancheRule)
    {l : Ledger Streak} {pre mid post : List Op} {σ τ : Slot} {a b : Hash}
    {ta tb : AvalancheTxn} {u : Utxo}
    (h : LedgerRun cfg (pre ++ .bump σ a true :: (mid ++ .bump τ b true :: post)) l)
    (hab : a ≠ b) (ha : l.txnPool a = some ta) (hb : l.txnPool b = some tb)
    (hua : u ∈ ta.utxos) (hub : u ∈ tb.utxos) :
    cfg.beta2.toNat ≤ tb.utxos.count u * (bumpedTxns (mid ++ [.bump τ b true])).count b := by
  obtain ⟨l₁, l₂, hl₁, hstep, hl₂, hpool, ha₁, hb₁, -⟩ := h.second_bump ha hb
  obtain ⟨txn, htxn, -, hlate⟩ := LedgerRun.streak_verdict hrule hl₁ hstep
  have he : txn = tb := Option.some.inj (htxn.symm.trans hb₁)
  subst he
  obtain ⟨ct, hct, hlast, hbeta⟩ := hlate (Or.inl ⟨a, ta, ha₁, hab, u, hub, hua⟩) u hub
  obtain ⟨-, earlier, trail, hout, hthrough, hle⟩ := LedgerRun.streaks hrule hl₂ u ct b hct hlast
  rw [hpool, mult_some hb₁] at hle
  refine hbeta.trans (hle.trans (Nat.mul_le_mul_left _ ?_))
  -- the success through `a` breaks the streak
  have htouch : touchesSet l₂.txnPool u (.bump σ a true) = true := by
    rw [touchesSet, hpool, mult_some ha₁]
    exact decide_eq_true (List.count_pos_iff.mpr hua)
  have hsplit : earlier ++ trail = outcomes l₂.txnPool u pre ++
      .bump σ a true :: outcomes l₂.txnPool u (mid ++ [.bump τ b true]) := by
    rw [← hout, LedgerRun.history hl₂, List.append_assoc, outcomes_append, List.cons_append]
    congr 1
    exact List.filter_cons_of_pos htouch
  rcases append_eq_split hsplit with ⟨later, hearlier⟩ | ⟨within, -, htrail⟩
  · have hsuffix : outcomes l₂.txnPool u (mid ++ [.bump τ b true]) = later ++ trail := by
      rw [hearlier, List.append_assoc, List.append_cancel_left_eq, List.cons_append,
        List.cons.injEq] at hsplit
      exact hsplit.2.symm
    have hsub : trail.Sublist (mid ++ [.bump τ b true]) := by
      refine (List.sublist_append_right later trail).trans ?_
      rw [← hsuffix]
      exact List.filter_sublist
    rw [← hthrough.count]
    exact (hsub.filterMap _).count_le b
  · obtain ⟨slot, v, hop⟩ := hthrough (.bump σ a true) (by rw [htrail]; simp)
    simp only [Op.bump.injEq] at hop
    exact absurd hop.2.1 hab

/-- The verdict in Blizzard, where the sum fits later on. -/
theorem LedgerRun.weighed {cfg : Config Nat} (hrule : cfg.rule = blizzardRule)
    {l l' l'' : Ledger Nat} {ops rest : List Op} {slot : Slot} {h : Hash}
    (hrun : LedgerRun cfg ops l) (hstep : OpStep cfg l (.bump slot h true) l')
    (hrest : Ops cfg l' rest l'') {txn : AvalancheTxn} (htxn : l.txnPool h = some txn)
    (hfits : Fits cfg l'' txn) :
    ∃ fuel t, l.confidence h = some ((bumpedTxns ops).count h) ∧
      txn.utxos.foldlM (bumpInput cfg fuel (raised l h ((bumpedTxns ops).count h + 1)) h
          ((bumpedTxns ops).count h + 1))
        ⟨l.conflictSets, l.preferenceCache, false,
          cfg.rule.start ((bumpedTxns ops).count h + 1)⟩ = .ok t ∧
      min cfg.beta1.toNat cfg.beta2.toNat + t.count ≤ (bumpedTxns ops).count h + 1 ∧
      (HasRival l h txn ∨ (∃ p ∈ txn.parents, l.txnDag p ≠ none) →
        cfg.beta2.toNat + t.count ≤ (bumpedTxns ops).count h + 1) := by
  obtain ⟨fuel, txn', t, hconf, htxn', hsets, hfold, hsome, hlate⟩ := hrun.verdict hstep
  obtain rfl : txn' = txn := Option.some.inj (htxn'.symm.trans htxn)
  have hpool : l'.txnPool = l.txnPool := by
    cases effect_of_op hstep with
    | bump _ _ hpool => exact hpool
    | idle hop => simp at hop
  have hrun' : LedgerRun cfg (ops ++ [.bump slot h true]) l' := .snoc hrun trivial hstep
  -- the rounds only grow after the bump
  have hgrow : (txn'.utxos.map (roundsOf t.conflictSets)).sum ≤
      (txn'.utxos.map (roundsOf l''.conflictSets)).sum := by
    rw [← hsets]
    exact List.sum_le_sum fun u hu =>
      LedgerRun.rounds_le hrule hrun' hrest (hpool ▸ htxn) hu
  have htally := rounds_tally_le hrule hfold
  unfold Fits at hfits
  have h₁ : cfg.beta1.toNat + t.count < 2 ^ 64 := by omega
  have h₂ : cfg.beta2.toNat + t.count < 2 ^ 64 := by omega
  rw [hrule, blizzard_accepts h₁, blizzard_accepts h₂] at hsome
  rw [hrule, blizzard_accepts h₂] at hlate
  exact ⟨fuel, t, hconf, hrule ▸ hfold, by omega, hlate⟩

/-- What an acceptance in Blizzard rests on: the rounds of each conflict set
that went to others. -/
theorem LedgerRun.rounds_verdict {cfg : Config Nat} (hrule : cfg.rule = blizzardRule)
    {l l' l'' : Ledger Nat} {ops rest : List Op} {slot : Slot} {h : Hash}
    (hrun : LedgerRun cfg ops l) (hstep : OpStep cfg l (.bump slot h true) l')
    (hrest : Ops cfg l' rest l'') {txn : AvalancheTxn} (htxn : l.txnPool h = some txn)
    (hfits : Fits cfg l'' txn) {u : Utxo} (hu : u ∈ txn.utxos) :
    ((bumpedTxns ops).map (mult l.txnPool u)).sum ≤ 2 * (bumpedTxns ops).count h + 1 ∧
      (HasRival l h txn →
        cfg.beta2.toNat + ((bumpedTxns ops).map (mult l.txnPool u)).sum ≤
          2 * (bumpedTxns ops).count h + 1) := by
  obtain ⟨fuel, t, -, hfold, hmin, hlate⟩ :=
    LedgerRun.weighed hrule hrun hstep hrest htxn hfits
  obtain ⟨ct, hct⟩ := hrun.inv.entered h txn htxn u hu
  have htally := rounds_tally hrule hfold u hu ct hct
  have hrounds := hrun.rounds hrule u ct hct
  rw [hrun.history] at hrounds
  rw [← hrounds]
  refine ⟨by omega, fun hrival => ?_⟩
  have := hlate (Or.inl hrival)
  omega

/-- In Blizzard the second acceptance has to outweigh the first. -/
theorem LedgerRun.rounds_late {cfg : Config Nat} (hrule : cfg.rule = blizzardRule)
    {l : Ledger Nat} {pre mid post : List Op} {σ τ : Slot} {a b : Hash}
    {ta tb : AvalancheTxn} {u : Utxo}
    (h : LedgerRun cfg (pre ++ .bump σ a true :: (mid ++ .bump τ b true :: post)) l)
    (hab : a ≠ b) (ha : l.txnPool a = some ta) (hb : l.txnPool b = some tb)
    (hua : u ∈ ta.utxos) (hub : u ∈ tb.utxos) (hfa : Fits cfg l ta) (hfb : Fits cfg l tb) :
    cfg.beta2.toNat ≤ (bumpedTxns (mid ++ [.bump τ b true])).count b := by
  obtain ⟨l₁, l₂, hl₁, hstep₁, -, hpool₁, ha₁, hb₁, hrest₁⟩ := h.second_bump ha hb
  obtain ⟨l₀, l₀', hl₀, hstep₀, -, hpool₀, hrest⟩ := h.at_bump
  -- the rounds before the first acceptance: at most one more for `b` than for `a`
  have ha₀ : l₀.txnPool a = some ta := by
    obtain ⟨-, txn, -, -, htxn, -⟩ := LedgerRun.verdict hl₀ hstep₀
    rw [htxn, ← ha, pool_ops hrest (hpool₀ ▸ htxn)]
  have hfirst : (bumpedTxns pre).count b ≤ (bumpedTxns pre).count a + 1 := by
    have hle := (LedgerRun.rounds_verdict hrule hl₀ hstep₀ hrest ha₀ hfa hua).1
    by_cases hmem : b ∈ bumpedTxns pre
    · have hb₀ : l₀.txnPool b = some tb := by
        have hne := (LedgerRun.counts hl₀).bumped b (by rwa [LedgerRun.history hl₀])
        obtain ⟨txn, htxn⟩ := Option.ne_none_iff_exists'.mp hne
        rw [htxn, ← hb, pool_ops hrest (hpool₀ ▸ htxn)]
      have hsum := count_add_count_le_sum (f := mult l₀.txnPool u) hab
        (by rw [mult_some ha₀]; exact List.count_pos_iff.mpr hua)
        (by rw [mult_some hb₀]; exact List.count_pos_iff.mpr hub) (bumpedTxns pre)
      omega
    · rw [List.count_eq_zero_of_not_mem hmem]
      exact Nat.zero_le _
  -- the rounds before the second one
  have hsecond := (LedgerRun.rounds_verdict hrule hl₁ hstep₁ hrest₁ hb₁ hfb hub).2
    ⟨a, ta, ha₁, hab, u, hub, hua⟩
  have hsum := count_add_count_le_sum (f := mult l₁.txnPool u) hab
    (by rw [mult_some ha₁]; exact List.count_pos_iff.mpr hua)
    (by rw [mult_some hb₁]; exact List.count_pos_iff.mpr hub)
    (bumpedTxns (pre ++ .bump σ a true :: mid))
  have hsplit : bumpedTxns (pre ++ .bump σ a true :: mid) =
      bumpedTxns pre ++ a :: bumpedTxns mid := bumpedTxns_append _ _
  rw [hsplit, List.count_append, List.count_append, List.count_cons_self,
    List.count_cons_of_ne hab] at hsum
  rw [hsplit, List.count_append, List.count_cons_of_ne hab] at hsecond
  rw [bumpedTxns_append, List.count_append, show (bumpedTxns [Op.bump τ b true]).count b = 1
    from List.count_singleton_self]
  omega

/-- Two emitted transactions were accepted one after the other. -/
theorem RunInv.accepted_in_order {tr : List Call} {s : Decision C} (hinv : RunInv cfg tr s)
    {a b : AvalancheTxn} (ha : a ∈ emitted tr) (hb : b ∈ emitted tr) (hab : a ≠ b) :
    cfg.ids.txnId a ≠ cfg.ids.txnId b ∧ ∃ pre σ mid τ post,
      s.history = pre ++ .bump σ (cfg.ids.txnId a) true ::
        (mid ++ .bump τ (cfg.ids.txnId b) true :: post) ∨
      s.history = pre ++ .bump σ (cfg.ids.txnId b) true ::
        (mid ++ .bump τ (cfg.ids.txnId a) true :: post) := by
  obtain ⟨hpre, hknown⟩ := hinv.emitted_ids
  have hne : cfg.ids.txnId a ≠ cfg.ids.txnId b := by
    intro he
    have := hknown a ha
    rw [he, hknown b hb, Option.some.injEq] at this
    exact hab this.symm
  have hbump : ∀ x ∈ emitted tr, ∃ pre slot post,
      s.history = pre ++ .bump slot (cfg.ids.txnId x) true :: post := by
    intro x hx
    have hacc := (mem_committedTxns.mp (hpre.subset (List.mem_map_of_mem hx))).1
    obtain ⟨pre, slot, post, he⟩ := hinv.hist.run.accept_after_bump hacc
    exact ⟨pre, slot, _, he⟩
  obtain ⟨pre, σ, post, hsa⟩ := hbump a ha
  obtain ⟨pre', τ, post', hsb⟩ := hbump b hb
  refine ⟨hne, ?_⟩
  rcases two_bumps hne hsa hsb with ⟨mid, hsplit⟩ | ⟨mid, hsplit⟩
  · exact ⟨pre, σ, mid, τ, post', Or.inl hsplit⟩
  · exact ⟨pre', τ, mid, σ, post, Or.inr hsplit⟩

/-- **Two conflicting commits.** Neither rule excludes them, but the second
acceptance is never an early one: after the first, at least `beta2` slots bumped
the second transaction. In Avalanche an output that is listed more than once
counts that often. In Blizzard the sums with `beta` have to fit. -/
theorem conflicting_commits :
    (∀ (cfg : Config Streak) (tr : List Call) (s : Decision Streak),
      cfg.rule = avalancheRule → Run cfg tr s → ∀ a ∈ emitted tr, ∀ b ∈ emitted tr, a ≠ b →
      ∀ u ∈ a.utxos, u ∈ b.utxos →
      Late cfg s.history (b.utxos.count u) (cfg.ids.txnId a) (cfg.ids.txnId b) ∨
        Late cfg s.history (a.utxos.count u) (cfg.ids.txnId b) (cfg.ids.txnId a)) ∧
    (∀ (cfg : Config Nat) (tr : List Call) (s : Decision Nat),
      cfg.rule = blizzardRule → Run cfg tr s → ∀ a ∈ emitted tr, ∀ b ∈ emitted tr, a ≠ b →
      Fits cfg s.toLedger a → Fits cfg s.toLedger b → ∀ u ∈ a.utxos, u ∈ b.utxos →
      Late cfg s.history 1 (cfg.ids.txnId a) (cfg.ids.txnId b) ∨
        Late cfg s.history 1 (cfg.ids.txnId b) (cfg.ids.txnId a)) := by
  constructor
  · intro cfg tr s hrule hrun a ha b hb hab u hua hub
    have hinv := runInv_run hrun
    obtain ⟨-, hknown⟩ := hinv.emitted_ids
    obtain ⟨hne, pre, σ, mid, τ, post, hsplit | hsplit⟩ := hinv.accepted_in_order ha hb hab
    · refine Or.inl (Late.of_count hinv.hist.nodup hsplit ?_)
      exact LedgerRun.streak_late hrule (hsplit ▸ hinv.hist.run) hne (hknown a ha) (hknown b hb)
        hua hub
    · refine Or.inr (Late.of_count hinv.hist.nodup hsplit ?_)
      exact LedgerRun.streak_late hrule (hsplit ▸ hinv.hist.run) hne.symm (hknown b hb)
        (hknown a ha) hub hua
  · intro cfg tr s hrule hrun a ha b hb hab hfa hfb u hua hub
    have hinv := runInv_run hrun
    obtain ⟨-, hknown⟩ := hinv.emitted_ids
    obtain ⟨hne, pre, σ, mid, τ, post, hsplit | hsplit⟩ := hinv.accepted_in_order ha hb hab
    · refine Or.inl (Late.of_count hinv.hist.nodup hsplit ?_)
      rw [Nat.one_mul]
      exact LedgerRun.rounds_late hrule (hsplit ▸ hinv.hist.run) hne (hknown a ha) (hknown b hb)
        hua hub hfa hfb
    · refine Or.inr (Late.of_count hinv.hist.nodup hsplit ?_)
      rw [Nat.one_mul]
      exact LedgerRun.rounds_late hrule (hsplit ▸ hinv.hist.run) hne.symm (hknown b hb)
        (hknown a ha) hub hua hfb hfa

/-- One query for a `Send`, and then three for another that spends the same
output. -/
def conflictingQueries : List Call :=
  [demoBlock 1 [demoSend 1], demoVote 2, demoBlock 2 [demoSend 2], demoVote 3,
    demoBlock 3 [demoSend 2], demoVote 4, demoBlock 4 [demoSend 2], .commit 1 [demoSend 1],
    .commit 2 []]

/-- The two `Send`s are committed, in Avalanche after the second query for the
second one, in Blizzard after the third: the first one was accepted early. -/
theorem conflict_committed :
    (∃ s, Run (demo avalancheRule 1 2) (conflictingQueries ++ [.commit 3 [demoSend 2]]) s) ∧
    (∃ s, Run (demo blizzardRule 1 2)
      (conflictingQueries ++ [.commit 3 [], .commit 4 [demoSend 2]]) s) ∧
    emitted (conflictingQueries ++ [.commit 3 [demoSend 2]]) = [demoSend 1, demoSend 2] ∧
    emitted (conflictingQueries ++ [.commit 3 [], .commit 4 [demoSend 2]]) =
      [demoSend 1, demoSend 2] ∧
    demoSend 1 ≠ demoSend 2 ∧ (5, [1]) ∈ (demoSend 1).utxos ∧ (5, [1]) ∈ (demoSend 2).utxos := by
  have hava : returns (runCalls (demo avalancheRule 1 2) 20
      (conflictingQueries ++ [.commit 3 [demoSend 2]])) (fun _ => true) = true := by
    decide +kernel
  have hbli : returns (runCalls (demo blizzardRule 1 2) 20
      (conflictingQueries ++ [.commit 3 [], .commit 4 [demoSend 2]])) (fun _ => true) = true := by
    decide +kernel
  obtain ⟨s, hs, -⟩ := returns_iff.mp hava
  obtain ⟨s', hs', -⟩ := returns_iff.mp hbli
  exact ⟨⟨s, run_of_runCalls hs⟩, ⟨s', run_of_runCalls hs'⟩, rfl, rfl, by decide, by decide,
    by decide⟩

/-- The order in which the two were accepted, under each rule. -/
theorem conflicting_commits_demo :
    (∃ s, Run (demo avalancheRule 1 2) (conflictingQueries ++ [.commit 3 [demoSend 2]]) s ∧
      (Late (demo avalancheRule 1 2) s.history 1 7 8 ∨
        Late (demo avalancheRule 1 2) s.history 1 8 7)) ∧
    (∃ s, Run (demo blizzardRule 1 2)
        (conflictingQueries ++ [.commit 3 [], .commit 4 [demoSend 2]]) s ∧
      (Late (demo blizzardRule 1 2) s.history 1 7 8 ∨
        Late (demo blizzardRule 1 2) s.history 1 8 7)) := by
  have hava : returns (runCalls (demo avalancheRule 1 2) 20
      (conflictingQueries ++ [.commit 3 [demoSend 2]])) (fun _ => true) = true := by
    decide +kernel
  have hbli : returns (runCalls (demo blizzardRule 1 2) 20
      (conflictingQueries ++ [.commit 3 [], .commit 4 [demoSend 2]])) (fun s =>
        decide (Fits (demo blizzardRule 1 2) s.toLedger (demoSend 1) ∧
          Fits (demo blizzardRule 1 2) s.toLedger (demoSend 2))) = true := by
    decide +kernel
  obtain ⟨s, hs, -⟩ := returns_iff.mp hava
  obtain ⟨s', hs', hfits⟩ := returns_iff.mp hbli
  obtain ⟨hfits₁, hfits₂⟩ := of_decide_eq_true hfits
  have hrun := run_of_runCalls hs
  have hrun' := run_of_runCalls hs'
  refine ⟨⟨s, hrun, ?_⟩, s', hrun', ?_⟩
  · exact conflicting_commits.1 _ _ s rfl hrun (demoSend 1)
      (by simp [emitted, conflictingQueries, Call.emits]) (demoSend 2)
      (by simp [emitted, Call.emits]) (by decide) (5, [1]) (by decide) (by decide)
  · exact conflicting_commits.2 _ _ s' rfl hrun' (demoSend 1)
      (by simp [emitted, conflictingQueries, Call.emits]) (demoSend 2)
      (by simp [emitted, Call.emits]) (by decide) hfits₁ hfits₂ (5, [1]) (by decide) (by decide)

end Copycat.Avalanche
