import Copycat.Avalanche.Walks

/-!
# The history of a run

Every run of the decision stage is a run of its ledger, call by call and
operation by operation. `HistInv` is what the stage adds to that: a slot is
decided once, every bump belongs to a slot that gathered enough votes and whose
transaction reached the bumped one when the slot was taken up, and no slot
bumps a transaction twice. `RunInv` adds the way out: what `next_to_commit` has
emitted, followed by what waits in the queue, is what was accepted, in that
order.
-/

namespace Copycat.Avalanche

open Copycat.Lib

variable {C : Type} {cfg : Config C}

/-- A run of the ledger. -/
abbrev LedgerRun (cfg : Config C) (ops : List Op) (l : Ledger C) : Prop :=
  (ledger cfg).Run (fun _ _ => True) ops l

theorem LedgerRun.inv {l : Ledger C} {ops : List Op} (h : LedgerRun cfg ops l) :
    LedgerInv cfg.ids l :=
  h.invariant (LedgerInv cfg.ids) (ledgerInv_new cfg.ids) fun _ _ _ hl _ hs => ledgerInv_op hl hs

theorem LedgerRun.history {l : Ledger C} {ops : List Op} (h : LedgerRun cfg ops l) :
    l.history = ops :=
  h.invariant_trace (fun ops l => l.history = ops) rfl fun _ _ _ _ ih _ hs => by
    rw [history_op hs, ih]

/-- What is recorded stays. -/
theorem pool_op {l l' : Ledger C} {op : Op} (h : OpStep cfg l op l') {x : Hash}
    {txn : AvalancheTxn} (hx : l.txnPool x = some txn) : l'.txnPool x = some txn := by
  cases h with
  | record hnew => exact recordTxn_pool_mono hnew hx
  | check hs =>
    obtain ⟨cache, -, rfl⟩ := isStronglyPreferred_cases hs
    exact hx
  | ask => exact hx
  | bump _ hb =>
    obtain ⟨n, t, ty, -, -, -, -, -, rfl, -⟩ := bump_spec hb
    exact hx
  | accept => exact hx
  | reset _ _ hr =>
    obtain ⟨t, sets, -, rfl, -⟩ := resetTxn_spec hr
    exact hx

theorem pool_ops {l l' : Ledger C} {ops : List Op} (h : Ops cfg l ops l') {x : Hash}
    {txn : AvalancheTxn} (hx : l.txnPool x = some txn) : l'.txnPool x = some txn :=
  h.invariant (fun l => l.txnPool x = some txn) (fun _ _ _ hl _ hs => pool_op hs hl) hx

/-- The DAG an operation leaves behind has nothing that was not there, but for
the transaction recorded. -/
theorem dag_op {l l' : Ledger C} {op : Op} (h : OpStep cfg l op l') {x : Hash}
    (hx : l.txnDag x = none) (hop : ∀ txn, op = .record txn → x ≠ cfg.ids.txnId txn) :
    l'.txnDag x = none := by
  cases h with
  | @record txn hnew hph =>
    have hne := hop txn rfl
    rw [recordTxn_dag, Function.update_of_ne hne, hx]
    rfl
  | check hs =>
    obtain ⟨cache, -, rfl⟩ := isStronglyPreferred_cases hs
    exact hx
  | ask => exact hx
  | bump _ hb =>
    obtain ⟨n, t, ty, -, -, -, -, -, rfl, -⟩ := bump_spec hb
    exact hx
  | @accept _ h =>
    by_cases hxh : x = h
    · simp [acceptTxn, hxh]
    · simpa [acceptTxn, hxh] using hx
  | reset _ _ hr =>
    obtain ⟨t, sets, -, rfl, -⟩ := resetTxn_spec hr
    exact hx

/-- What has been accepted is recorded, has left the DAG for good, and was
accepted once. -/
structure AcceptInv (l : Ledger C) : Prop where
  nodup : (acceptedTxns l.history).Nodup
  gone : ∀ h ∈ acceptedTxns l.history, l.txnDag h = none
  known : ∀ h ∈ acceptedTxns l.history, ∃ txn, l.txnPool h = some txn

theorem mem_acceptedTxns {ops : List Op} {h : Hash} :
    h ∈ acceptedTxns ops ↔ Op.accept h ∈ ops := by
  unfold acceptedTxns
  rw [List.mem_filterMap]
  constructor
  · rintro ⟨op, hop, he⟩
    cases op with
    | accept x =>
      simp only [Option.some.injEq] at he
      exact he ▸ hop
    | _ => exact absurd he (by simp)
  · exact fun hop => ⟨_, hop, rfl⟩

theorem mem_committedTxns {pool : Hash → Option AvalancheTxn} {ops : List Op} {h : Hash} :
    h ∈ committedTxns pool ops ↔
      h ∈ acceptedTxns ops ∧ ∃ txn, pool h = some txn ∧ txn.commits = true := by
  unfold committedTxns
  rw [List.mem_filter]
  refine and_congr_right fun _ => ?_
  cases pool h <;> simp

theorem acceptInv_op {l l' : Ledger C} {op : Op} (hshape : LedgerInv cfg.ids l)
    (hinv : AcceptInv l) (h : OpStep cfg l op l') : AcceptInv l' := by
  have hhist := history_op h
  have hknown : ∀ x ∈ acceptedTxns l.history, ∃ txn, l'.txnPool x = some txn := fun x hx => by
    obtain ⟨txn, ht⟩ := hinv.known x hx
    exact ⟨txn, pool_op h ht⟩
  have hgone : ∀ x ∈ acceptedTxns l.history, l'.txnDag x = none := by
    intro x hx
    refine dag_op h (hinv.gone x hx) ?_
    rintro txn rfl rfl
    obtain ⟨txn', ht⟩ := hinv.known _ hx
    cases h with
    | record hnew =>
      rw [ht] at hnew
      exact absurd hnew (by simp)
  cases hop : acceptedTxns [op] with
  | nil =>
    have hsame : acceptedTxns l'.history = acceptedTxns l.history := by
      rw [hhist, acceptedTxns_append, hop, List.append_nil]
    exact ⟨hsame ▸ hinv.nodup, hsame ▸ hgone, hsame ▸ hknown⟩
  | cons x rest =>
    have hmem : x ∈ acceptedTxns [op] := by rw [hop]; simp
    have hacc := List.mem_singleton.mp (mem_acceptedTxns.mp hmem)
    subst hacc
    have hsame : acceptedTxns l'.history = acceptedTxns l.history ++ [x] := by
      rw [hhist, acceptedTxns_append]
      rfl
    cases h with
    | accept hdag hlast =>
      obtain ⟨node, hnode⟩ := Option.ne_none_iff_exists'.mp hdag
      obtain ⟨txn, ht, -⟩ := hshape.node x node hnode
      refine ⟨?_, ?_, ?_⟩
      · rw [hsame, List.nodup_append]
        refine ⟨hinv.nodup, List.nodup_singleton x, fun y hy z hz hyz => ?_⟩
        rw [hyz, List.mem_singleton.mp hz] at hy
        exact hdag (hinv.gone x hy)
      · rw [hsame]
        intro y hy
        rcases List.mem_append.mp hy with hy | hy
        · exact hgone y hy
        · rw [List.mem_singleton.mp hy]
          exact Function.update_self ..
      · rw [hsame]
        intro y hy
        rcases List.mem_append.mp hy with hy | hy
        · exact hknown y hy
        · rw [List.mem_singleton.mp hy]
          exact ⟨txn, ht⟩

theorem LedgerRun.accepts {l : Ledger C} {ops : List Op} (h : LedgerRun cfg ops l) :
    AcceptInv l := by
  refine (h.invariant (fun l => LedgerInv cfg.ids l ∧ AcceptInv l) ?_ ?_).2
  · refine ⟨ledgerInv_new cfg.ids, List.nodup_nil, ?_, ?_⟩
    · intro h hh
      exact absurd hh (by simp [ledger, Ledger.new, acceptedTxns])
    · intro h hh
      exact absurd hh (by simp [ledger, Ledger.new, acceptedTxns])
  · exact fun l op l' hl _ hs => ⟨ledgerInv_op hl.1 hs, acceptInv_op hl.1 hl.2 hs⟩

/-! ## Slots -/

/-- The slots and the transactions they bumped, in order. -/
def bumpedSlots (ops : List Op) : List (Slot × Hash) :=
  ops.filterMap fun
    | .bump slot h _ => some (slot, h)
    | _ => none

@[simp] theorem bumpedSlots_append (ops ops' : List Op) :
    bumpedSlots (ops ++ ops') = bumpedSlots ops ++ bumpedSlots ops' :=
  List.filterMap_append

theorem mem_bumpedSlots {ops : List Op} {slot : Slot} {h : Hash} :
    (slot, h) ∈ bumpedSlots ops ↔ ∃ b, Op.bump slot h b ∈ ops := by
  unfold bumpedSlots
  rw [List.mem_filterMap]
  constructor
  · rintro ⟨op, hop, he⟩
    cases op with
    | bump slot' x b =>
      simp only [Option.some.injEq, Prod.mk.injEq] at he
      obtain ⟨rfl, rfl⟩ := he
      exact ⟨b, hop⟩
    | _ => exact absurd he (by simp)
  · rintro ⟨b, hop⟩
    exact ⟨_, hop, rfl⟩

/-- Where an element of a joined list stands. -/
theorem append_eq_split {α : Type} {l r pre post : List α} {a : α}
    (h : l ++ r = pre ++ a :: post) :
    (∃ post', l = pre ++ a :: post') ∨ ∃ mid, pre = l ++ mid ∧ r = mid ++ a :: post := by
  rcases List.append_eq_append_iff.mp h with ⟨mid, hpre, hr⟩ | ⟨mid, hl, hr⟩
  · exact Or.inr ⟨mid, hpre, hr⟩
  · cases mid with
    | nil =>
      refine Or.inr ⟨[], ?_, by simpa using hr.symm⟩
      simpa using hl.symm
    | cons b mid =>
      rw [List.cons_append, List.cons.injEq] at hr
      exact Or.inl ⟨mid, by rw [hl, hr.1]⟩

/-- After `pre`, a bump of `x` by `slot` is accounted for: the slot was taken
up with enough votes, and its transaction reached `x` then. -/
def Justified (cfg : Config C) (pre : List Op) (slot : Slot) (x : Hash) : Prop :=
  ∃ pre₁ root votes mid l₁, pre = pre₁ ++ .ask slot root votes :: mid ∧
    cfg.voteThresh ≤ votes ∧ LedgerRun cfg pre₁ l₁ ∧ Reach (up l₁.txnDag) root x

/-- The history of a ledger whose decided slots are those of `asked`. -/
structure HistInv (cfg : Config C) (asked : Slot → Prop) (l : Ledger C) : Prop where
  run : LedgerRun cfg l.history l
  asks : ∀ slot h votes, Op.ask slot h votes ∈ l.history → asked slot
  bumps : ∀ pre slot x b post, l.history = pre ++ .bump slot x b :: post →
    Justified cfg pre slot x
  nodup : (bumpedSlots l.history).Nodup
  exact : ∀ pre slot root votes post, l.history = pre ++ .ask slot root votes :: post →
    ∃ ops rest l₁ l₂ c, post = ops ++ rest ∧ LedgerRun cfg pre l₁ ∧
      Decided cfg slot l₁ root votes ops l₂ c

/-- A bumped slot is a decided slot. -/
theorem HistInv.asked_of_bumped {asked : Slot → Prop} {l : Ledger C} (h : HistInv cfg asked l)
    {slot : Slot} {x : Hash} (hx : (slot, x) ∈ bumpedSlots l.history) : asked slot := by
  obtain ⟨b, hop⟩ := mem_bumpedSlots.mp hx
  obtain ⟨pre, post, hsplit⟩ := List.append_of_mem hop
  obtain ⟨pre₁, root, votes, mid, -, rfl, -⟩ := h.bumps pre slot x b post hsplit
  exact h.asks slot root votes (by rw [hsplit]; simp)

/-- Operations that decide nothing: those of a block that comes in. -/
def QuietOps (ops : List Op) : Prop :=
  ∀ op ∈ ops, (∃ x, op = .record x) ∨ ∃ x, op = .check x

theorem QuietOps.accepted {ops : List Op} (h : QuietOps ops) : acceptedTxns ops = [] := by
  rw [List.eq_nil_iff_forall_not_mem]
  intro x hx
  rcases h _ (mem_acceptedTxns.mp hx) with ⟨y, he⟩ | ⟨y, he⟩
  · exact absurd he (by simp)
  · exact absurd he (by simp)

theorem HistInv.quiet {asked : Slot → Prop} {l l' : Ledger C} {ops : List Op}
    (h : HistInv cfg asked l) (hops : Ops cfg l ops l')
    (hquiet : QuietOps ops) : HistInv cfg asked l' := by
  have hhist := history_ops hops
  have hno : bumpedSlots ops = [] := by
    rw [List.eq_nil_iff_forall_not_mem]
    rintro ⟨slot, x⟩ hx
    obtain ⟨b, hop⟩ := mem_bumpedSlots.mp hx
    rcases hquiet _ hop with ⟨y, he⟩ | ⟨y, he⟩
    · exact absurd he (by simp)
    · exact absurd he (by simp)
  refine ⟨?_, ?_, ?_, ?_, ?_⟩
  · rw [hhist]
    exact h.run.append hops
  · intro slot x votes hmem
    rw [hhist] at hmem
    rcases List.mem_append.mp hmem with hmem | hmem
    · exact h.asks slot x votes hmem
    · rcases hquiet _ hmem with ⟨y, he⟩ | ⟨y, he⟩
      · exact absurd he (by simp)
      · exact absurd he (by simp)
  · intro pre slot x b post hsplit
    rw [hhist] at hsplit
    rcases append_eq_split hsplit with ⟨post', hl⟩ | ⟨mid, -, hr⟩
    · exact h.bumps pre slot x b post' hl
    · rcases hquiet (.bump slot x b) (by rw [hr]; simp) with ⟨y, he⟩ | ⟨y, he⟩
      · exact absurd he (by simp)
      · exact absurd he (by simp)
  · rw [hhist, bumpedSlots_append, hno, List.append_nil]
    exact h.nodup
  · intro pre slot root votes post hsplit
    rw [hhist] at hsplit
    rcases append_eq_split hsplit with ⟨post', hl⟩ | ⟨mid, -, hr⟩
    · obtain ⟨ops', rest, l₁, l₂, c, rfl, hrun, hd⟩ := h.exact pre slot root votes post' hl
      refine ⟨ops', rest ++ ops, l₁, l₂, c, ?_, hrun, hd⟩
      rw [hl] at hsplit
      simpa using hsplit.symm
    · rcases hquiet (.ask slot root votes) (by rw [hr]; simp) with ⟨y, he⟩ | ⟨y, he⟩
      · exact absurd he (by simp)
      · exact absurd he (by simp)

/-- A slot that had not been decided. -/
theorem HistInv.decided {asked : Slot → Prop} {l l' : Ledger C} {slot : Slot} {root : Hash}
    {votes : Nat} {ops : List Op} {c : List Hash} (h : HistInv cfg asked l)
    (hslot : ¬ asked slot) (hd : Decided cfg slot l root votes ops l' c) :
    HistInv cfg (fun σ => asked σ ∨ σ = slot) l' := by
  have hhist := history_ops hd.path
  -- every operation of the slot carries its name
  have hname : ∀ σ x b, Op.bump σ x b ∈ ops → σ = slot ∧ cfg.voteThresh ≤ votes ∧
      Reach (up l.txnDag) root x := by
    intro σ x b hop
    rcases hd.only _ hop with ⟨y, b', he, hv, hr⟩ | ⟨y, he⟩ | ⟨y, he, -⟩
    · simp only [Op.bump.injEq] at he
      obtain ⟨rfl, rfl, rfl⟩ := he
      exact ⟨rfl, hv, hr⟩
    · exact absurd he (by simp)
    · exact absurd he (by simp)
  refine ⟨?_, ?_, ?_, ?_, ?_⟩
  · rw [hhist]
    exact h.run.append hd.path
  · intro σ x n hmem
    rw [hhist] at hmem
    rcases List.mem_append.mp hmem with hmem | hmem
    · exact Or.inl (h.asks σ x n hmem)
    · rcases List.mem_cons.mp hmem with he | hmem
      · simp only [Op.ask.injEq] at he
        exact Or.inr he.1
      · rcases hd.only _ hmem with ⟨y, b', he, -⟩ | ⟨y, he⟩ | ⟨y, he, -⟩
        · exact absurd he (by simp)
        · exact absurd he (by simp)
        · exact absurd he (by simp)
  · intro pre σ x b post hsplit
    rw [hhist] at hsplit
    rcases append_eq_split hsplit with ⟨post', hl⟩ | ⟨mid, hpre, hr⟩
    · exact h.bumps pre σ x b post' hl
    · cases mid with
      | nil =>
        rw [List.nil_append, List.cons.injEq] at hr
        exact absurd hr.1 (by simp)
      | cons a mid =>
        rw [List.cons_append, List.cons.injEq] at hr
        obtain ⟨rfl, hops⟩ := hr
        obtain ⟨rfl, hv, hreach⟩ := hname σ x b (by rw [hops]; simp)
        exact ⟨l.history, root, votes, mid, l, hpre, hv, h.run, hreach⟩
  · rw [hhist, bumpedSlots_append, List.nodup_append]
    have hseg : bumpedSlots (.ask slot root votes :: ops) = (bumpedTxns ops).map (slot, ·) := by
      have hcons : bumpedSlots (.ask slot root votes :: ops) = bumpedSlots ops := rfl
      rw [hcons]
      clear hcons hd hhist
      induction ops with
      | nil => rfl
      | cons op ops ih =>
        have ih := ih fun σ x b hop => hname σ x b (List.mem_cons_of_mem _ hop)
        cases op with
        | bump σ x b =>
          obtain ⟨rfl, -⟩ := hname σ x b (by simp)
          simpa [bumpedSlots, bumpedTxns] using ih
        | _ => exact ih
    refine ⟨h.nodup, ?_, ?_⟩
    · rw [hseg]
      exact hd.nodup.map fun x y hxy => (Prod.mk.inj hxy).2
    · rintro ⟨σ, x⟩ hx ⟨τ, y⟩ hy hxy
      rw [hseg] at hy
      obtain ⟨z, -, hz⟩ := List.mem_map.mp hy
      refine hslot ?_
      rw [(Prod.mk.inj hz).1, ← (Prod.mk.inj hxy).1]
      exact h.asked_of_bumped hx
  · intro pre σ x n post hsplit
    rw [hhist] at hsplit
    rcases append_eq_split hsplit with ⟨post', hl⟩ | ⟨mid, hpre, hr⟩
    · obtain ⟨ops', rest, l₁, l₂, c', rfl, hrun, hd'⟩ := h.exact pre σ x n post' hl
      refine ⟨ops', rest ++ .ask slot root votes :: ops, l₁, l₂, c', ?_, hrun, hd'⟩
      rw [hl] at hsplit
      simpa using hsplit.symm
    · cases mid with
      | nil =>
        -- this slot: its operations are the rest of the history
        rw [List.nil_append, List.cons.injEq, Op.ask.injEq] at hr
        obtain ⟨⟨rfl, rfl, rfl⟩, rfl⟩ := hr
        rw [List.append_nil] at hpre
        exact ⟨ops, [], l, l', c, by simp, hpre ▸ h.run, hd⟩
      | cons a mid =>
        rw [List.cons_append, List.cons.injEq] at hr
        rcases hd.only (.ask σ x n) (by rw [hr.2]; simp) with ⟨y, b', he, -⟩ | ⟨y, he⟩ | ⟨y, he, -⟩
        · exact absurd he (by simp)
        · exact absurd he (by simp)
        · exact absurd he (by simp)

theorem HistInv.weaken {asked asked' : Slot → Prop} {l : Ledger C} (h : HistInv cfg asked l)
    (himp : ∀ σ, asked σ → asked' σ) : HistInv cfg asked' l :=
  ⟨h.run, fun σ x n hmem => himp σ (h.asks σ x n hmem), h.bumps, h.nodup, h.exact⟩

/-! ## Calls -/

theorem recordIfNew_ops (cfg : Config C) (l : Ledger C) {txn : AvalancheTxn}
    (hph : txn ≠ .placeHolder) :
    ∃ ops, Ops cfg l ops (recordIfNew cfg l txn) ∧ QuietOps ops := by
  unfold recordIfNew
  split
  · exact ⟨[], .nil, fun op hop => absurd hop (by simp)⟩
  · next hnew =>
    rw [Option.not_isSome_iff_eq_none] at hnew
    refine ⟨_, Machine.Path.single trivial (OpStep.record hnew hph), fun op hop => ?_⟩
    exact Or.inl ⟨_, List.mem_singleton.mp hop⟩

/-- One transaction of a block that comes in. -/
theorem newTxn_ops {fuel : Nat} {b b' : Batch C} {txn : AvalancheTxn}
    (h : newTxn cfg fuel b txn = .ok b') :
    (∃ ops, Ops cfg b.ledger ops b'.ledger ∧ QuietOps ops) ∧
      b'.votes.length = b.votes.length + 1 ∧ b'.queryTxns.length = b.queryTxns.length + 1 := by
  have hcheck : ∀ {t : AvalancheTxn}, t ≠ .placeHolder →
      (isStronglyPreferred fuel (recordIfNew cfg b.ledger t) (cfg.ids.txnId t) >>=
        fun (r : Ledger C × Bool) => .ok (⟨r.1, b.votes ++ [r.2],
          b.queryTxns ++ [some (cfg.ids.txnId t)]⟩ : Batch C)) = .ok b' →
      (∃ ops, Ops cfg b.ledger ops b'.ledger ∧ QuietOps ops) ∧
        b'.votes.length = b.votes.length + 1 ∧
        b'.queryTxns.length = b.queryTxns.length + 1 := by
    intro t ht h
    rw [bind_eq_ok] at h
    obtain ⟨⟨l, vote⟩, hs, h⟩ := h
    rw [Except.ok.injEq] at h
    subst h
    obtain ⟨ops, hops, hq⟩ := recordIfNew_ops cfg b.ledger ht
    have hop : OpStep cfg (recordIfNew cfg b.ledger t) (.check (cfg.ids.txnId t)) l := .check hs
    have hpath : Ops cfg b.ledger (ops ++ [.check (cfg.ids.txnId t)]) l := hops.snoc trivial hop
    refine ⟨⟨_, hpath, ?_⟩, by simp, by simp⟩
    intro op hop
    rcases List.mem_append.mp hop with hop | hop
    · exact hq op hop
    · exact Or.inr ⟨_, List.mem_singleton.mp hop⟩
  unfold newTxn at h
  cases txn with
  | grant o r n =>
    rw [Except.ok.injEq] at h
    subst h
    exact ⟨recordIfNew_ops cfg b.ledger (by simp), by simp, by simp⟩
  | placeHolder =>
    rw [Except.ok.injEq] at h
    subst h
    exact ⟨⟨[], .nil, fun op hop => absurd hop (by simp)⟩, by simp, by simp⟩
  | send => exact hcheck (by simp) h
  | noop => exact hcheck (by simp) h

/-- The transactions of a block that comes in. -/
theorem newTxns_ops {fuel : Nat} {l : Ledger C} {txns : List AvalancheTxn} {b : Batch C}
    (h : txns.foldlM (newTxn cfg fuel) ⟨l, [], []⟩ = .ok b) :
    (∃ ops, Ops cfg l ops b.ledger ∧ QuietOps ops) ∧ b.votes.length = txns.length ∧
      b.queryTxns.length = txns.length := by
  refine foldlM_prefix (fun done (b : Batch C) => (∃ ops, Ops cfg l ops b.ledger ∧ QuietOps ops) ∧
    b.votes.length = done.length ∧ b.queryTxns.length = done.length) ?_
    ⟨⟨[], .nil, fun op hop => absurd hop (by simp)⟩, rfl, rfl⟩ h
  rintro done b txn b' ⟨⟨ops, hops, hq⟩, hv, hqt⟩ hstep
  obtain ⟨⟨ops', hops', hq'⟩, hv', hqt'⟩ := newTxn_ops hstep
  refine ⟨⟨ops ++ ops', hops.append hops', fun op hop => ?_⟩, by simp; omega, by simp; omega⟩
  exact (List.mem_append.mp hop).elim (hq op) (hq' op)

/-- The slots of a block, one after the other. -/
theorem handleSlots_spec {fuel blkId : Nat} {asked : Slot → Prop} {l l' : Ledger C}
    {c : List Hash} {slots : List (Option Hash × Nat)} (hl : HistInv cfg asked l)
    (hnew : ∀ i, ¬ asked (blkId, i))
    (h : slots.zipIdx.foldlM (handleSlot cfg fuel blkId) (l, []) = .ok (l', c)) :
    HistInv cfg (fun σ => asked σ ∨ σ.1 = blkId) l' ∧ l'.txnPool = l.txnPool ∧
      ∃ ops, Ops cfg l ops l' ∧ c = committedTxns l.txnPool ops := by
  have hgo := foldlM_split (fun done (acc : Ledger C × List Hash) =>
    HistInv cfg (fun σ => asked σ ∨ (σ.1 = blkId ∧ σ.2 < done.length)) acc.1 ∧
      acc.1.txnPool = l.txnPool ∧ ∃ ops, Ops cfg l ops acc.1 ∧
        acc.2 = committedTxns l.txnPool ops) ?_
    ⟨hl.weaken fun σ hσ => Or.inl hσ, rfl, [], .nil, rfl⟩ h
  · obtain ⟨hinv, hpool, hops⟩ := hgo
    exact ⟨hinv.weaken fun σ hσ => hσ.imp_right And.left, hpool, hops⟩
  · rintro done ⟨⟨q, votes⟩, i⟩ rest ⟨l₁, c₁⟩ acc' hsplit ⟨hinv, hpool, ops, hops, hc⟩ hstep
    have hi : i = done.length := by
      have hget : slots.zipIdx[done.length]? = some ((q, votes), i) := by
        rw [hsplit]
        simp
      rw [List.getElem?_zipIdx, Option.map_eq_some_iff] at hget
      obtain ⟨x, -, hx⟩ := hget
      have := (Prod.mk.inj hx).2
      omega
    unfold handleSlot at hstep
    dsimp only at hstep hinv hpool hops hc
    cases q with
    | none =>
      simp only [Except.ok.injEq] at hstep
      subst hstep
      refine ⟨hinv.weaken ?_, hpool, ops, hops, hc⟩
      rintro σ (hσ | ⟨h1, h2⟩)
      · exact Or.inl hσ
      · exact Or.inr ⟨h1, by simp; omega⟩
    | some h =>
      dsimp only at hstep
      rw [bind_eq_ok] at hstep
      obtain ⟨⟨l₂, c₂⟩, hd, hstep⟩ := hstep
      rw [Except.ok.injEq] at hstep
      subst hstep
      obtain ⟨ops', hd⟩ := decideSlot_spec hd
      have hfresh : ¬ (asked (blkId, i) ∨ ((blkId, i).1 = blkId ∧ (blkId, i).2 < done.length)) := by
        rintro (ha | ⟨-, hlt⟩)
        · exact hnew i ha
        · dsimp only at hlt
          omega
      refine ⟨(hinv.decided hfresh hd).weaken ?_, hd.pool.trans hpool,
        ops ++ .ask (blkId, i) h votes :: ops', hops.append hd.path, ?_⟩
      · rintro σ ((hσ | ⟨h1, h2⟩) | rfl)
        · exact Or.inl hσ
        · exact Or.inr ⟨h1, by simp; omega⟩
        · exact Or.inr ⟨rfl, by simp; omega⟩
      · dsimp only
        rw [committedTxns_append, hc, hd.commits, hpool]
        rfl

/-- The stage after the query of `blkId` has been decided. -/
def finish (s : Decision C) (blkId : Nat) (l : Ledger C) (c : List Hash) : Decision C :=
  { s with
    toLedger := l
    queryPool := Function.update s.queryPool blkId none
    votes := Function.update s.votes blkId none
    finishedQuery := insert blkId s.finishedQuery
    voteTimeQueue := s.voteTimeQueue.remove blkId
    commitQueue := s.commitQueue ++ [(blkId, c)]
    pmakerFeedback := s.pmakerFeedback + 1 }

/-- `handle_votes` does nothing, or decides the query. -/
theorem handleVotes_cases {fuel : Nat} {s s' : Decision C} {blkId : Nat}
    (h : handleVotes cfg fuel s blkId = .ok s') :
    (s.queryPool blkId = none ∧ s' = s) ∨
    ∃ txns n acceptVotes l c, s.queryPool blkId = some txns ∧
      s.votes blkId = some (n, acceptVotes) ∧ txns.length = acceptVotes.length ∧
      (txns.zip acceptVotes).zipIdx.foldlM (handleSlot cfg fuel blkId) (s.toLedger, []) =
        .ok (l, c) ∧ s' = finish s blkId l c := by
  unfold handleVotes at h
  cases hq : s.queryPool blkId with
  | none =>
    rw [hq] at h
    simp only [Except.ok.injEq] at h
    exact Or.inl ⟨rfl, h.symm⟩
  | some txns =>
    rw [hq] at h
    dsimp only at h
    rw [bind_eq_ok] at h
    obtain ⟨⟨n, acceptVotes⟩, hv, h⟩ := h
    rw [unwrap_eq_ok] at hv
    dsimp only at h
    by_cases hlen : txns.length = acceptVotes.length
    · rw [if_neg (by simpa using hlen), bind_eq_ok] at h
      obtain ⟨⟨l, c⟩, hf, h⟩ := h
      rw [Except.ok.injEq] at h
      exact Or.inr ⟨txns, n, acceptVotes, l, c, rfl, hv, hlen, hf, h.symm⟩
    · rw [if_pos hlen] at h
      exact absurd h (by simp)

/-- The entry of the votes for a block, and the new one after a vote. -/
def voted (s : Decision C) (blkId : Nat) (votes : List Bool) : Decision C :=
  let entry := (s.votes blkId).getD (0, List.replicate votes.length 0)
  { s with
    votes := Function.update s.votes blkId (some (entry.1 + 1, addVotes entry.2 votes)) }

/-- `record_votes` ignores the vote, or counts it, and decides the query once
there are `k`. -/
theorem recordVotes_cases {fuel : Nat} {s s' : Decision C} {blkId : Nat} {votes : List Bool}
    (h : recordVotes cfg fuel s blkId votes = .ok s') :
    (blkId ∈ s.finishedQuery ∧ s' = s) ∨
    (blkId ∉ s.finishedQuery ∧
      ((s.votes blkId).getD (0, List.replicate votes.length 0)).2.length = votes.length ∧
      ((((s.votes blkId).getD (0, List.replicate votes.length 0)).1 + 1 < cfg.k ∧
          s' = voted s blkId votes) ∨
        (cfg.k ≤ ((s.votes blkId).getD (0, List.replicate votes.length 0)).1 + 1 ∧
          handleVotes cfg fuel (voted s blkId votes) blkId = .ok s'))) := by
  unfold recordVotes at h
  by_cases hfin : blkId ∈ s.finishedQuery
  · rw [if_pos hfin, Except.ok.injEq] at h
    exact Or.inl ⟨hfin, h.symm⟩
  · rw [if_neg hfin] at h
    dsimp only at h
    split at h
    · exact absurd h (by simp)
    · next hlen =>
      split at h
      · next hk => exact Or.inr ⟨hfin, by simpa using hlen, Or.inr ⟨hk, h⟩⟩
      · next hk =>
        rw [Except.ok.injEq] at h
        exact Or.inr ⟨hfin, by simpa using hlen, Or.inl ⟨by omega, h.symm⟩⟩

/-- The state in which the own vote on a block is counted: the transactions are
recorded, and the query is pending. -/
def opened (cfg : Config C) (now : Nat) (s : Decision C) (blk : Block) (b : Batch C) :
    Decision C :=
  { s with
    toLedger := b.ledger
    queryPool := Function.update s.queryPool blk.id (some b.queryTxns)
    voteTimeQueue := s.voteTimeQueue.push blk.id (now + cfg.voteTimeout) }

/-- `new_tail` takes one block at most. It votes on its transactions; an own
block opens a query with the vote, a peer's is answered with it. -/
theorem newTail_cases {fuel now : Nat} {s s' : Decision C} {src : NodeId} {tail : List Block}
    {reply : Option (NodeId × Nat × List Bool)}
    (h : newTail cfg fuel now s src tail = .ok (s', reply)) :
    (tail = [] ∧ s' = s ∧ reply = none) ∨
    ∃ blk b, tail = [blk] ∧ blk.depth = 0 ∧ src = blk.proposer ∧
      blk.txns.foldlM (newTxn cfg fuel) ⟨s.toLedger, [], []⟩ = .ok b ∧
      ((blk.proposer = cfg.self ∧
          recordVotes cfg fuel (opened cfg now s blk b) blk.id b.votes = .ok s' ∧ reply = none) ∨
        (blk.proposer ≠ cfg.self ∧ s' = { s with toLedger := b.ledger } ∧
          reply = some (blk.proposer, blk.id, b.votes))) := by
  match tail with
  | [] =>
    simp only [newTail, Except.ok.injEq, Prod.mk.injEq] at h
    exact Or.inl ⟨rfl, h.1.symm, h.2.symm⟩
  | [blk] =>
    rw [newTail] at h
    split at h
    · exact absurd h (by simp)
    next hok =>
    rw [not_or, not_not, not_not] at hok
    rw [bind_eq_ok] at h
    obtain ⟨b, hb, h⟩ := h
    refine Or.inr ⟨blk, b, rfl, hok.1, hok.2, hb, ?_⟩
    split at h
    · next hself =>
      rw [bind_eq_ok] at h
      obtain ⟨s₁, hr, h⟩ := h
      simp only [Except.ok.injEq, Prod.mk.injEq] at h
      obtain ⟨rfl, rfl⟩ := h
      exact Or.inl ⟨hself, hr, rfl⟩
    · next hself =>
      simp only [Except.ok.injEq, Prod.mk.injEq] at h
      exact Or.inr ⟨hself, h.1.symm, h.2.symm⟩
  | _ :: _ :: _ => exact absurd h (by simp [newTail])

/-- `handle_peer_msg` ignores what is not a verified vote on an open query. -/
theorem handlePeerMsg_cases {fuel : Nat} {s s' : Decision C} {src : NodeId}
    {content : Option VoteMsg} (h : handlePeerMsg cfg fuel s src content = .ok s') :
    (s' = s ∧ ∀ msg, content = some msg →
      cfg.verify src (msg.round, msg.votes) msg.signature = true → msg.round ∈ s.finishedQuery) ∨
    ∃ msg, content = some msg ∧ msg.round ∉ s.finishedQuery ∧
      cfg.verify src (msg.round, msg.votes) msg.signature = true ∧
      recordVotes cfg fuel s msg.round msg.votes = .ok s' := by
  unfold handlePeerMsg at h
  cases content with
  | none =>
    simp only [Except.ok.injEq] at h
    exact Or.inl ⟨h.symm, fun msg he => absurd he (by simp)⟩
  | some msg =>
    dsimp only at h
    split at h
    · next hfin =>
      rw [Except.ok.injEq] at h
      refine Or.inl ⟨h.symm, fun msg' he _ => ?_⟩
      rw [Option.some.injEq] at he
      exact he ▸ hfin
    · next hfin =>
      split at h
      · next hver => exact Or.inr ⟨msg, rfl, hfin, hver, h⟩
      · next hver =>
        rw [Except.ok.injEq] at h
        refine Or.inl ⟨h.symm, fun msg' he hver' => absurd ?_ hver⟩
        rw [Option.some.injEq] at he
        exact he ▸ hver'

/-- `handle_timeout` takes the first timer, and decides its query unless that is
done. -/
theorem handleTimeout_cases {fuel : Nat} {s s' : Decision C}
    (h : handleTimeout cfg fuel s = .ok s') :
    ∃ blkId time rest, s.voteTimeQueue = (blkId, time) :: rest ∧
      ((blkId ∈ s.finishedQuery ∧ s' = { s with voteTimeQueue := rest }) ∨
        (blkId ∉ s.finishedQuery ∧
          handleVotes cfg fuel { s with voteTimeQueue := rest } blkId = .ok s')) := by
  unfold handleTimeout at h
  split at h
  · exact absurd h (by simp)
  · next blkId time rest hq =>
    refine ⟨blkId, time, rest, hq, ?_⟩
    dsimp only at h
    split at h
    · next hfin =>
      rw [Except.ok.injEq] at h
      exact Or.inl ⟨hfin, h.symm⟩
    · next hfin => exact Or.inr ⟨hfin, h⟩

/-- `next_to_commit` takes the first entry of the queue and looks up its
transactions. -/
theorem nextToCommit_cases {s s' : Decision C} {blkId : Nat} {txns : List AvalancheTxn}
    (h : nextToCommit s = .ok (s', blkId, txns)) :
    ∃ hashes rest, s.commitQueue = (blkId, hashes) :: rest ∧
      hashes.mapM s.txnPool = some txns ∧ s' = { s with commitQueue := rest } := by
  unfold nextToCommit at h
  split at h
  · exact absurd h (by simp)
  · next id hashes rest hq =>
    rw [bind_eq_ok] at h
    obtain ⟨txns', ht, h⟩ := h
    rw [unwrap_eq_ok] at ht
    simp only [Except.ok.injEq, Prod.mk.injEq] at h
    obtain ⟨rfl, rfl, rfl⟩ := h
    exact ⟨hashes, rest, hq, ht, rfl⟩

/-- The law of a run: the history, and the way out of the queue. -/
structure RunInv (cfg : Config C) (tr : List Call) (s : Decision C) : Prop where
  hist : HistInv cfg (fun σ => σ.1 ∈ s.finishedQuery) s.toLedger
  emits : ∃ popped, popped.map s.txnPool = (emitted tr).map some ∧
    popped ++ s.commitQueue.flatMap Prod.snd = committedTxns s.txnPool s.history

/-- What is committed does not depend on what is recorded later. -/
theorem committedTxns_later {l l' : Ledger C} {ops : List Op} (h : AcceptInv l)
    (hops : Ops cfg l ops l') :
    committedTxns l'.txnPool l.history = committedTxns l.txnPool l.history := by
  unfold committedTxns
  apply List.filter_congr
  intro x hx
  obtain ⟨txn, ht⟩ := h.known x hx
  rw [ht, pool_ops hops ht]

/-- Looking up is not affected by what is recorded later. -/
theorem map_pool_later {l l' : Ledger C} {ops : List Op} {popped : List Hash}
    {txns : List AvalancheTxn} (hops : Ops cfg l ops l')
    (h : popped.map l.txnPool = txns.map some) : popped.map l'.txnPool = txns.map some := by
  rw [← h]
  apply List.map_congr_left
  intro x hx
  have hmem : l.txnPool x ∈ txns.map some := h ▸ List.mem_map_of_mem hx
  obtain ⟨txn, -, ht⟩ := List.mem_map.mp hmem
  rw [← ht]
  exact pool_ops hops ht.symm

/-- Nothing emitted, nothing queued: the operations accept nothing. -/
theorem RunInv.quiet {tr : List Call} {s s' : Decision C} {ops : List Op} {call : Call}
    (h : RunInv cfg tr s) (hops : Ops cfg s.toLedger ops s'.toLedger) (hq : QuietOps ops)
    (hfin : s'.finishedQuery = s.finishedQuery) (hcq : s'.commitQueue = s.commitQueue)
    (hcall : call.emits = []) : RunInv cfg (tr ++ [call]) s' := by
  have hemit : emitted (tr ++ [call]) = emitted tr := by simp [emitted, hcall]
  obtain ⟨popped, hpop, hqueue⟩ := h.emits
  refine ⟨hfin ▸ h.hist.quiet hops hq, popped, ?_, ?_⟩
  · rw [hemit]
    exact map_pool_later hops hpop
  · rw [hcq, hqueue, history_ops hops, committedTxns_append, committedTxns_later h.hist.run.accepts
      hops]
    simp [committedTxns, hq.accepted]

/-- Deciding a query that had not been decided. -/
theorem RunInv.handleVotes {fuel blkId : Nat} {tr : List Call} {s s' : Decision C}
    (h : RunInv cfg tr s) (hfin : blkId ∉ s.finishedQuery)
    (hv : Avalanche.handleVotes cfg fuel s blkId = .ok s') : RunInv cfg tr s' := by
  rcases handleVotes_cases hv with ⟨-, rfl⟩ | ⟨txns, n, acc, l, c, -, -, -, hf, rfl⟩
  · exact h
  · obtain ⟨hinv, hpool, ops, hops, hc⟩ := handleSlots_spec h.hist (fun i hi => hfin hi) hf
    obtain ⟨popped, hpop, hqueue⟩ := h.emits
    refine ⟨hinv.weaken ?_, popped, ?_, ?_⟩
    · rintro σ (hσ | hσ)
      · exact Finset.mem_insert_of_mem hσ
      · rw [hσ]
        exact Finset.mem_insert_self _ _
    · exact map_pool_later hops hpop
    · show popped ++ (s.commitQueue ++ [(blkId, c)]).flatMap Prod.snd =
        committedTxns l.txnPool l.history
      rw [List.flatMap_append, ← List.append_assoc, hqueue, history_ops hops, committedTxns_append,
        hpool, hc]
      simp

/-- Counting a vote. -/
theorem RunInv.recordVotes {fuel blkId : Nat} {votes : List Bool} {tr : List Call}
    {s s' : Decision C} (h : RunInv cfg tr s)
    (hr : Avalanche.recordVotes cfg fuel s blkId votes = .ok s') : RunInv cfg tr s' := by
  rcases recordVotes_cases hr with ⟨-, rfl⟩ | ⟨hfin, -, ⟨-, rfl⟩ | ⟨-, hv⟩⟩
  · exact h
  · exact ⟨h.hist, h.emits⟩
  · exact RunInv.handleVotes (s := voted s blkId votes) ⟨h.hist, h.emits⟩ hfin hv

/-- A call that neither brings a block nor emits one leaves the trace as it
is. -/
theorem RunInv.silent {tr : List Call} {s : Decision C} {call : Call} (h : RunInv cfg tr s)
    (hcall : call.emits = []) : RunInv cfg (tr ++ [call]) s := by
  obtain ⟨popped, hpop, hqueue⟩ := h.emits
  refine ⟨h.hist, popped, ?_, hqueue⟩
  rw [hpop]
  simp [emitted, hcall]

/-- Every call keeps the law. -/
theorem runInv_step {tr : List Call} {s s' : Decision C} {call : Call} (h : RunInv cfg tr s)
    (hs : Step cfg s call s') : RunInv cfg (tr ++ [call]) s' := by
  cases hs with
  | newTail hs =>
    obtain ⟨rfl, rfl, -⟩ | ⟨blk, b, rfl, -, -, hb, hs⟩ := newTail_cases hs
    · exact h.silent rfl
    obtain ⟨⟨ops, hops, hq⟩, -⟩ := newTxns_ops hb
    obtain ⟨-, hr, -⟩ | ⟨-, rfl, -⟩ := hs
    · refine RunInv.recordVotes ?_ hr
      exact RunInv.quiet h hops hq rfl rfl rfl
    · exact RunInv.quiet h hops hq rfl rfl rfl
  | peerMsg hs =>
    refine RunInv.silent ?_ rfl
    obtain ⟨rfl, -⟩ | ⟨msg, -, -, -, hr⟩ := handlePeerMsg_cases hs
    · exact h
    · exact h.recordVotes hr
  | timeout hne hs =>
    refine RunInv.silent ?_ rfl
    obtain ⟨blkId, time, rest, -, ⟨-, rfl⟩ | ⟨hfin, hv⟩⟩ := handleTimeout_cases hs
    · exact ⟨h.hist, h.emits⟩
    · exact RunInv.handleVotes (s := { s with voteTimeQueue := rest }) ⟨h.hist, h.emits⟩ hfin hv
  | commit hne hs =>
    obtain ⟨hashes, rest, hq, ht, rfl⟩ := nextToCommit_cases hs
    obtain ⟨popped, hpop, hqueue⟩ := h.emits
    refine ⟨h.hist, popped ++ hashes, ?_, ?_⟩
    · rw [List.map_append, hpop, mapM_eq_some_iff.mp ht]
      simp [emitted, Call.emits]
    · rw [hq] at hqueue
      simpa using hqueue

theorem runInv_run {tr : List Call} {s : Decision C} (h : Run cfg tr s) : RunInv cfg tr s := by
  refine h.invariant_trace (RunInv cfg) ?_ fun _ _ _ _ hinv _ hs => runInv_step hinv hs
  refine ⟨⟨.nil, ?_, ?_, List.nodup_nil, ?_⟩, [], rfl, rfl⟩
  · intro slot x votes hmem
    exact absurd hmem (by simp [stage, Decision.new, Ledger.new])
  · intro pre slot x b post hsplit
    exact absurd hsplit (by simp [stage, Decision.new, Ledger.new])
  · intro pre slot x votes post hsplit
    exact absurd hsplit (by simp [stage, Decision.new, Ledger.new])

/-! ## A node to evaluate on

`runCalls` makes the calls of a list one after the other, so that a concrete
run can be computed. The node of the examples needs one vote for a query, its
own or an early one of a peer, and numbers its transactions by their inputs and
amounts. `demoSend n` spends the output `5` of the key `[1]`, whatever `n` is:
two of them conflict. -/

/-- One call, with the given fuel. -/
def runCall (cfg : Config C) (fuel : Nat) (s : Decision C) : Call → Res (Decision C)
  | .newTail src tail => newTail cfg fuel 0 s src tail >>= fun r => .ok r.1
  | .peerMsg src content => handlePeerMsg cfg fuel s src content
  | .timeout => handleTimeout cfg fuel s
  | .commit blkId txns => nextToCommit s >>= fun r =>
    if r.2 = (blkId, txns) then .ok r.1 else .error .panic

theorem step_of_runCall {fuel : Nat} {s s' : Decision C} {call : Call}
    (h : runCall cfg fuel s call = .ok s') : Step cfg s call s' := by
  cases call with
  | newTail src tail =>
    rw [runCall, bind_eq_ok] at h
    obtain ⟨⟨s₁, reply⟩, hs, h⟩ := h
    rw [Except.ok.injEq] at h
    subst h
    exact .newTail hs
  | peerMsg src content => exact .peerMsg h
  | timeout =>
    refine .timeout (fun hnil => ?_) h
    exact absurd h (by simp [runCall, handleTimeout, hnil])
  | commit blkId txns =>
    rw [runCall, bind_eq_ok] at h
    obtain ⟨⟨s₁, r⟩, hs, h⟩ := h
    split at h
    · next hr =>
      dsimp only at hr
      rw [Except.ok.injEq] at h
      subst h hr
      refine .commit (fun hnil => ?_) hs
      exact absurd hs (by simp [nextToCommit, hnil])
    · exact absurd h (by simp)

/-- The calls of a list. -/
def runCalls (cfg : Config C) (fuel : Nat) (calls : List Call) : Res (Decision C) :=
  calls.foldlM (runCall cfg fuel) (Decision.new C)

theorem run_of_runCalls {fuel : Nat} {calls : List Call} {s : Decision C}
    (h : runCalls cfg fuel calls = .ok s) : Run cfg calls s :=
  foldlM_prefix (fun done s => Run cfg done s)
    (fun _ _ _ _ hrun hstep => .snoc hrun trivial (step_of_runCall hstep)) .nil h

def demoIds : TxnIds where
  txnId
    | .send _ inUtxo _ outUtxo _ _ => inUtxo.sum + 1 + outUtxo.toNat
    | .grant outUtxo _ _ => 1 + outUtxo.toNat
    | .noop parents => parents.sum + 1
    | .placeHolder => 0
  rank := id
  rank_parent txn p hp := by
    cases txn with
    | send sender inUtxo receiver outUtxo remainder sig =>
      have hle : p ≤ inUtxo.sum := List.le_sum_of_mem hp
      exact Nat.lt_of_le_of_lt hle (Nat.lt_of_lt_of_le (Nat.lt_succ_self _) (Nat.le_add_right _ _))
    | noop parents =>
      have hle : p ≤ parents.sum := List.le_sum_of_mem hp
      exact Nat.lt_succ_of_le hle
    | grant => exact absurd hp (by simp [AvalancheTxn.parents])
    | placeHolder => exact absurd hp (by simp [AvalancheTxn.parents])

def demo (rule : VoteRule C) (beta1 beta2 : UInt64) : Config C where
  ids := demoIds
  rule := rule
  self := 0
  k := 1
  voteThresh := 1
  beta1 := beta1
  beta2 := beta2
  voteTimeout := 10
  verify := fun _ _ _ => true

def demoSend (n : UInt64) : AvalancheTxn := .send [1] [5] [2] n 0 []

/-- An own block. -/
def demoBlock (id : Nat) (txns : List AvalancheTxn) : Call := .newTail 0 [⟨0, id, 0, txns⟩]

/-- A peer's vote for the one transaction of a block. -/
def demoVote (id : Nat) : Call := .peerMsg 1 (some ⟨id, [true], []⟩)

end Copycat.Avalanche
