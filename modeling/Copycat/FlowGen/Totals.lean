import Copycat.FlowGen.Bitcoin
import Copycat.Lib.Machine

/-!
# Totals that are reported

`BitcoinFlowGen` keeps, for each node, the number of transactions at every height
up to the last one the node committed, and `get_stats` reports the largest sum over
the nodes. A node that commits a lower height again replaces what it committed from
there on, so its sum may fall. Where no other node makes up for that, the reported
number falls too, and the report loop of the cluster, which subtracts the previous
one, underflows.

`Keeps` is the condition on a call under which this does not happen;
`reports_grow_iff` says that it is exact.
-/

namespace Copycat.FlowGen

open Copycat.Lib
open Finset (Ico)

/-- A loop whose iterations all return returns what they return. -/
theorem mapM_eq_ok {α β : Type} {f : α → Res β} {r : α → β} {l : List α}
    (h : ∀ x ∈ l, f x = .ok (r x)) : l.mapM f = .ok (l.map r) := by
  induction l with
  | nil => rfl
  | cons x l ih =>
    rw [List.mapM_cons, h x List.mem_cons_self, ih fun y hy => h y (List.mem_cons_of_mem _ hy)]
    rfl

/-! ## What a commit does -/

theorem removeHeights_apply (heights : List Nat) :
    ∀ (txnCount : Nat → Option Nat) (j : Nat), removeHeights txnCount heights j =
      if j ∈ heights then none else txnCount j := by
  induction heights with
  | nil =>
    intro txnCount j
    rw [if_neg List.not_mem_nil]
    rfl
  | cons h heights ih =>
    intro txnCount j
    show removeHeights (Function.update txnCount h none) heights j = _
    rw [ih]
    by_cases hj : j = h
    · subst hj
      simp
    · simp [hj]

namespace ChainInfo

/-- The number of transactions at a height, zero where nothing is committed. -/
def count (info : ChainInfo) (height : Nat) : Nat := (info.txnCount height).getD 0

/-- Something is counted at every height from one on. -/
def Counted (info : ChainInfo) : Prop :=
  ∀ j, 1 ≤ j → j ≤ info.chainLength → (info.txnCount j).isSome

/-- The transactions at all heights. -/
def total (info : ChainInfo) : Nat := ∑ j ∈ Ico 1 (info.chainLength + 1), info.count j

/-- The transactions that a commit at the height replaces. -/
def replaced (info : ChainInfo) (blkHeight : Nat) : Nat :=
  ∑ j ∈ Ico (max 1 blkHeight) (info.chainLength + 1), info.count j

/-- What a commit that passes the assertion leaves. -/
structure Committed (info : ChainInfo) (numTxns blkHeight : Nat) (info₁ : ChainInfo) : Prop where
  le : blkHeight ≤ info.chainLength + 1
  chainLength : info₁.chainLength = blkHeight
  txnCount : ∀ j, info₁.txnCount j =
    if j = blkHeight then some numTxns
    else if blkHeight ≤ j ∧ j ≤ info.chainLength then none
    else info.txnCount j

theorem commit_spec {info : ChainInfo} {numTxns blkHeight : Nat}
    (hle : blkHeight ≤ info.chainLength + 1) :
    ∃ info₁, info.commit numTxns blkHeight = .ok info₁ ∧
      Committed info numTxns blkHeight info₁ := by
  unfold commit
  rw [if_pos hle]
  refine ⟨_, rfl, hle, rfl, fun j => ?_⟩
  dsimp only
  by_cases hj : j = blkHeight
  · rw [hj, Function.update_self, if_pos rfl]
  · rw [Function.update_of_ne hj, if_neg hj, removeHeights_apply]
    refine if_congr ?_ rfl rfl
    rw [List.mem_range'_1]
    omega

theorem committed_of_commit {info info₁ : ChainInfo} {numTxns blkHeight : Nat}
    (h : info.commit numTxns blkHeight = .ok info₁) : Committed info numTxns blkHeight info₁ := by
  by_cases hle : blkHeight ≤ info.chainLength + 1
  · obtain ⟨info₂, h₂, hspec⟩ := commit_spec hle
    rw [h, Except.ok.injEq] at h₂
    exact h₂ ▸ hspec
  · rw [commit, if_neg hle] at h
    exact absurd h (by simp)

variable {info info₁ : ChainInfo} {numTxns blkHeight : Nat}

theorem counted_new : Counted ChainInfo.new :=
  fun j h1 h0 => absurd (Nat.le_trans h1 h0) (by decide)

/-- Below the new height everything stays. -/
theorem Committed.below (h : Committed info numTxns blkHeight info₁) {j : Nat}
    (hj : j < blkHeight) : info₁.txnCount j = info.txnCount j := by
  rw [h.txnCount, if_neg (by omega), if_neg (by omega)]

theorem Committed.counted (h : Committed info numTxns blkHeight info₁) (hcounted : info.Counted) :
    info₁.Counted := by
  intro j h1 hj
  rw [h.chainLength] at hj
  by_cases heq : j = blkHeight
  · rw [h.txnCount, if_pos heq]
    rfl
  · have hle := h.le
    rw [h.below (by omega)]
    exact hcounted j h1 (by omega)

/-- The sum changes by what is replaced and what is brought. A commit at height zero
brings nothing that is counted. -/
theorem Committed.total_eq (h : Committed info numTxns blkHeight info₁) :
    info₁.total + info.replaced blkHeight =
      info.total + if blkHeight = 0 then 0 else numTxns := by
  have hle := h.le
  unfold total replaced
  rw [h.chainLength]
  by_cases h0 : blkHeight = 0
  · subst h0
    rw [if_pos rfl]
    simp
  · rw [if_neg h0, Nat.max_eq_right (by omega), Finset.sum_Ico_succ_top (by omega),
      ← Finset.sum_Ico_consecutive info.count (show 1 ≤ blkHeight by omega) hle]
    have hsame : ∑ j ∈ Ico 1 blkHeight, info₁.count j = ∑ j ∈ Ico 1 blkHeight, info.count j := by
      refine Finset.sum_congr rfl fun j hj => ?_
      unfold count
      rw [h.below (Finset.mem_Ico.mp hj).2]
    have htop : info₁.count blkHeight = numTxns := by
      unfold count
      rw [h.txnCount, if_pos rfl]
      rfl
    rw [hsame, htop]
    omega

theorem sum_counts (info : ChainInfo) (n : Nat) :
    ((List.range' 1 n).map info.count).sum = ∑ j ∈ Ico 1 (n + 1), info.count j := by
  induction n with
  | zero => rfl
  | succ n ih =>
    rw [List.range'_1_concat, List.map_append, List.sum_append, ih,
      Finset.sum_Ico_succ_top (show 1 ≤ n + 1 by omega), Nat.add_comm 1 n]
    rfl

/-- Where everything is counted the sum is what `get_stats` computes. -/
theorem numCommitted_eq (h : info.Counted) : info.numCommitted = .ok info.total := by
  unfold numCommitted
  split
  · have hcounts : (List.range' 1 info.chainLength).mapM
        (fun height => unwrap (info.txnCount height)) =
          .ok ((List.range' 1 info.chainLength).map info.count) := by
      refine mapM_eq_ok fun height hheight => ?_
      obtain ⟨h1, hle⟩ := List.mem_range'_1.mp hheight
      obtain ⟨c, hc⟩ := Option.isSome_iff_exists.mp (h height h1 (by omega))
      rw [count, hc]
      rfl
    rw [hcounts]
    exact congrArg Except.ok (sum_counts info _)
  · rename_i hpos
    have h0 : info.chainLength = 0 := by omega
    rw [total, h0]
    rfl

end ChainInfo

/-! ## What is reported -/

theorem reduceMax_le {l : List (Nat × Nat)} {n : Nat} :
    (reduceMax l).1 ≤ n ↔ ∀ x ∈ l, x.1 ≤ n := by
  cases l with
  | nil => simp [reduceMax]
  | cons x l =>
    show (l.foldl (fun acc e => (max acc.1 e.1, max acc.2 e.2)) x).1 ≤ n ↔ _
    rw [List.forall_mem_cons]
    induction l generalizing x with
    | nil => simp
    | cons y l ih =>
      rw [List.foldl_cons, ih, List.forall_mem_cons]
      show (max x.1 y.1 ≤ n ∧ _) ↔ _
      rw [Nat.max_le, and_assoc]

namespace BitcoinFlowGen

variable {ids : IdScheme}

/-- The chain info of a node, as `txn_committed` finds it. -/
def info (g : BitcoinFlowGen) (node : NodeId) : ChainInfo := (g.chainInfo.lookup node).getD .new

/-- The largest of the totals is reported. -/
theorem getStats_spec {g : BitcoinFlowGen} (h : ∀ node, (g.info node).Counted) :
    ∃ stats, g.getStats = .ok stats ∧
      ∀ n, stats.numCommitted ≤ n ↔ ∀ node, (g.info node).total ≤ n := by
  have hinfo : ∀ x ∈ g.chainInfo.entries, x.2 = g.info x.1 := by
    intro x hx
    have hlookup := AList.mem_lookup_iff.mpr hx
    rw [info, Option.mem_def.mp hlookup]
    rfl
  have hall : g.chainInfo.entries.mapM (fun x =>
      x.2.numCommitted >>= fun numCommitted => .ok (numCommitted, x.2.chainLength)) =
      .ok (g.chainInfo.entries.map fun x => (x.2.total, x.2.chainLength)) := by
    refine mapM_eq_ok fun x hx => ?_
    have hcounted : x.2.Counted := hinfo x hx ▸ h x.1
    rw [ChainInfo.numCommitted_eq hcounted]
    rfl
  unfold getStats
  rw [hall]
  refine ⟨_, rfl, fun n => ?_⟩
  rw [reduceMax_le, List.forall_mem_map]
  constructor
  · intro hle node
    unfold info
    cases hnode : g.chainInfo.lookup node with
    | none => exact Nat.zero_le n
    | some i => exact hle ⟨node, i⟩ (AList.mem_lookup_iff.mp hnode)
  · intro hle x hx
    have := hle x.1
    rwa [← hinfo x hx] at this

/-- The call does to the chain info of the node what `ChainInfo.commit` does. -/
theorem txnCommitted_info {g g₁ : BitcoinFlowGen} {node : NodeId} {txns : List BitcoinTxn}
    {blkHeight : Nat} (h : g.txnCommitted ids node txns blkHeight = .ok g₁) :
    (g.info node).commit txns.length blkHeight = .ok (g₁.info node) ∧
      ∀ other, other ≠ node → g₁.info other = g.info other := by
  unfold txnCommitted at h
  rw [bind_eq_ok] at h
  obtain ⟨i, hi, h⟩ := h
  rw [← Except.ok.inj h]
  constructor
  · unfold info
    dsimp only
    rw [AList.lookup_insert]
    exact hi
  · intro other hother
    unfold info
    dsimp only
    rw [AList.lookup_insert_ne hother]

theorem txnCommitted_returns {g : BitcoinFlowGen} {node : NodeId} {txns : List BitcoinTxn}
    {blkHeight : Nat} {info₁ : ChainInfo}
    (h : (g.info node).commit txns.length blkHeight = .ok info₁) :
    ∃ g₁, g.txnCommitted ids node txns blkHeight = .ok g₁ ∧ g₁.info node = info₁ := by
  obtain ⟨g₁, hg₁⟩ : ∃ g₁, g.txnCommitted ids node txns blkHeight = .ok g₁ :=
    ⟨_, bind_eq_ok.mpr ⟨info₁, h, rfl⟩⟩
  have hinfo := (txnCommitted_info hg₁).1
  rw [h, Except.ok.injEq] at hinfo
  exact ⟨g₁, hg₁, hinfo.symm⟩

/-- What `txn_committed` does to the chain infos. -/
theorem txnCommitted_spec {g g₁ : BitcoinFlowGen} {node : NodeId} {txns : List BitcoinTxn}
    {blkHeight : Nat} (h : g.txnCommitted ids node txns blkHeight = .ok g₁) :
    ChainInfo.Committed (g.info node) txns.length blkHeight (g₁.info node) ∧
      ∀ other, other ≠ node → g₁.info other = g.info other :=
  (txnCommitted_info h).imp_left ChainInfo.committed_of_commit

theorem counted_txnCommitted {g g₁ : BitcoinFlowGen} {node : NodeId} {txns : List BitcoinTxn}
    {blkHeight : Nat} (h : g.txnCommitted ids node txns blkHeight = .ok g₁)
    (hg : ∀ node, (g.info node).Counted) : ∀ node, (g₁.info node).Counted := by
  obtain ⟨hspec, hothers⟩ := txnCommitted_spec h
  intro other
  by_cases hother : other = node
  · rw [hother]
    exact hspec.counted (hg node)
  · rw [hothers other hother]
    exact hg other

end BitcoinFlowGen

/-- The arguments of `txn_committed`. -/
structure Commit where
  node : NodeId
  txns : List BitcoinTxn
  blkHeight : Nat

/-- The call brings the node at least the transactions that it replaces, or another
node has as many in all as this one has before the call. -/
def Keeps (g : BitcoinFlowGen) (c : Commit) : Prop :=
  (g.info c.node).replaced c.blkHeight ≤ (if c.blkHeight = 0 then 0 else c.txns.length) ∨
    ∃ other ≠ c.node, (g.info c.node).total ≤ (g.info other).total

/-- The largest total falls in a call that is not `Keeps`, and in no other. -/
theorem keeps_iff {ids : IdScheme} {g g₁ : BitcoinFlowGen} {c : Commit}
    (h : g.txnCommitted ids c.node c.txns c.blkHeight = .ok g₁) :
    Keeps g c ↔ ∀ n, (∀ node, (g₁.info node).total ≤ n) → ∀ node, (g.info node).total ≤ n := by
  obtain ⟨hspec, hothers⟩ := BitcoinFlowGen.txnCommitted_spec h
  have htotal := hspec.total_eq
  constructor
  · intro hkeeps n hle node
    have hrest : ∀ other, other ≠ c.node → (g.info other).total ≤ n := by
      intro other hother
      rw [← hothers other hother]
      exact hle other
    by_cases hnode : node = c.node
    · rw [hnode]
      rcases hkeeps with hbrings | ⟨other, hother, hmore⟩
      · have hnew := hle c.node
        omega
      · exact hmore.trans (hrest other hother)
    · exact hrest node hnode
  · intro hmax
    by_contra hnot
    obtain ⟨hless, halone⟩ := not_or.mp hnot
    -- everybody is below the old total then
    have hbelow : ∀ node, (g₁.info node).total ≤ (g.info c.node).total - 1 := by
      intro node
      by_cases hnode : node = c.node
      · rw [hnode]
        omega
      · rw [hothers node hnode]
        have hlt : (g.info node).total < (g.info c.node).total := by
          by_contra hge
          exact halone ⟨node, hnode, by omega⟩
        omega
    have hold := hmax _ hbelow c.node
    omega

/-! ## Calls and reports in any order -/

/-- A call of `txn_committed`, or one of `get_stats` with what it returns. -/
inductive Report where
  | committed (c : Commit)
  | stats (stats : Stats)

inductive ReportStep (ids : IdScheme) : BitcoinFlowGen → Report → BitcoinFlowGen → Prop
  | committed {g g₁ : BitcoinFlowGen} {c : Commit} :
      g.txnCommitted ids c.node c.txns c.blkHeight = .ok g₁ → ReportStep ids g (.committed c) g₁
  | stats {g : BitcoinFlowGen} {stats : Stats} :
      g.getStats = .ok stats → ReportStep ids g (.stats stats) g

/-- The generator, as the nodes and the report timer use it. -/
def reporting (ids : IdScheme) (g₀ : BitcoinFlowGen) : Machine BitcoinFlowGen Report where
  start := g₀
  step := ReportStep ids

/-- The calls of `txn_committed`. -/
def commitsIn (tr : List Report) : List Commit :=
  tr.filterMap fun
    | .committed c => some c
    | .stats _ => none

/-- The totals reported. -/
def reportsIn (tr : List Report) : List Nat :=
  tr.filterMap fun
    | .committed _ => none
    | .stats stats => some stats.numCommitted

/-- The calls of `txn_committed`, one after the other. -/
def commitAll (ids : IdScheme) (g : BitcoinFlowGen) (calls : List Commit) : Res BitcoinFlowGen :=
  calls.foldlM (fun g c => g.txnCommitted ids c.node c.txns c.blkHeight) g

section Reports

variable {ids : IdScheme} {g₀ g g₁ : BitcoinFlowGen} {calls : List Commit}

theorem commitAll_append (calls₁ : List Commit) :
    commitAll ids g (calls ++ calls₁) = commitAll ids g calls >>= fun g => commitAll ids g calls₁ :=
  List.foldlM_append

theorem commitAll_singleton (c : Commit) :
    commitAll ids g [c] = g.txnCommitted ids c.node c.txns c.blkHeight := by
  unfold commitAll
  rw [List.foldlM_cons]
  exact bind_pure _

theorem commitsIn_append (tr tr₁ : List Report) :
    commitsIn (tr ++ tr₁) = commitsIn tr ++ commitsIn tr₁ := List.filterMap_append

theorem reportsIn_append (tr tr₁ : List Report) :
    reportsIn (tr ++ tr₁) = reportsIn tr ++ reportsIn tr₁ := List.filterMap_append

theorem commitsIn_committed (calls : List Commit) : commitsIn (calls.map .committed) = calls := by
  rw [commitsIn, List.filterMap_map]
  exact List.filterMap_some

theorem reportsIn_committed (calls : List Commit) : reportsIn (calls.map .committed) = [] := by
  rw [reportsIn, List.filterMap_map, List.filterMap_eq_nil_iff]
  exact fun _ _ => rfl

/-- Calls that pass the assertion can be made. -/
theorem path_commits : ∀ {calls : List Commit} {g₁ : BitcoinFlowGen},
    commitAll ids g calls = .ok g₁ →
      (reporting ids g₀).Path (fun _ _ => True) g (calls.map .committed) g₁ := by
  intro calls
  induction calls using List.reverseRecOn with
  | nil =>
    intro g₁ h
    rw [← Except.ok.inj h]
    exact .nil
  | append_singleton calls c ih =>
    intro g₁ h
    rw [commitAll_append, bind_eq_ok] at h
    obtain ⟨g₂, h₂, h⟩ := h
    rw [commitAll_singleton] at h
    rw [List.map_append]
    exact (ih h₂).snoc trivial (ReportStep.committed h)

/-- Every call on the way to the generator that `calls` lead to is `Keeps`. -/
def AllKeep (ids : IdScheme) (g₀ : BitcoinFlowGen) (calls : List Commit) : Prop :=
  ∀ before c after g, calls = before ++ c :: after → commitAll ids g₀ before = .ok g → Keeps g c

/-- What holds after calls and reports: the reports made so far are in order and no
larger than the next one will be. -/
structure ReportInv (ids : IdScheme) (g₀ : BitcoinFlowGen) (tr : List Report)
    (g : BitcoinFlowGen) : Prop where
  state : commitAll ids g₀ (commitsIn tr) = .ok g
  counted : ∀ node, (g.info node).Counted
  sorted : (reportsIn tr).Pairwise (· ≤ ·)
  bounded : ∀ n, (∀ node, (g.info node).total ≤ n) → ∀ r ∈ reportsIn tr, r ≤ n

theorem ReportInv.committed {tr : List Report} {c : Commit} (h : ReportInv ids g₀ tr g)
    (hkeeps : Keeps g c) (hstep : g.txnCommitted ids c.node c.txns c.blkHeight = .ok g₁) :
    ReportInv ids g₀ (tr ++ [.committed c]) g₁ := by
  have hreports : reportsIn (tr ++ [.committed c]) = reportsIn tr := by
    rw [reportsIn_append]
    exact List.append_nil _
  refine ⟨?_, BitcoinFlowGen.counted_txnCommitted hstep h.counted, ?_, ?_⟩
  · rw [commitsIn_append, commitAll_append, h.state]
    exact (commitAll_singleton c).trans hstep
  · rw [hreports]
    exact h.sorted
  · rw [hreports]
    exact fun n hn => h.bounded n ((keeps_iff hstep).mp hkeeps n hn)

theorem ReportInv.stats {tr : List Report} {stats : Stats} (h : ReportInv ids g₀ tr g)
    (hstep : g.getStats = .ok stats) : ReportInv ids g₀ (tr ++ [.stats stats]) g := by
  obtain ⟨stats₁, hstats, hmax⟩ := BitcoinFlowGen.getStats_spec h.counted
  rw [hstep, Except.ok.injEq] at hstats
  subst hstats
  have hreports : reportsIn (tr ++ [.stats stats]) = reportsIn tr ++ [stats.numCommitted] :=
    reportsIn_append _ _
  refine ⟨?_, h.counted, ?_, ?_⟩
  · rw [commitsIn_append]
    show commitAll ids g₀ (commitsIn tr ++ []) = _
    rw [List.append_nil]
    exact h.state
  · rw [hreports, List.pairwise_append]
    refine ⟨h.sorted, List.pairwise_singleton _ _, fun r hr n hn => ?_⟩
    rw [List.mem_singleton.mp hn]
    exact h.bounded _ ((hmax _).mp le_rfl) r hr
  · intro n hn r hr
    rw [hreports, List.mem_append, List.mem_singleton] at hr
    rcases hr with hr | rfl
    · exact h.bounded n hn r hr
    · exact (hmax n).mpr hn

theorem counted_of_empty (hnew : g₀.chainInfo = ∅) (node : NodeId) : (g₀.info node).Counted := by
  unfold BitcoinFlowGen.info
  rw [hnew, AList.lookup_empty]
  exact ChainInfo.counted_new

/-- Along calls that are `Keeps`, the reports are in order. -/
theorem reportInv_run (hnew : g₀.chainInfo = ∅) (hkeep : AllKeep ids g₀ calls)
    {tr : List Report} (hrun : (reporting ids g₀).Run (fun _ _ => True) tr g)
    (htr : commitsIn tr <+: calls) : ReportInv ids g₀ tr g := by
  induction hrun with
  | nil => exact ⟨rfl, counted_of_empty hnew, .nil, fun _ _ r hr => absurd hr List.not_mem_nil⟩
  | @snoc tr s s₁ i _ _ hstep ih =>
    rw [commitsIn_append] at htr
    have hinv := ih ((List.prefix_append _ _).trans htr)
    cases hstep with
    | committed hstep =>
      obtain ⟨after, hafter⟩ := htr
      rw [List.append_assoc] at hafter
      exact hinv.committed (hkeep _ _ after _ hafter.symm hinv.state) hstep
    | stats hstep => exact hinv.stats hstep

/-- The totals that a report before and a report after a call give. -/
theorem keeps_of_reports {c : Commit} {stats stats₁ : Stats}
    (hcounted : ∀ node, (g.info node).Counted)
    (hstep : g.txnCommitted ids c.node c.txns c.blkHeight = .ok g₁)
    (hstats : g.getStats = .ok stats) (hstats₁ : g₁.getStats = .ok stats₁)
    (hle : stats.numCommitted ≤ stats₁.numCommitted) : Keeps g c := by
  obtain ⟨s, hs, hmax⟩ := BitcoinFlowGen.getStats_spec hcounted
  obtain ⟨s₁, hs₁, hmax₁⟩ :=
    BitcoinFlowGen.getStats_spec (BitcoinFlowGen.counted_txnCommitted hstep hcounted)
  rw [hstats, Except.ok.injEq] at hs
  rw [hstats₁, Except.ok.injEq] at hs₁
  subst hs hs₁
  exact (keeps_iff hstep).mpr fun n hn => (hmax n).mp (hle.trans ((hmax₁ n).mpr hn))

/-- **Reported totals never fall**, wherever `get_stats` is called between the calls
of `txn_committed`, if and only if all of these are `Keeps`. -/
theorem reports_grow_iff (ids : IdScheme) {g₀ g : BitcoinFlowGen} {calls : List Commit}
    (hnew : g₀.chainInfo = ∅) (hcalls : commitAll ids g₀ calls = .ok g) :
    (∀ tr s, (reporting ids g₀).Run (fun _ _ => True) tr s → commitsIn tr = calls →
      (reportsIn tr).Pairwise (· ≤ ·)) ↔ AllKeep ids g₀ calls := by
  constructor
  · intro hsorted before c after g₁ hsplit hbefore
    rw [hsplit, commitAll_append, hbefore] at hcalls
    rw [show c :: after = [c] ++ after from rfl] at hcalls
    have hcalls : (commitAll ids g₁ ([c] ++ after)) = .ok g := hcalls
    rw [commitAll_append, commitAll_singleton, bind_eq_ok] at hcalls
    obtain ⟨g₂, hstep, hafter⟩ := hcalls
    -- one report right before the call, and one right after it
    have hcounted : ∀ node, (g₁.info node).Counted :=
      foldlM_invariant (fun g => ∀ node, (g.info node).Counted)
        (fun _ _ _ hg h => BitcoinFlowGen.counted_txnCommitted h hg) (counted_of_empty hnew) hbefore
    obtain ⟨stats, hstats, -⟩ := BitcoinFlowGen.getStats_spec hcounted
    obtain ⟨stats₁, hstats₁, -⟩ :=
      BitcoinFlowGen.getStats_spec (BitcoinFlowGen.counted_txnCommitted hstep hcounted)
    have hrun : (reporting ids g₀).Run (fun _ _ => True)
        (before.map .committed ++ [.stats stats] ++ [.committed c] ++ [.stats stats₁] ++
          after.map .committed) g := by
      have hpath : (reporting ids g₀).Path (fun _ _ => True) g₀ (before.map .committed) g₁ :=
        path_commits hbefore
      have hfirst : (reporting ids g₀).Run (fun _ _ => True) (before.map .committed) g₁ :=
        Machine.Run.append .nil hpath
      exact (((hfirst.snoc trivial (ReportStep.stats hstats)).snoc trivial
        (ReportStep.committed hstep)).snoc trivial (ReportStep.stats hstats₁)).append
        (path_commits hafter)
    have hreports := hsorted _ g hrun (by
      simp only [commitsIn_append, commitsIn_committed]
      rw [hsplit]
      simp [commitsIn])
    simp only [reportsIn_append, reportsIn_committed] at hreports
    have hle : stats.numCommitted ≤ stats₁.numCommitted := by
      simpa [reportsIn] using hreports
    exact keeps_of_reports hcounted hstep hstats hstats₁ hle
  · intro hkeep tr s hrun htr
    exact (reportInv_run hnew hkeep hrun (htr ▸ List.prefix_rfl)).sorted

end Reports

/-- A scheme whose keys are their seeds. -/
def demoCrypto : CryptoScheme where
  genKeyPair seed := ([seed.toUInt8], [seed.toUInt8])
  sign _ _ := []

/-- The generator of one client with two accounts. -/
def demoGen : BitcoinFlowGen := .new 0 [0] 2 10 0 demoCrypto

/-- Node `0` commits two transactions at height one. -/
def demoCommit : Commit := ⟨0, [.grant 100 [0], .grant 100 [1]], 1⟩

/-- Node `0` commits another block at height one, with one transaction. -/
def demoRecommit : Commit := ⟨0, [.grant 100 [0]], 1⟩

/-- The total falls from two to one. -/
theorem report_falls :
    ∃ tr g, (reporting (.ofTable []) demoGen).Run (fun _ _ => True) tr g ∧
      commitsIn tr = [demoCommit, demoRecommit] ∧ reportsIn tr = [2, 1] ∧
      ¬ (reportsIn tr).Pairwise (· ≤ ·) := by
  have hrun := ((((Machine.Run.nil (M := reporting (.ofTable []) demoGen)
      (G := fun _ _ => True)).snoc trivial
    (ReportStep.committed (c := demoCommit) rfl)).snoc trivial
    (ReportStep.stats rfl)).snoc trivial
    (ReportStep.committed (c := demoRecommit) rfl)).snoc trivial
    (ReportStep.stats rfl)
  exact ⟨_, _, hrun, rfl, rfl, by decide⟩

/-- Node `1` commits three transactions at height one. -/
def demoAhead : Commit := ⟨1, [.grant 100 [0], .grant 100 [1], .grant 100 [2]], 1⟩

/-- With the commit of node `1` before it, the second commit of node `0` does not make
the total fall; without it, it does. -/
theorem reports_grow_demo :
    (∀ tr s, (reporting (.ofTable []) demoGen).Run (fun _ _ => True) tr s →
      commitsIn tr = [demoCommit, demoAhead, demoRecommit] → (reportsIn tr).Pairwise (· ≤ ·)) ∧
    ¬ ∀ tr s, (reporting (.ofTable []) demoGen).Run (fun _ _ => True) tr s →
      commitsIn tr = [demoCommit, demoRecommit] → (reportsIn tr).Pairwise (· ≤ ·) := by
  refine ⟨(reports_grow_iff _ rfl rfl).mpr ?_, fun hsorted => ?_⟩
  · intro before c after g₁ hsplit hbefore
    rcases before with _ | ⟨c₁, _ | ⟨c₂, _ | ⟨c₃, before⟩⟩⟩
    · obtain ⟨rfl, -⟩ := List.cons.inj hsplit
      obtain rfl := Except.ok.inj hbefore
      exact Or.inl (by decide)
    · simp only [List.cons_append, List.nil_append, List.cons.injEq] at hsplit
      obtain ⟨rfl, rfl, -⟩ := hsplit
      obtain rfl := Except.ok.inj hbefore
      exact Or.inl (by decide)
    · -- what node `0` replaces, node `1` has
      simp only [List.cons_append, List.nil_append, List.cons.injEq] at hsplit
      obtain ⟨rfl, rfl, rfl, -⟩ := hsplit
      obtain rfl := Except.ok.inj hbefore
      exact Or.inr ⟨1, by decide, by decide⟩
    · exact absurd (congrArg List.length hsplit) (by simp)
  · obtain ⟨g₁, hg₁⟩ : ∃ g₁, commitAll (.ofTable []) demoGen [demoCommit] = .ok g₁ := ⟨_, rfl⟩
    have hkeep := (reports_grow_iff _ rfl rfl).mp hsorted [demoCommit] demoRecommit [] g₁ rfl hg₁
    rw [commitAll_singleton] at hg₁
    have hnothing : ∀ node, (demoGen.info node).total = 0 := fun _ => rfl
    have hother := (BitcoinFlowGen.txnCommitted_spec hg₁).2
    obtain rfl := Except.ok.inj hg₁
    rcases hkeep with hbrings | ⟨other, hne, hmore⟩
    · exact absurd hbrings (by decide)
    · rw [hother other hne, hnothing] at hmore
      exact absurd hmore (by decide)

end Copycat.FlowGen
