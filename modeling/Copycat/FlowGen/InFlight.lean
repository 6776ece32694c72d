import Copycat.FlowGen.Draws
import Copycat.FlowGen.Grants
import Copycat.FlowGen.Totals

/-!
# What is in flight

`AvalancheFlowGen::get_inflight_count` is computed from the sizes of two maps and from
two counters. What it should be is read off the calls: the transactions that a batch
brought outside of any conflict and that no call of `txn_committed` has reported since,
and the pairs that were registered and of which neither has been reported since
(`outstanding`, `openPairs`). Both descriptions agree in every run (`LoadInv`), and so
the number never underflows (`inflight_exact`).
-/

namespace Copycat.FlowGen

open Copycat.Lib
open Avalanche (AvalancheTxn UniqueIds)

/-- A call: a batch, with what it brought and the pairs it registered, or a report. -/
inductive AvalancheCall where
  | batch (txns : List (ClientId × AvalancheTxn)) (pairs : Set (Sym2 Hash))
  | committed (node : NodeId) (txns : List AvalancheTxn)

/-- The pairs registered from one state to another. -/
def newPairs (g g₁ : AvalancheFlowGen) : Set (Sym2 Hash) :=
  {s | ∃ h h₁, s = s(h, h₁) ∧ g.inFlightConflict.lookup h = none ∧
    g₁.inFlightConflict.lookup h = some h₁}

/-- A call of the generator; the pairs of a batch are those it registers. -/
inductive AvalancheStep (ids : UniqueIds) :
    AvalancheFlowGen → AvalancheCall → AvalancheFlowGen → Prop
  | batch {g g₁ : AvalancheFlowGen} {draws rest : List Nat}
      {txns : List (ClientId × AvalancheTxn)} :
      g.nextTxnBatch ids draws = .ok (g₁, txns, rest) →
      AvalancheStep ids g (.batch txns (newPairs g g₁)) g₁
  | committed {g : AvalancheFlowGen} {node : NodeId} {txns : List AvalancheTxn} :
      AvalancheStep ids g (.committed node txns) (g.txnCommitted ids node txns)

/-- The generator from some state on. -/
def avalancheLoad (ids : UniqueIds) (g₀ : AvalancheFlowGen) :
    Machine AvalancheFlowGen AvalancheCall where
  start := g₀
  step := AvalancheStep ids

/-! ## What the calls say -/

/-- What the batches brought, in order. -/
def broughtIn (tr : List AvalancheCall) : List AvalancheTxn :=
  tr.flatMap fun
    | .batch txns _ => txns.map Prod.snd
    | .committed _ _ => []

/-- The pairs that have been registered. -/
def registeredPairs (tr : List AvalancheCall) : Set (Sym2 Hash) :=
  {s | ∃ txns pairs, .batch txns pairs ∈ tr ∧ s ∈ pairs}

/-- The two have been registered as a pair. -/
def Registered (tr : List AvalancheCall) (h h₁ : Hash) : Prop := s(h, h₁) ∈ registeredPairs tr

/-- The hash has been reported. -/
def Reported (ids : UniqueIds) (tr : List AvalancheCall) (h : Hash) : Prop :=
  ∃ node txns, .committed node txns ∈ tr ∧ AvalancheFlowGen.Made ids txns h

/-- The transactions brought outside of any conflict and not reported since. -/
def outstanding (ids : UniqueIds) (tr : List AvalancheCall) : Set Hash :=
  {h | ∃ pre txns pairs post, tr = pre ++ .batch txns pairs :: post ∧
    AvalancheFlowGen.Made ids (txns.map Prod.snd) h ∧ (∀ s ∈ pairs, h ∉ s) ∧ ¬ Reported ids post h}

/-- The pairs registered of which neither has been reported since. -/
def openPairs (ids : UniqueIds) (tr : List AvalancheCall) : Set (Sym2 Hash) :=
  {s | ∃ pre txns pairs post, tr = pre ++ .batch txns pairs :: post ∧ s ∈ pairs ∧
    ∀ h ∈ s, ¬ Reported ids post h}

section Calls

variable {ids : UniqueIds} {tr : List AvalancheCall} {txns : List (ClientId × AvalancheTxn)}
  {pairs : Set (Sym2 Hash)} {node : NodeId} {committed : List AvalancheTxn}

theorem registeredPairs_batch :
    registeredPairs (tr ++ [.batch txns pairs]) = registeredPairs tr ∪ pairs := by
  ext s
  unfold registeredPairs
  simp only [List.mem_append, List.mem_singleton, or_and_right, exists_or, Set.mem_union,
    Set.mem_ofPred_eq]
  refine or_congr_right ⟨?_, fun hs => ⟨txns, pairs, rfl, hs⟩⟩
  rintro ⟨_, _, he, hs⟩
  exact (AvalancheCall.batch.inj he).2 ▸ hs

theorem registeredPairs_committed :
    registeredPairs (tr ++ [.committed node committed]) = registeredPairs tr := by
  ext s
  unfold registeredPairs
  simp [List.mem_append]

/-- A call reports what it names. -/
theorem reported_snoc {a : AvalancheCall} {h : Hash} :
    Reported ids (tr ++ [a]) h ↔ Reported ids tr h ∨
      ∃ node txns, a = .committed node txns ∧ AvalancheFlowGen.Made ids txns h := by
  unfold Reported
  simp only [List.mem_append, List.mem_singleton, or_and_right, exists_or, eq_comm]

theorem reported_batch {h : Hash} :
    Reported ids (tr ++ [.batch txns pairs]) h ↔ Reported ids tr h := by
  rw [reported_snoc, or_iff_left]
  rintro ⟨_, _, he, -⟩
  cases he

theorem reported_committed {h : Hash} : Reported ids (tr ++ [.committed node committed]) h ↔
    Reported ids tr h ∨ AvalancheFlowGen.Made ids committed h := by
  rw [reported_snoc]
  refine or_congr_right ⟨?_, fun hmade => ⟨node, committed, rfl, hmade⟩⟩
  rintro ⟨_, _, he, hmade⟩
  exact (AvalancheCall.committed.inj he).2 ▸ hmade

/-- Where a batch stands in a run that goes on by one call. -/
theorem split_snoc {a : AvalancheCall} {P : List AvalancheCall → List (ClientId × AvalancheTxn) →
    Set (Sym2 Hash) → Prop} :
    (∃ pre txns pairs post, tr ++ [a] = pre ++ .batch txns pairs :: post ∧ P post txns pairs) ↔
      (∃ txns pairs, a = .batch txns pairs ∧ P [] txns pairs) ∨
        ∃ pre txns pairs post, tr = pre ++ .batch txns pairs :: post ∧
          P (post ++ [a]) txns pairs := by
  constructor
  · rintro ⟨pre, txns, pairs, post, he, hP⟩
    cases post using List.reverseRecOn with
    | nil =>
      obtain ⟨-, ha⟩ := List.append_inj' he rfl
      exact Or.inl ⟨txns, pairs, List.singleton_inj.mp ha, hP⟩
    | append_singleton post b =>
      rw [← List.cons_append, ← List.append_assoc] at he
      obtain ⟨htr, ha⟩ := List.append_inj' he rfl
      obtain rfl := List.singleton_inj.mp ha
      exact Or.inr ⟨pre, txns, pairs, post, htr, hP⟩
  · rintro (⟨txns, pairs, rfl, hP⟩ | ⟨pre, txns, pairs, post, rfl, hP⟩)
    · exact ⟨tr, txns, pairs, [], rfl, hP⟩
    · exact ⟨pre, txns, pairs, post ++ [a], by simp, hP⟩

theorem broughtIn_batch : broughtIn (tr ++ [.batch txns pairs]) =
    broughtIn tr ++ txns.map Prod.snd := by
  rw [broughtIn, List.flatMap_append]
  exact congrArg _ (List.flatMap_singleton ..)

theorem broughtIn_committed : broughtIn (tr ++ [.committed node committed]) = broughtIn tr := by
  rw [broughtIn, List.flatMap_append]
  exact List.append_nil _

theorem not_reported_nil (h : Hash) : ¬ Reported ids [] h := by
  rintro ⟨_, _, hmem, -⟩
  exact List.not_mem_nil hmem

/-- A batch brings its transactions, except those it registers as rivals. -/
theorem mem_outstanding_batch {h : Hash} :
    h ∈ outstanding ids (tr ++ [.batch txns pairs]) ↔ h ∈ outstanding ids tr ∨
      AvalancheFlowGen.Made ids (txns.map Prod.snd) h ∧ ∀ s ∈ pairs, h ∉ s := by
  unfold outstanding
  rw [Set.mem_ofPred_eq, Set.mem_ofPred_eq, split_snoc (P := fun post txns pairs =>
    AvalancheFlowGen.Made ids (txns.map Prod.snd) h ∧ (∀ s ∈ pairs, h ∉ s) ∧ ¬ Reported ids post h),
    or_comm]
  refine or_congr ?_ ?_
  · simp [reported_batch]
  · simp [not_reported_nil]

/-- A batch opens the pairs it registers. -/
theorem mem_openPairs_batch {s : Sym2 Hash} :
    s ∈ openPairs ids (tr ++ [.batch txns pairs]) ↔ s ∈ openPairs ids tr ∨ s ∈ pairs := by
  unfold openPairs
  rw [Set.mem_ofPred_eq, Set.mem_ofPred_eq, split_snoc (P := fun post _ pairs =>
    s ∈ pairs ∧ ∀ h ∈ s, ¬ Reported ids post h), or_comm]
  refine or_congr ?_ ?_
  · simp [reported_batch]
  · simp [not_reported_nil]

/-- A report closes the transactions it names. -/
theorem mem_outstanding_committed {h : Hash} :
    h ∈ outstanding ids (tr ++ [.committed node committed]) ↔
      h ∈ outstanding ids tr ∧ ¬ AvalancheFlowGen.Made ids committed h := by
  unfold outstanding
  rw [Set.mem_ofPred_eq, Set.mem_ofPred_eq, split_snoc (P := fun post txns pairs =>
    AvalancheFlowGen.Made ids (txns.map Prod.snd) h ∧ (∀ s ∈ pairs, h ∉ s) ∧ ¬ Reported ids post h)]
  constructor
  · rintro (⟨_, _, he, -⟩ | ⟨pre, txns, pairs, post, htr, hmade, hpairs, hleft⟩)
    · cases he
    · rw [reported_committed, not_or] at hleft
      exact ⟨⟨pre, txns, pairs, post, htr, hmade, hpairs, hleft.1⟩, hleft.2⟩
  · rintro ⟨⟨pre, txns, pairs, post, htr, hmade, hpairs, hleft⟩, hnot⟩
    refine Or.inr ⟨pre, txns, pairs, post, htr, hmade, hpairs, ?_⟩
    rw [reported_committed, not_or]
    exact ⟨hleft, hnot⟩

/-- It closes the pairs of which it names either side. -/
theorem mem_openPairs_committed {s : Sym2 Hash} :
    s ∈ openPairs ids (tr ++ [.committed node committed]) ↔
      s ∈ openPairs ids tr ∧ ∀ h ∈ s, ¬ AvalancheFlowGen.Made ids committed h := by
  unfold openPairs
  rw [Set.mem_ofPred_eq, Set.mem_ofPred_eq, split_snoc (P := fun post _ pairs =>
    s ∈ pairs ∧ ∀ h ∈ s, ¬ Reported ids post h)]
  simp only [reported_committed, not_or]
  constructor
  · rintro (⟨_, _, he, -⟩ | ⟨pre, txns, pairs, post, htr, hpair, hleft⟩)
    · cases he
    · exact ⟨⟨pre, txns, pairs, post, htr, hpair, fun h hh => (hleft h hh).1⟩,
        fun h hh => (hleft h hh).2⟩
  · rintro ⟨⟨pre, txns, pairs, post, htr, hpair, hleft⟩, hnot⟩
    exact Or.inr ⟨pre, txns, pairs, post, htr, hpair, fun h hh => ⟨hleft h hh, hnot h hh⟩⟩

end Calls

/-! ## What a report does -/

namespace AvalancheFlowGen

variable {ids : UniqueIds} {past past₁ : Hash → Hash → Prop} {made : List AvalancheTxn}
  {g g₁ : AvalancheFlowGen} {txns : List AvalancheTxn}

/-- `txn_committed` takes a transaction out of the pairs as the generic
structure does. -/
theorem commitTxn_pairing (ids : UniqueIds) (g : AvalancheFlowGen) (t : AvalancheTxn) :
    (commitTxn ids g t).pairing = g.pairing.take (ids.txnId t) ∧
      (commitTxn ids g t).inFlight = g.inFlight.erase (ids.txnId t) := by
  unfold commitTxn Pairing.take
  dsimp only [AvalancheFlowGen.pairing]
  cases g.inFlightConflict.lookup (ids.txnId t) with
  | none => exact ⟨rfl, rfl⟩
  | some h =>
    by_cases hw : ids.txnId t ∈ g.conflictSet
    · simp only [if_pos hw]
      exact ⟨(if_pos hw).symm, trivial⟩
    · simp only [if_neg hw]
      exact ⟨(if_neg hw).symm, trivial⟩

/-- The parts of the state that a report does not touch. -/
structure SameStock (g g₁ : AvalancheFlowGen) : Prop where
  accounts : g₁.accounts = g.accounts
  clientList : g₁.clientList = g.clientList
  utxos : g₁.utxos = g.utxos
  conflicts : g₁.conflictingUtxos = g.conflictingUtxos
  nonce : g₁.nonce = g.nonce
  sent : g₁.conflictsSent = g.conflictsSent

theorem SameStock.coins (h : SameStock g g₁) : g₁.coins = g.coins := by
  have hheld : ∀ client, g₁.held client = g.held client := by
    intro client
    rw [held, held, h.accounts, h.utxos]
  rw [AvalancheFlowGen.coins, AvalancheFlowGen.coins, h.clientList, h.accounts, h.conflicts]
  exact congrArg (· + _) (Finset.sum_congr rfl fun client _ => hheld client)

/-- A report changes what is in flight, and no coin. -/
theorem commitTxn_same (ids : UniqueIds) (g : AvalancheFlowGen) (t : AvalancheTxn) :
    SameStock g (commitTxn ids g t) := by
  unfold commitTxn
  dsimp only
  cases g.inFlightConflict.lookup (ids.txnId t) with
  | none => exact ⟨rfl, rfl, rfl, rfl, rfl, rfl⟩
  | some h =>
    dsimp only
    split
    · exact ⟨rfl, rfl, rfl, rfl, rfl, rfl⟩
    · exact ⟨rfl, rfl, rfl, rfl, rfl, rfl⟩

/-- The transactions of a report are taken out one by one. -/
theorem foldl_commitTxn (ids : UniqueIds) (txns : List AvalancheTxn) : ∀ g : AvalancheFlowGen,
    SameStock g (txns.foldl (commitTxn ids) g) ∧
      (txns.foldl (commitTxn ids) g).pairing = (txns.map ids.txnId).foldl Pairing.take g.pairing ∧
      ∀ h, h ∈ (txns.foldl (commitTxn ids) g).inFlight ↔ h ∈ g.inFlight ∧ ¬ Made ids txns h := by
  induction txns with
  | nil =>
    refine fun g => ⟨⟨rfl, rfl, rfl, rfl, rfl, rfl⟩, rfl, fun h => (and_iff_left ?_).symm⟩
    rintro ⟨_, ht, -⟩
    exact List.not_mem_nil ht
  | cons t txns ih =>
    intro g
    obtain ⟨hsame, hpairing, hflight⟩ := ih (commitTxn ids g t)
    obtain ⟨hpairing₁, hflight₁⟩ := commitTxn_pairing ids g t
    have hsame₁ := commitTxn_same ids g t
    refine ⟨⟨hsame.accounts.trans hsame₁.accounts, hsame.clientList.trans hsame₁.clientList,
      hsame.utxos.trans hsame₁.utxos, hsame.conflicts.trans hsame₁.conflicts,
      hsame.nonce.trans hsame₁.nonce, hsame.sent.trans hsame₁.sent⟩, ?_, fun h => ?_⟩
    · rw [List.foldl_cons, hpairing, hpairing₁]
      rfl
    · rw [List.foldl_cons, hflight, hflight₁, Finset.mem_erase]
      have hmade : Made ids (t :: txns) h ↔ h = ids.txnId t ∨ Made ids txns h := by
        unfold Made
        simp [eq_comm]
      rw [hmade]
      tauto

/-- Taking transactions out one by one keeps the pairs in order. -/
theorem good_foldl_take (l : List Hash) : ∀ {p : Pairing Hash}, p.Good →
    (l.foldl Pairing.take p).Good := by
  induction l with
  | nil => exact fun h => h
  | cons a l ih => exact fun h => ih (h.take a)

/-- What is left after a report. -/
theorem txnCommitted_spec (ids : UniqueIds) (g : AvalancheFlowGen) (node : NodeId)
    (txns : List AvalancheTxn) :
    SameStock g (g.txnCommitted ids node txns) ∧
      (∀ h, h ∈ (g.txnCommitted ids node txns).inFlight ↔ h ∈ g.inFlight ∧ ¬ Made ids txns h) ∧
      (∀ h h₁, (g.txnCommitted ids node txns).inFlightConflict.lookup h = some h₁ ↔
        g.inFlightConflict.lookup h = some h₁ ∧ ¬ Made ids txns h) ∧
      (g.pairing.Good → (g.txnCommitted ids node txns).pairing.Good) := by
  obtain ⟨hsame, hpairing, hflight⟩ := foldl_commitTxn ids txns { g with
    dagInfo := g.dagInfo.insert node ⟨((g.dagInfo.lookup node).getD ⟨0, 0⟩).numBlks + 1,
      ((g.dagInfo.lookup node).getD ⟨0, 0⟩).txnCount + txns.length⟩ }
  refine ⟨{ hsame with }, hflight, fun h h₁ => ?_, fun hgood => ?_⟩
  · have hlookup := Pairing.lookup_foldl_take (txns.map ids.txnId) g.pairing h
    have hmem : h ∈ txns.map ids.txnId ↔ Made ids txns h := List.mem_map
    show (g.txnCommitted ids node txns).pairing.mate.lookup h = some h₁ ↔
      g.pairing.mate.lookup h = some h₁ ∧ _
    rw [show (g.txnCommitted ids node txns).pairing = _ from hpairing]
    show AList.lookup h ((txns.map ids.txnId).foldl Pairing.take g.pairing).mate = some h₁ ↔ _
    rw [hlookup, ← hmem]
    split
    · rename_i hin
      simp [hin]
    · rename_i hin
      simp [hin]
  · rw [show (g.txnCommitted ids node txns).pairing = _ from hpairing]
    exact good_foldl_take _ hgood

/-- A report leaves the stock in order. -/
theorem Stock.txnCommitted (h : Stock ids past 0 made g)
    (hpast : ∀ a b, g.inFlightConflict.lookup a = some b → past a b) (node : NodeId)
    (txns : List AvalancheTxn) : Stock ids past 0 made (g.txnCommitted ids node txns) := by
  obtain ⟨hsame, hflight, hlookup, hgood⟩ := txnCommitted_spec ids g node txns
  refine ⟨fun client l hl => h.keys client l (hsame.accounts ▸ hl), fun client hclient => ?_,
    fun u hu => ?_, ?_, fun hnil _ => ?_, hgood h.pairing, fun x y hxy => ?_, fun x hx => ?_⟩
  · rw [hsame.accounts, hsame.utxos]
    exact h.utxos client (hsame.clientList ▸ hclient)
  · rw [hsame.accounts]
    exact h.conflicts u (hsame.conflicts ▸ hu)
  · rw [hsame.coins]
    exact h.supply.mono fun t t₁ hrival => ⟨hrival.1, Or.inl (hrival.2.elim id (hpast _ _))⟩
  · rw [hsame.nonce]
    exact h.nonce (hsame.conflicts ▸ hnil) rfl
  · obtain ⟨hold, hleft⟩ := (hlookup x y).mp hxy
    obtain ⟨hx, hy⟩ := h.flying x y hold
    exact ⟨(hflight x).mpr ⟨hx, hleft⟩, hy⟩
  · exact h.sent x ((hflight x).mp hx).1

/-- More may be in the past. -/
theorem Stock.mono {hand : Cash} (h : Stock ids past hand made g)
    (hle : ∀ a b, past a b → past₁ a b) : Stock ids past₁ hand made g :=
  ⟨h.keys, h.utxos, h.conflicts,
    h.supply.mono fun _ _ hrival => ⟨hrival.1, hrival.2.imp_left (hle _ _)⟩, h.nonce, h.pairing,
    h.flying, h.sent⟩

end AvalancheFlowGen

/-! ## Runs -/

section Runs

open AvalancheFlowGen (Made Stock Round)

variable {ids : UniqueIds} {made : List AvalancheTxn} {g g₁ : AvalancheFlowGen}
  {tr : List AvalancheCall} {past : Hash → Hash → Prop}

/-- What holds after the calls `tr`, where `made` had been made before. -/
structure LoadInv (ids : UniqueIds) (made : List AvalancheTxn) (tr : List AvalancheCall)
    (g : AvalancheFlowGen) : Prop where
  stock : Stock ids (Registered tr) 0 (made ++ broughtIn tr) g
  current : ∀ h h₁, g.inFlightConflict.lookup h = some h₁ → Registered tr h h₁
  single : ∀ h, h ∈ outstanding ids tr ↔ h ∈ g.single
  whole : openPairs ids tr = g.pairing.whole
  known : ∀ s ∈ registeredPairs tr, ∀ h ∈ s, Made ids (made ++ broughtIn tr) h
  finite : (registeredPairs tr).Finite
  sent : g.conflictsSent = (registeredPairs tr).ncard

theorem mem_single {h : Hash} :
    h ∈ g.single ↔ h ∈ g.inFlight ∧ g.inFlightConflict.lookup h = none := by
  rw [AvalancheFlowGen.single, Finset.mem_sdiff, Pairing.mem_keys]
  show _ ∧ ¬ (∃ b, g.inFlightConflict.lookup h = some b) ↔ _
  refine and_congr_right fun _ => ?_
  cases g.inFlightConflict.lookup h with
  | none => simp
  | some b => simp

/-- A pair registered in a batch is whole, and its hashes were unknown before. -/
theorem newPairs_spec {txns : List (ClientId × AvalancheTxn)}
    (h : Stock ids past 0 made g) (hround : Round ids past made g txns g₁) {x y : Hash}
    (hx : g.inFlightConflict.lookup x = none) (hxy : g₁.inFlightConflict.lookup x = some y) :
    g₁.inFlightConflict.lookup y = some x ∧ g.inFlightConflict.lookup y = none := by
  obtain ⟨-, hmates⟩ := hround.stock.pairing.mates x y hxy
  have hwaiting : ∀ z ∈ g₁.conflictSet, ∃ b, g.inFlightConflict.lookup z = some b := by
    intro z hz
    rw [hround.ext.waiting] at hz
    exact Pairing.mem_keys.mp (h.pairing.waiting hz)
  rcases hmates with ⟨-, hyx⟩ | ⟨hw, -⟩
  · refine ⟨hyx, ?_⟩
    cases hy : g.inFlightConflict.lookup y with
    | none => rfl
    | some z =>
      -- `y` would be registered with `x` already, and `x` is unknown
      have hkept := hround.ext.kept y z hy
      have hz : x = z := Option.some.inj (hyx.symm.trans hkept)
      obtain ⟨-, hold⟩ := h.pairing.mates y z hy
      rcases hold with ⟨-, hzy⟩ | ⟨hw, -⟩
      · exact absurd (hx.symm.trans (hz ▸ hzy)) (by simp)
      · obtain ⟨-, hnew⟩ := hround.stock.pairing.mates y x hyx
        rcases hnew with ⟨hnot, -⟩ | ⟨-, hnone⟩
        · have hw : y ∈ g.conflictSet := hw
          rw [← hround.ext.waiting] at hw
          exact absurd hw hnot
        · exact absurd (hnone.symm.trans hxy) (by simp)
  · obtain ⟨b, hb⟩ := hwaiting x hw
    exact absurd (hx.symm.trans hb) (by simp)

/-- Both sides of a new pair are made by the batch that registers it. -/
theorem mem_newPairs_known {s : Sym2 Hash} {x : Hash} {txns : List (ClientId × AvalancheTxn)}
    (h : Stock ids past 0 made g) (hround : Round ids past made g txns g₁)
    (hs : s ∈ newPairs g g₁) (hx : x ∈ s) : Made ids (txns.map Prod.snd) x := by
  obtain ⟨a, b, rfl, ha, hab⟩ := hs
  have hboth : ∀ c d, g.inFlightConflict.lookup c = none →
      g₁.inFlightConflict.lookup c = some d → Made ids (txns.map Prod.snd) c := by
    intro c d hc hcd
    rcases hround.ext.new c d hcd with hold | hmade
    · exact absurd (hc.symm.trans hold) (by simp)
    · exact hmade
  obtain ⟨hba, hb⟩ := newPairs_spec h hround ha hab
  rcases Sym2.mem_iff.mp hx with rfl | rfl
  · exact hboth x b ha hab
  · exact hboth x a hb hba

/-- The whole pairs are the ones from before and the new ones. -/
theorem whole_batch {txns : List (ClientId × AvalancheTxn)} (h : Stock ids past 0 made g)
    (hround : Round ids past made g txns g₁) :
    g₁.pairing.whole = g.pairing.whole ∪ newPairs g g₁ := by
  ext s
  constructor
  · rintro ⟨a, b, rfl, hab, hba⟩
    cases ha : g.inFlightConflict.lookup a with
    | none => exact Or.inr ⟨a, b, rfl, ha, hab⟩
    | some c =>
      have hc : c = b := Option.some.inj ((hround.ext.kept a c ha).symm.trans hab)
      subst hc
      cases hb : g.inFlightConflict.lookup c with
      | none =>
        obtain ⟨-, hnone⟩ := newPairs_spec h hround hb hba
        exact absurd (hnone.symm.trans ha) (by simp)
      | some d =>
        have hd : d = a := Option.some.inj ((hround.ext.kept c d hb).symm.trans hba)
        exact Or.inl ⟨a, c, rfl, ha, hd ▸ hb⟩
  · rintro (⟨a, b, rfl, hab, hba⟩ | ⟨a, b, rfl, ha, hab⟩)
    · exact ⟨a, b, rfl, hround.ext.kept a b hab, hround.ext.kept b a hba⟩
    · exact ⟨a, b, rfl, hab, (newPairs_spec h hround ha hab).1⟩

/-- `conflicts_sent` counts the new pairs. -/
theorem sent_batch {txns : List (ClientId × AvalancheTxn)} (h : Stock ids past 0 made g)
    (hround : Round ids past made g txns g₁) :
    (newPairs g g₁).Finite ∧ g₁.conflictsSent = g.conflictsSent + (newPairs g g₁).ncard := by
  have hwhole := whole_batch h hround
  have hfin : (newPairs g g₁).Finite :=
    g₁.pairing.whole_finite.subset (hwhole ▸ Set.subset_union_right)
  have hapart : Disjoint g.pairing.whole (newPairs g g₁) := by
    refine Set.disjoint_left.mpr ?_
    rintro s ⟨a, b, rfl, hab, hba⟩ ⟨c, d, he, hc, -⟩
    have hmem : c ∈ s(a, b) := he ▸ Sym2.mem_mk_left c d
    rcases Sym2.mem_iff.mp hmem with rfl | rfl
    · exact absurd (hc.symm.trans hab) (by simp)
    · exact absurd (hc.symm.trans hba) (by simp)
  have hcard := Set.ncard_union_eq hapart g.pairing.whole_finite hfin
  have hold : g.conflictsSent = g.conflictsRecv + g.pairing.whole.ncard :=
    h.pairing.added_eq.1
  have hnew : g₁.conflictsSent = g₁.conflictsRecv + g₁.pairing.whole.ncard :=
    hround.stock.pairing.added_eq.1
  rw [hround.ext.received, hwhole, hcard] at hnew
  exact ⟨hfin, by omega⟩

/-- What is in flight and in no pair has been, or is brought and in no new pair. -/
theorem single_batch {txns : List (ClientId × AvalancheTxn)} (h : Stock ids past 0 made g)
    (hround : Round ids past made g txns g₁) {x : Hash} :
    x ∈ g₁.single ↔
      x ∈ g.single ∨ Made ids (txns.map Prod.snd) x ∧ ∀ s ∈ newPairs g g₁, x ∉ s := by
  have hunknown : ∀ x, Made ids (txns.map Prod.snd) x →
      x ∉ g.inFlight ∧ g.inFlightConflict.lookup x = none := by
    rintro x ⟨t, ht, rfl⟩
    obtain ⟨y, hy, rfl⟩ := List.mem_map.mp ht
    obtain ⟨hflight, hnone, -⟩ := h.unknown (hround.ext.fresh y hy)
    exact ⟨hflight, hnone⟩
  rw [mem_single, mem_single, hround.ext.inFlight]
  constructor
  · rintro ⟨hflight | hmade, hnone⟩
    · refine Or.inl ⟨hflight, ?_⟩
      cases hx : g.inFlightConflict.lookup x with
      | none => rfl
      | some y => exact absurd (hnone.symm.trans (hround.ext.kept x y hx)) (by simp)
    · refine Or.inr ⟨hmade, ?_⟩
      rintro s ⟨a, b, rfl, ha, hab⟩ hx
      rcases Sym2.mem_iff.mp hx with rfl | rfl
      · exact absurd (hnone.symm.trans hab) (by simp)
      · obtain ⟨hba, -⟩ := newPairs_spec h hround ha hab
        exact absurd (hnone.symm.trans hba) (by simp)
  · rintro (⟨hflight, hnone⟩ | ⟨hmade, hpairs⟩)
    · refine ⟨Or.inl hflight, ?_⟩
      cases hx : g₁.inFlightConflict.lookup x with
      | none => rfl
      | some y =>
        rcases hround.ext.new x y hx with hold | hmade
        · exact absurd (hnone.symm.trans hold) (by simp)
        · exact absurd hflight (hunknown x hmade).1
    · refine ⟨Or.inr hmade, ?_⟩
      cases hx : g₁.inFlightConflict.lookup x with
      | none => rfl
      | some y =>
        have hnot := hpairs s(x, y) ⟨x, y, rfl, (hunknown x hmade).2, hx⟩
        exact absurd (Sym2.mem_mk_left x y) hnot

/-- A batch keeps the account of what is in flight. -/
theorem LoadInv.batch {txns : List (ClientId × AvalancheTxn)} {draws rest : List Nat}
    (h : LoadInv ids made tr g) (hok : g.nextTxnBatch ids draws = .ok (g₁, txns, rest)) :
    LoadInv ids made (tr ++ [.batch txns (newPairs g g₁)]) g₁ := by
  have hround := h.stock.nextTxnBatch hok
  have hmade : made ++ broughtIn (tr ++ [.batch txns (newPairs g g₁)]) =
      made ++ broughtIn tr ++ txns.map Prod.snd := by
    rw [broughtIn_batch, ← List.append_assoc]
  obtain ⟨hfin, hsent⟩ := sent_batch h.stock hround
  refine ⟨?_, fun x y hxy => ?_, fun x => ?_, ?_, fun s hs x hx => ?_, ?_, ?_⟩
  · rw [hmade]
    exact hround.stock.mono fun a b hab => by
      rw [Registered, registeredPairs_batch]
      exact Or.inl hab
  · rw [Registered, registeredPairs_batch]
    cases hx : g.inFlightConflict.lookup x with
    | none => exact Or.inr ⟨x, y, rfl, hx, hxy⟩
    | some z =>
      have hz : z = y := Option.some.inj ((hround.ext.kept x z hx).symm.trans hxy)
      exact Or.inl (hz ▸ h.current x z hx)
  · rw [mem_outstanding_batch, h.single, single_batch h.stock hround]
  · ext s
    rw [mem_openPairs_batch, h.whole, whole_batch h.stock hround]
    rfl
  · rw [hmade, AvalancheFlowGen.made_append]
    rw [registeredPairs_batch] at hs
    rcases hs with hs | hs
    · exact Or.inl (h.known s hs x hx)
    · exact Or.inr (mem_newPairs_known h.stock hround hs hx)
  · rw [registeredPairs_batch]
    exact h.finite.union hfin
  · -- a new pair is of new transactions
    have hapart : Disjoint (registeredPairs tr) (newPairs g g₁) := by
      refine Set.disjoint_left.mpr fun s hs hs₁ => ?_
      obtain ⟨a, b, rfl, -⟩ := id hs₁
      have ha := Sym2.mem_mk_left a b
      obtain ⟨t, ht, hta⟩ := h.known _ hs a ha
      obtain ⟨t₁, ht₁, hta₁⟩ := mem_newPairs_known h.stock hround hs₁ ha
      obtain ⟨y, hy, rfl⟩ := List.mem_map.mp ht₁
      exact hround.ext.fresh y hy (ids.txnId_inj (hta₁.trans hta.symm) ▸ ht)
    rw [registeredPairs_batch, Set.ncard_union_eq hapart h.finite hfin, hsent, h.sent]

/-- So does a report, of whatever it names. -/
theorem LoadInv.committed (h : LoadInv ids made tr g) (node : NodeId) (txns : List AvalancheTxn) :
    LoadInv ids made (tr ++ [.committed node txns]) (g.txnCommitted ids node txns) := by
  obtain ⟨hsame, hflight, hlookup, -⟩ := AvalancheFlowGen.txnCommitted_spec ids g node txns
  refine ⟨?_, fun x y hxy => ?_, fun x => ?_, ?_, ?_, ?_, ?_⟩
  · rw [broughtIn_committed]
    refine (h.stock.txnCommitted h.current node txns).mono fun a b hab => ?_
    rw [Registered, registeredPairs_committed]
    exact hab
  · rw [Registered, registeredPairs_committed]
    exact h.current x y ((hlookup x y).mp hxy).1
  · rw [mem_outstanding_committed, h.single, mem_single, mem_single, hflight]
    constructor
    · rintro ⟨⟨hx, hnone⟩, hleft⟩
      refine ⟨⟨hx, hleft⟩, ?_⟩
      cases hy : (g.txnCommitted ids node txns).inFlightConflict.lookup x with
      | none => rfl
      | some y => exact absurd (hnone.symm.trans ((hlookup x y).mp hy).1) (by simp)
    · rintro ⟨⟨hx, hleft⟩, hnone⟩
      refine ⟨⟨hx, ?_⟩, hleft⟩
      cases hy : g.inFlightConflict.lookup x with
      | none => rfl
      | some y => exact absurd (hnone.symm.trans ((hlookup x y).mpr ⟨hy, hleft⟩)) (by simp)
  · ext s
    rw [mem_openPairs_committed, h.whole]
    constructor
    · rintro ⟨⟨a, b, rfl, hab, hba⟩, hleft⟩
      exact ⟨a, b, rfl, (hlookup a b).mpr ⟨hab, hleft a (Sym2.mem_mk_left a b)⟩,
        (hlookup b a).mpr ⟨hba, hleft b (Sym2.mem_mk_right a b)⟩⟩
    · rintro ⟨a, b, rfl, hab, hba⟩
      obtain ⟨hab, ha⟩ := (hlookup a b).mp hab
      obtain ⟨hba, hb⟩ := (hlookup b a).mp hba
      refine ⟨⟨a, b, rfl, hab, hba⟩, fun x hx => ?_⟩
      rcases Sym2.mem_iff.mp hx with rfl | rfl
      · exact ha
      · exact hb
  · rw [registeredPairs_committed, broughtIn_committed]
    exact h.known
  · rw [registeredPairs_committed]
    exact h.finite
  · rw [registeredPairs_committed, ← h.sent]
    exact hsame.sent

/-- A run keeps the invariant. -/
theorem loadInv_run {g₀ : AvalancheFlowGen} (hstart : LoadInv ids made [] g₀)
    (hrun : (avalancheLoad ids g₀).Run (fun _ _ => True) tr g) : LoadInv ids made tr g := by
  refine hrun.invariant_trace (LoadInv ids made) hstart ?_
  intro tr g a g₁ h _ hstep
  cases hstep with
  | batch hok => exact h.batch hok
  | committed => exact h.committed _ _

/-- What the invariant says of the counts. -/
theorem LoadInv.counts (h : LoadInv ids made tr g) :
    g.getInflightCount = .ok ((outstanding ids tr).ncard + (openPairs ids tr).ncard) ∧
      g.conflictsSent = (registeredPairs tr).ncard ∧
      g.conflictsCommitted ≤ g.conflictsRecv ∧ g.conflictsRecv ≤ g.conflictsSent := by
  have hsingle : outstanding ids tr = (g.single : Set Hash) := Set.ext h.single
  obtain ⟨hadded, hfinished⟩ := h.stock.pairing.added_eq
  refine ⟨?_, h.sent, hfinished, ?_⟩
  · rw [h.stock.inflightCount, hsingle, h.whole, Set.ncard_coe_finset]
  · have hadded : g.conflictsSent = g.conflictsRecv + g.pairing.whole.ncard := hadded
    omega

/-- The generator before or after its setup, and the grants made. -/
inductive Started (ids : UniqueIds) (g : AvalancheFlowGen) :
    AvalancheFlowGen → List AvalancheTxn → Prop
  | new : Started ids g g []
  | setup {order : List ClientId} {g₁ : AvalancheFlowGen} {txns : List (ClientId × AvalancheTxn)} :
      g.Enumerates order → AvalancheFlowGen.setupTxns ids order g = .ok (g₁, txns) →
      Started ids g g₁ (txns.map Prod.snd)

/-- At the start nothing is in flight. -/
theorem loadInv_start {made : List AvalancheTxn} (hstock : Stock ids (Registered []) 0 made g)
    (hflight : g.inFlight = ∅) (hpairing : g.pairing = ⟨∅, ∅, 0, 0, 0⟩) :
    LoadInv ids made [] g := by
  have hmate : g.inFlightConflict = ∅ := congrArg Pairing.mate hpairing
  have hsent : g.conflictsSent = 0 := congrArg Pairing.added hpairing
  have hnone : registeredPairs [] = ∅ := by
    ext s
    simp [registeredPairs]
  refine ⟨?_, fun h h₁ hh => ?_, fun h => ?_, ?_, ?_, ?_, ?_⟩
  · rw [broughtIn, List.flatMap_nil, List.append_nil]
    exact hstock
  · rw [hmate] at hh
    exact absurd hh (by simp)
  · rw [mem_single, hflight]
    constructor
    · rintro ⟨pre, _, _, _, he, -⟩
      exact absurd he.symm (by simp)
    · rintro ⟨hh, -⟩
      exact absurd hh (Finset.notMem_empty h)
  · ext s
    rw [hpairing]
    constructor
    · rintro ⟨pre, _, _, _, he, -⟩
      exact absurd he.symm (by simp)
    · rintro ⟨a, b, -, hab, -⟩
      exact absurd hab (by simp)
  · rw [hnone]
    exact fun s hs => absurd hs (Set.notMem_empty s)
  · rw [hnone]
    exact Set.finite_empty
  · rw [hnone, Set.ncard_empty, hsent]

/-- `setup_txns` makes grants only, and these are not in flight. -/
theorem Started.loadInv {g₀ : AvalancheFlowGen} (h : Started ids g g₀ made) (hfresh : g.Fresh) :
    LoadInv ids made [] g₀ := by
  cases h with
  | new => exact loadInv_start (hfresh.stock ids _) hfresh.inFlight hfresh.pairing
  | setup horder hok =>
    obtain ⟨g₁, txns, hok₁, hstock, hrest, -⟩ :=
      AvalancheFlowGen.setupTxns_stock ids (Registered []) hfresh horder
    obtain ⟨rfl, rfl⟩ := Prod.mk.inj (Except.ok.inj (hok₁.symm.trans hok))
    rw [hrest] at hstock ⊢
    exact loadInv_start hstock hfresh.inFlight hfresh.pairing

/-- Then every client has accounts and something to spend. -/
theorem AvalancheFlowGen.equipped_setup {id : UInt64} {clientList : List ClientId}
    {numAccounts maxInflight frequency : Nat} {conflictRate : ℚ} {crypto : CryptoScheme}
    (hg : AvalancheFlowGen.new id clientList numAccounts maxInflight frequency conflictRate crypto =
      .ok g)
    (hkeys : DistinctKeys crypto id (clientList.length * accountsPerNode clientList numAccounts))
    (hmany : 3 ≤ accountsPerNode clientList numAccounts) {order : List ClientId}
    (horder : g.Enumerates order) {g₀ : AvalancheFlowGen} {txns : List (ClientId × AvalancheTxn)}
    (hok : AvalancheFlowGen.setupTxns ids order g = .ok (g₀, txns)) : g₀.Equipped := by
  obtain ⟨hfresh, hclients, hlen⟩ := AvalancheFlowGen.fresh_new hg hkeys
  obtain ⟨g₁, txns₁, hok₁, -, hrest, hfilled, -⟩ :=
    AvalancheFlowGen.setupTxns_stock ids (Registered []) hfresh horder
  obtain ⟨rfl, rfl⟩ := Prod.mk.inj (Except.ok.inj (hok₁.symm.trans hok))
  refine ⟨?_, fun client l hl => ?_, hfilled⟩
  · rw [hrest]
    show g.clientList ≠ []
    rw [hclients]
    rintro rfl
    exact absurd hmany (by simp [accountsPerNode])
  · rw [hrest] at hl
    have := hlen client l hl
    omega

/-- Whatever is drawn and whatever is reported, `get_inflight_count` is the number of
the transactions and of the pairs that are open, and `conflicts_sent` that of all pairs. -/
theorem inflight_exact {id : UInt64} {clientList : List ClientId}
    {numAccounts maxInflight frequency : Nat} {conflictRate : ℚ} {crypto : CryptoScheme}
    (hg : AvalancheFlowGen.new id clientList numAccounts maxInflight frequency conflictRate crypto =
      .ok g)
    (hkeys : DistinctKeys crypto id (clientList.length * accountsPerNode clientList numAccounts))
    {g₀ : AvalancheFlowGen} (hstart : Started ids g g₀ made)
    (hrun : (avalancheLoad ids g₀).Run (fun _ _ => True) tr g₁) :
    g₁.getInflightCount = .ok ((outstanding ids tr).ncard + (openPairs ids tr).ncard) ∧
      g₁.conflictsSent = (registeredPairs tr).ncard ∧
      g₁.conflictsCommitted ≤ g₁.conflictsRecv ∧ g₁.conflictsRecv ≤ g₁.conflictsSent := by
  obtain ⟨hfresh, -, -⟩ := AvalancheFlowGen.fresh_new hg hkeys
  exact (loadInv_run (hstart.loadInv hfresh) hrun).counts

/-- Three accounts. -/
theorem distinctKeys_demo : DistinctKeys demoCrypto 0 3 := by
  intro i hi j hj h
  have hkey : (seed 0 (.ofNat i)).toUInt8 = (seed 0 (.ofNat j)).toUInt8 :=
    (List.cons.inj h).1
  interval_cases i <;> interval_cases j <;> first | rfl | exact absurd hkey (by decide)

theorem enumerates_single {g : AvalancheFlowGen}
    (hg : AvalancheFlowGen.new 0 [0] 3 1 0 0 demoCrypto = .ok g) : g.Enumerates [0] := by
  obtain ⟨hfresh, hclients, -⟩ := AvalancheFlowGen.fresh_new hg distinctKeys_demo
  refine ⟨List.nodup_singleton 0, fun client => ?_⟩
  rw [← hfresh.clients, hclients]

/-- The first batch is a conflict. -/
theorem batch_demo {g g₀ : AvalancheFlowGen} {grants : List (ClientId × AvalancheTxn)}
    (hg : AvalancheFlowGen.new 0 [0] 3 1 0 0 demoCrypto = .ok g)
    (hok : AvalancheFlowGen.setupTxns .coded [0] g = .ok (g₀, grants)) :
    ∃ draws g₁ txns rest, g₀.nextTxnBatch .coded draws = .ok (g₁, txns, rest) ∧
      AvalancheFlowGen.Contested .coded txns g₁ := by
  have hstart := Started.setup (enumerates_single hg) hok
  have hstock := (hstart.loadInv (AvalancheFlowGen.fresh_new hg distinctKeys_demo).1).stock
  have hequipped := AvalancheFlowGen.equipped_setup hg distinctKeys_demo (by decide)
    (enumerates_single hg) hok
  obtain ⟨draws, hdraws⟩ : ∃ draws, draws = 0 :: List.replicate 104 0 := ⟨_, rfl⟩
  have hset : g₀.batchSize = 1 ∧ g₀.avaxCommitDepth = 50 ∧ g₀.conflictRate = 0 ∧
      g₀.nextTxnBatch .coded draws = g₀.nextRounds .coded 1 draws := by
    rw [← Except.ok.inj hg] at hok
    rw [← (Prod.mk.inj (Except.ok.inj hok)).1]
    exact ⟨rfl, rfl, rfl, rfl⟩
  obtain ⟨hsize, hdepth, hrate, hrounds⟩ := hset
  have hlen : g₀.batchSize * (2 * g₀.avaxCommitDepth + 5) ≤ draws.length := by
    rw [hsize, hdepth, hdraws]
    simp
  obtain ⟨⟨g₁, txns, rest⟩, hbatch⟩ := hstock.nextTxnBatch_returns hequipped hlen
  refine ⟨draws, g₁, txns, rest, hbatch, ?_⟩
  rw [hrounds, hdraws] at hbatch
  exact hstock.contested_nextRounds (by simp [hrate]) hbatch

/-- The generator has sent a conflict, and one of its transactions is reported. -/
theorem inflight_exact_demo :
    ∃ g g₀ made draws g₁ txns rest, AvalancheFlowGen.new 0 [0] 3 1 0 0 demoCrypto = .ok g ∧
      Started .coded g g₀ made ∧ g₀.nextTxnBatch .coded draws = .ok (g₁, txns, rest) ∧
      AvalancheFlowGen.Contested .coded txns g₁ ∧
      ∀ x ∈ txns, (g₁.txnCommitted .coded 5 [x.2]).getInflightCount = .ok (
        (outstanding .coded [.batch txns (newPairs g₀ g₁), .committed 5 [x.2]]).ncard +
        (openPairs .coded [.batch txns (newPairs g₀ g₁), .committed 5 [x.2]]).ncard) := by
  obtain ⟨g, hg⟩ : ∃ g, AvalancheFlowGen.new 0 [0] 3 1 0 0 demoCrypto = .ok g := ⟨_, rfl⟩
  have hfresh := (AvalancheFlowGen.fresh_new hg distinctKeys_demo).1
  obtain ⟨g₀, grants, hsetup, -⟩ := AvalancheFlowGen.setupTxns_stock .coded (Registered [])
    hfresh (enumerates_single hg)
  obtain ⟨draws, g₁, txns, rest, hok, hcontested⟩ := batch_demo hg hsetup
  have hstart : Started .coded g g₀ (grants.map Prod.snd) := .setup (enumerates_single hg) hsetup
  refine ⟨g, g₀, _, draws, g₁, txns, rest, hg, hstart, hok, hcontested, fun x _ => ?_⟩
  have hbatch : (avalancheLoad .coded g₀).Run (fun _ _ => True)
      [.batch txns (newPairs g₀ g₁)] g₁ := Machine.Run.nil.snoc trivial (.batch hok)
  have hreport : AvalancheStep .coded g₁ (.committed 5 [x.2])
      (g₁.txnCommitted .coded 5 [x.2]) := .committed
  have hrun := hbatch.snoc trivial hreport
  exact (inflight_exact hg distinctKeys_demo hstart hrun).1

end Runs

end Copycat.FlowGen
