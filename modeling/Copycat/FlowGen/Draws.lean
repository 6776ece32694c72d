import Copycat.FlowGen.Rounds

/-!
# Enough draws

A call that does not panic may still run out of draws. A Bitcoin generator draws
until it finds an account that can pay, so no number is enough for it. An
Avalanche generator draws at most five times for a payment, and at most twice for
each pair of a conflict (`Stock.uses_nextRound`): with that many draws for every
transaction of the batch, `AvalancheFlowGen::next_txn_batch` returns
(`Stock.nextTxnBatch_returns`). A pass that draws no more than the conflict rate
brings two rivals, and registers them (`Stock.contested_nextRounds`).
-/

namespace Copycat.FlowGen

open Copycat.Lib

/-! ## Draws at hand -/

/-- With `n` draws at hand the call does not run out of them, and `n` is the most it
takes. -/
def Uses {α : Type} (rest : α → List Nat) (n : Nat) (draws : List Nat) (r : Res α) : Prop :=
  n ≤ draws.length → r ≠ .error .diverge ∧ ∀ a, r = .ok a → draws.length ≤ (rest a).length + n

section Uses

variable {α β : Type} {rest : α → List Nat} {rest' : β → List Nat} {n m : Nat}
  {draws : List Nat} {r : Res α} {f : α → Res β}

/-- A bound on the draws may be raised. -/
theorem Uses.mono (h : Uses rest n draws r) (hle : n ≤ m) : Uses rest m draws r := by
  intro hlen
  obtain ⟨hret, hrest⟩ := h (hle.trans hlen)
  exact ⟨hret, fun a ha => (hrest a ha).trans (Nat.add_le_add_left hle _)⟩

/-- The draws of two calls in a row add up; the second one starts with what the
first has left. -/
theorem Uses.bind (hr : Uses rest n draws r)
    (hf : ∀ a, r = .ok a → Uses rest' m (rest a) (f a)) : Uses rest' (n + m) draws (r >>= f) := by
  intro hlen
  obtain ⟨hret, hrest⟩ := hr (by omega)
  cases r with
  | error e => exact ⟨fun h => hret (congrArg _ (Except.error.inj h)), nofun⟩
  | ok a =>
    have hle := hrest a rfl
    obtain ⟨hret', hrest'⟩ := hf a rfl (by omega)
    refine ⟨hret', fun b hb => ?_⟩
    have := hrest' b hb
    omega

/-- A call that draws nothing. -/
theorem Uses.after (hr : r ≠ .error .diverge)
    (hf : ∀ a, r = .ok a → Uses rest' n draws (f a)) : Uses rest' n draws (r >>= f) := by
  cases r with
  | error e =>
    cases e with
    | panic => exact fun _ => ⟨nofun, nofun⟩
    | diverge => exact absurd rfl hr
  | ok a => exact hf a rfl

theorem uses_ok {a : α} (h : rest a = draws) : Uses rest 0 draws (.ok a) := by
  refine fun _ => ⟨nofun, fun b hb => ?_⟩
  cases hb
  rw [h, Nat.add_zero]

/-- One draw is used, if there is one. -/
theorem uses_draw (draws : List Nat) : Uses Prod.snd 1 draws (draw draws) := by
  intro hlen
  cases draws with
  | nil => exact absurd hlen (by simp)
  | cons d draws =>
    refine ⟨nofun, fun a ha => ?_⟩
    cases ha
    exact le_rfl

theorem ok_ne_diverge (a : α) : (.ok a : Res α) ≠ .error .diverge := nofun

theorem unwrap_ne_diverge (o : Option α) : unwrap o ≠ .error .diverge := by
  cases o with
  | none => exact nofun
  | some a => exact ok_ne_diverge a

/-- Calls that do not draw cannot run out of draws. -/
theorem bind_ne_diverge (hr : r ≠ .error .diverge) (hf : ∀ a, f a ≠ .error .diverge) :
    r >>= f ≠ .error .diverge := by
  cases r with
  | error e => exact fun h => hr (congrArg _ (Except.error.inj h))
  | ok a => exact hf a

end Uses

theorem rem_ne_diverge (d modulus : Nat) : rem d modulus ≠ .error .diverge := by
  unfold rem
  split
  · exact nofun
  · exact ok_ne_diverge _

theorem recver1Idx_ne_diverge (len sender d : Nat) : recver1Idx len sender d ≠ .error .diverge :=
  bind_ne_diverge (rem_ne_diverge _ _) fun _ => ok_ne_diverge _

theorem recver2Idx_ne_diverge (len sender recver d : Nat) :
    recver2Idx len sender recver d ≠ .error .diverge :=
  bind_ne_diverge (rem_ne_diverge _ _) fun _ => ok_ne_diverge _

namespace AvalancheFlowGen

open Avalanche (AvalancheTxn UniqueIds)

variable {ids : UniqueIds} {past : Hash → Hash → Prop} {made : List AvalancheTxn}
  {g g₁ : AvalancheFlowGen} {draws rest : List Nat} {txns : List (ClientId × AvalancheTxn)}
  {l : List (PubKey × PrivKey)} {u : ConflictingUtxo}

/-! ## The draws of a pass -/

/-- Once the accounts are known, a payment takes no draws. -/
theorem transfer_ne_diverge (crypto : CryptoScheme) (i j : Nat) (h : Hash)
    (outUtxo remainder : UInt64) : transfer crypto l i j h outUtxo remainder ≠ .error .diverge :=
  bind_ne_diverge (unwrap_ne_diverge _) fun _ =>
    bind_ne_diverge (unwrap_ne_diverge _) fun _ => ok_ne_diverge _

/-- A payment draws the client, the output to spend and the receiver. -/
theorem uses_nextSend (g : AvalancheFlowGen) (draws : List Nat) :
    Uses (fun r => r.2.2) 3 draws (nextSend ids g draws) := by
  refine (uses_draw draws).bind (m := 2) fun a _ => ?_
  refine .after (rem_ne_diverge _ _) fun _ _ => .after (unwrap_ne_diverge _) fun _ _ => ?_
  refine .after (unwrap_ne_diverge _) fun _ _ => .after (unwrap_ne_diverge _) fun _ _ => ?_
  refine (uses_draw a.2).bind (m := 1) fun b _ => ?_
  refine .after (rem_ne_diverge _ _) fun _ _ => .after (unwrap_ne_diverge _) fun _ _ => ?_
  refine (uses_draw b.2).bind (m := 0) fun c _ => ?_
  refine .after (recver1Idx_ne_diverge _ _ _) fun _ _ => ?_
  exact .after (transfer_ne_diverge _ _ _ _ _ _) fun _ _ => uses_ok rfl

/-- A conflict starts from an output of an earlier one, or from a grant to a drawn
account of a drawn client. -/
theorem uses_takeConflict (g : AvalancheFlowGen) (draws : List Nat) :
    Uses (fun r => r.2.2.2) 2 draws (takeConflict ids g draws) := by
  unfold takeConflict
  split
  · refine ((uses_draw draws).bind (m := 0) fun a _ => ?_).mono (by omega)
    refine .after (rem_ne_diverge _ _) fun _ _ => ?_
    exact .after (unwrap_ne_diverge _) fun _ _ => uses_ok rfl
  · refine (uses_draw draws).bind (m := 1) fun a _ => ?_
    refine .after (rem_ne_diverge _ _) fun _ _ => .after (unwrap_ne_diverge _) fun _ _ => ?_
    refine .after (unwrap_ne_diverge _) fun _ _ => ?_
    refine (uses_draw a.2).bind (m := 0) fun b _ => ?_
    refine .after (rem_ne_diverge _ _) fun _ _ => .after (unwrap_ne_diverge _) fun _ _ => ?_
    exact .after (unwrap_ne_diverge _) fun _ _ => uses_ok rfl

/-- The two payments at the bottom of a conflict go to two drawn receivers. -/
theorem uses_basePair (g : AvalancheFlowGen) (draws : List Nat) :
    Uses (fun r => r.2.2.2) 2 draws (basePair ids l u g draws) := by
  refine (uses_draw draws).bind (m := 1) fun a _ => ?_
  refine .after (recver1Idx_ne_diverge _ _ _) fun _ _ => ?_
  refine .after (transfer_ne_diverge _ _ _ _ _ _) fun _ _ => ?_
  refine (uses_draw a.2).bind (m := 0) fun b _ => ?_
  refine .after (recver2Idx_ne_diverge _ _ _ _) fun _ _ => ?_
  exact .after (transfer_ne_diverge _ _ _ _ _ _) fun _ _ => uses_ok rfl

/-- Each pair on top of them goes to two drawn receivers as well. -/
theorem uses_extendPair (g : AvalancheFlowGen) (ends : Ends) (draws : List Nat) :
    Uses (fun r => r.2.2.2) 2 draws (extendPair ids l u g ends draws) := by
  refine (uses_draw draws).bind (m := 1) fun a _ => ?_
  refine .after (recver1Idx_ne_diverge _ _ _) fun _ _ => ?_
  refine .after (transfer_ne_diverge _ _ _ _ _ _) fun _ _ => ?_
  refine (uses_draw a.2).bind (m := 0) fun b _ => ?_
  refine .after (recver1Idx_ne_diverge _ _ _) fun _ _ => ?_
  exact .after (transfer_ne_diverge _ _ _ _ _ _) fun _ _ => uses_ok rfl

/-- Each of the `n` pairs takes its own two draws. -/
theorem uses_extendPairs (n : Nat) : ∀ (g : AvalancheFlowGen) (ends : Ends) (draws : List Nat),
    Uses (fun r => r.2.2.2) (2 * n) draws (extendPairs ids l u n g ends draws) := by
  induction n with
  | zero => exact fun _ _ _ => uses_ok rfl
  | succ n ih =>
    intro g ends draws
    refine Uses.mono (n := 2 + (2 * n + 0)) ?_ (by omega)
    refine (uses_extendPair g ends draws).bind fun a _ => ?_
    exact (ih a.1 a.2.1 a.2.2.2).bind fun b _ => uses_ok rfl

/-- A conflict draws where it starts, the bottom pair, and `avaxCommitDepth` pairs
on top. -/
theorem Stock.uses_nextConflict (h : Stock ids past 0 made g) (draws : List Nat) :
    Uses (fun r => r.2.2.2) (2 * g.avaxCommitDepth + 4) draws
      (AvalancheFlowGen.nextConflict ids g draws) := by
  refine Uses.mono (n := 2 + (2 + (2 * g.avaxCommitDepth + 0))) ?_ (by omega)
  refine (uses_takeConflict g draws).bind fun a ha => ?_
  obtain ⟨l, hl, -, hstock, hext, -⟩ := h.takeConflict ha
  refine .after (unwrap_ne_diverge _) fun l₁ hl₁ => ?_
  have hl₂ : a.1.accounts a.2.1.owner.1 = some l := hext.accounts ▸ hl
  obtain rfl := Option.some.inj (hl₂.symm.trans (unwrap_eq_ok.mp hl₁))
  refine (uses_basePair a.1 a.2.2.2).bind fun b hb => ?_
  -- nothing so far has changed the number of pairs to come
  have hdepth : b.1.avaxCommitDepth = g.avaxCommitDepth :=
    (hstock.basePair (h.keys _ l hl) hb).ext.depth.trans hext.depth
  rw [← hdepth]
  exact (uses_extendPairs _ b.1 b.2.1 b.2.2.2).bind fun c _ => uses_ok rfl

/-- A pass draws once to choose its branch, and then what the longer branch takes. -/
theorem Stock.uses_nextRound (h : Stock ids past 0 made g) (draws : List Nat) :
    Uses (fun r => r.2.2.2) (2 * g.avaxCommitDepth + 5) draws
      (AvalancheFlowGen.nextRound ids g draws) := by
  refine Uses.mono (n := 1 + (2 * g.avaxCommitDepth + 4)) ?_ (by omega)
  have hrate : Uses Prod.snd 1 draws (drawF64 draws) :=
    (uses_draw draws).bind (m := 0) fun a _ => uses_ok rfl
  refine hrate.bind fun a _ => ?_
  dsimp only
  split
  · refine Uses.mono (n := 3 + 0) ?_ (by omega)
    exact (uses_nextSend g a.2).bind fun b _ => uses_ok rfl
  · exact h.uses_nextConflict a.2

/-- Every pass makes at least one transaction, so as many passes as are asked
for suffice. -/
theorem Stock.uses_nextRounds (left : Nat) : ∀ {made : List AvalancheTxn} {g : AvalancheFlowGen}
    (draws : List Nat), Stock ids past 0 made g →
      Uses (fun r => r.2.2) (left * (2 * g.avaxCommitDepth + 5)) draws
        (AvalancheFlowGen.nextRounds ids left g draws) := by
  induction left using Nat.strong_induction_on with
  | h left ih =>
    intro made g draws h
    cases left with
    | zero =>
      rw [AvalancheFlowGen.nextRounds, Nat.zero_mul]
      exact uses_ok rfl
    | succ left =>
      rw [AvalancheFlowGen.nextRounds, Nat.succ_mul, Nat.add_comm]
      refine (h.uses_nextRound draws).bind fun a ha => ?_
      obtain ⟨g₂, txns₂, more, draws₂⟩ := a
      have hfirst := h.nextRound ha
      -- a conflict counts for several passes
      refine Uses.mono (n := (left - more) * (2 * g.avaxCommitDepth + 5) + 0) ?_
        (Nat.mul_le_mul_right _ (Nat.sub_le _ _))
      rw [← hfirst.ext.depth]
      exact (ih (left - more) (by omega) draws₂ hfirst.stock).bind fun b _ => uses_ok rfl

/-- **A batch is made** from enough draws. -/
theorem Stock.nextTxnBatch_returns (h : Stock ids past 0 made g) (hg : g.Equipped)
    (hlen : g.batchSize * (2 * g.avaxCommitDepth + 5) ≤ draws.length) :
    ∃ r, AvalancheFlowGen.nextTxnBatch ids g draws = .ok r := by
  have huses : Uses (fun r => r.2.2) (g.batchSize * (2 * g.avaxCommitDepth + 5)) draws
      (AvalancheFlowGen.nextTxnBatch ids g draws) := by
    unfold AvalancheFlowGen.nextTxnBatch
    split
    · exact h.uses_nextRounds _ draws
    · rw [h.inflightCount]
      exact (h.uses_nextRounds _ draws).mono (Nat.mul_le_mul_right _ (Nat.min_le_left _ _))
  have hcalm := h.nextTxnBatch_no_panic hg draws
  obtain ⟨hret, -⟩ := huses hlen
  match hr : AvalancheFlowGen.nextTxnBatch ids g draws with
  | .ok r => exact ⟨r, rfl⟩
  | .error .panic => exact absurd hr hcalm
  | .error .diverge => exact absurd hr hret

/-! ## Conflicts -/

/-- Two rivals among the transactions, registered with each other. -/
def Contested (ids : UniqueIds) (txns : List (ClientId × AvalancheTxn)) (g : AvalancheFlowGen) :
    Prop :=
  ∃ x ∈ txns, ∃ y ∈ txns, BasePair x.2 y.2 ∧
    g.inFlightConflict.lookup (ids.txnId x.2) = some (ids.txnId y.2)

/-- Nothing that is made later undoes it. -/
theorem Contested.later {g₂ : AvalancheFlowGen} {txns₁ : List (ClientId × AvalancheTxn)}
    (h : Contested ids txns g₁) (hsub : txns ⊆ txns₁)
    (hkept : ∀ h h₁, g₁.inFlightConflict.lookup h = some h₁ →
      g₂.inFlightConflict.lookup h = some h₁) : Contested ids txns₁ g₂ := by
  obtain ⟨x, hx, y, hy, hbase, hlookup⟩ := h
  exact ⟨x, hsub hx, y, hsub hy, hbase, hkept _ _ hlookup⟩

/-- A conflict starts with two rivals. -/
theorem contested_basePair {ends : Ends} (hnodup : (l.map Prod.fst).Nodup)
    (hok : basePair ids l u g draws = .ok (g₁, ends, txns, rest)) : Contested ids txns g₁ := by
  unfold basePair at hok
  simp only [bind_eq_ok] at hok
  obtain ⟨⟨d, draws₁⟩, -, recver1, -, t₁, ht₁, ⟨d₂, draws₂⟩, -, recver2, hrecver2, t₂, ht₂, hok⟩ :=
    hok
  simp only [Except.ok.injEq, Prod.mk.injEq] at hok
  obtain ⟨rfl, rfl, rfl, -⟩ := hok
  obtain ⟨-, hlt₁, sig₁, rfl⟩ := transfer_spec ht₁
  obtain ⟨-, hlt₂, sig₂, rfl⟩ := transfer_spec ht₂
  have hkeys : keyAt l recver1 ≠ keyAt l recver2 :=
    keyAt_ne hnodup hlt₁ hlt₂ (recver2Idx_spec hrecver2).2.symm
  refine ⟨_, List.mem_cons_self, _, List.mem_cons_of_mem _ List.mem_cons_self,
    ⟨_, _, _, _, _, _, _, hkeys, rfl, rfl⟩, ?_⟩
  rw [sendPair_lookup, if_neg, if_pos rfl]
  exact ids.txnId_inj.ne fun he => hkeys (AvalancheTxn.send.inj he).2.2.1

/-- The bottom pair spends one output twice, and both are registered as rivals. -/
theorem Stock.contested_nextConflict {more : Nat} (h : Stock ids past 0 made g)
    (hok : AvalancheFlowGen.nextConflict ids g draws = .ok (g₁, txns, more, rest)) :
    Contested ids txns g₁ := by
  unfold AvalancheFlowGen.nextConflict at hok
  simp only [bind_eq_ok, unwrap_eq_ok] at hok
  obtain ⟨⟨g₂, u, grants, draws₂⟩, htake, l, hl, ⟨g₃, ends₃, base, draws₃⟩, hbase,
    ⟨g₄, ends₄, more₄, draws₄⟩, hmore, hok⟩ := hok
  simp only [Except.ok.injEq, Prod.mk.injEq] at hok
  obtain ⟨rfl, rfl, -⟩ := hok
  obtain ⟨l₁, hl₁, -, hstock₂, hext₂, -⟩ := h.takeConflict htake
  have hl₂ : g₂.accounts u.owner.1 = some l₁ := hext₂.accounts ▸ hl₁
  obtain rfl := Option.some.inj (hl₂.symm.trans hl)
  have hnodup := h.keys u.owner.1 l₁ hl₁
  have hpart₃ := hstock₂.basePair hnodup hbase
  have hpart₄ := hpart₃.stock.extendPairs g₃.avaxCommitDepth hpart₃.recver1 hpart₃.recver2 hmore
  refine (contested_basePair hnodup hbase).later (fun x hx => ?_) hpart₄.ext.kept
  exact List.mem_append_left _ (List.mem_append_right _ hx)

/-- The first pass is a conflict if its draw is not above the rate. -/
theorem Stock.contested_nextRounds {left d : Nat} (h : Stock ids past 0 made g)
    (hrate : ((d % 2 ^ 53 : Nat) : ℚ) / 2 ^ 53 ≤ g.conflictRate)
    (hok : AvalancheFlowGen.nextRounds ids (left + 1) g (d :: draws) = .ok (g₁, txns, rest)) :
    Contested ids txns g₁ := by
  rw [AvalancheFlowGen.nextRounds] at hok
  simp only [bind_eq_ok] at hok
  obtain ⟨⟨g₂, txns₂, more, draws₂⟩, hround, ⟨g₃, txns₃, draws₃⟩, hrest, hok⟩ := hok
  simp only [Except.ok.injEq, Prod.mk.injEq] at hok
  obtain ⟨rfl, rfl, -⟩ := hok
  have hfirst := h.nextRound hround
  have hlater := hfirst.stock.nextRounds _ hrest
  have hconflict : AvalancheFlowGen.nextConflict ids g draws = .ok (g₂, txns₂, more, draws₂) := by
    unfold AvalancheFlowGen.nextRound at hround
    rw [bind_eq_ok] at hround
    obtain ⟨⟨r, draws₁⟩, hr, hround⟩ := hround
    obtain ⟨rfl, rfl⟩ := Prod.mk.inj (Except.ok.inj hr)
    dsimp only at hround
    rwa [if_neg (not_lt.mpr hrate)] at hround
  exact (h.contested_nextConflict hconflict).later (List.subset_append_left _ _) hlater.ext.kept

end AvalancheFlowGen

end Copycat.FlowGen
