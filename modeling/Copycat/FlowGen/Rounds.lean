import Copycat.FlowGen.Calm
import Copycat.FlowGen.Stock

/-!
# What a batch does to the stock

A pass of the loop of `AvalancheFlowGen::next_txn_batch` begins and ends with nothing
in hand: a payment takes a coin of a client and puts one back for it at least, and a
conflict takes one coin, or a new grant, and puts two back (`Stock.nextRound`). So no
list is empty that was not before (`Round.filled`), and with three accounts for each
client nothing in a batch panics (`Stock.nextTxnBatch_no_panic`).
-/

namespace Copycat.FlowGen.AvalancheFlowGen

open Copycat.Lib
open Avalanche (AvalancheTxn UniqueIds)

variable {ids : UniqueIds} {past : Hash → Hash → Prop} {made : List AvalancheTxn}
  {g g₁ g₂ : AvalancheFlowGen} {draws rest : List Nat}
  {txns txns₁ : List (ClientId × AvalancheTxn)} {u : ConflictingUtxo}

/-- Some passes of the loop. -/
structure Round (ids : UniqueIds) (past : Hash → Hash → Prop) (made : List AvalancheTxn)
    (g : AvalancheFlowGen) (txns : List (ClientId × AvalancheTxn)) (g₁ : AvalancheFlowGen) :
    Prop where
  stock : Stock ids past 0 (made ++ txns.map Prod.snd) g₁
  ext : Extends ids made g txns g₁
  filled : ∀ client, g.utxos client ≠ some [] → g₁.utxos client ≠ some []

/-- No pass at all. -/
theorem Round.refl (h : Stock ids past 0 made g) : Round ids past made g [] g where
  stock := by simpa using h
  ext := .refl ids made g
  filled _ h := h

/-- Some passes and then some more. -/
theorem Round.trans (h : Round ids past made g txns g₁)
    (h₁ : Round ids past (made ++ txns.map Prod.snd) g₁ txns₁ g₂) :
    Round ids past made g (txns ++ txns₁) g₂ where
  stock := by
    rw [List.map_append, ← List.append_assoc]
    exact h₁.stock
  ext := h.ext.trans h₁.ext
  filled client hclient := h₁.filled client (h.filled client hclient)

/-! ## A conflict -/

/-- A coin that is put away for conflicts is taken in hand. -/
theorem Stock.takeOut (h : Stock ids past 0 made g) {idx : Nat} {l : List (PubKey × PrivKey)}
    (hutxo : g.conflictingUtxos[idx]? = some u) (hl : g.accounts u.owner.1 = some l) :
    Stock ids past {⟨u.txnHash, keyAt l u.owner.2, u.value⟩} made
      { g with conflictingUtxos := g.conflictingUtxos.eraseIdx idx } := by
  refine ⟨h.keys, h.utxos, fun v hv => h.conflicts v (List.mem_of_mem_eraseIdx hv), ?_,
    fun _ h0 => absurd h0 (Multiset.singleton_ne_zero _), h.pairing, h.flying, h.sent⟩
  have hcoin : conflictCoin g.accounts u = ⟨u.txnHash, keyAt l u.owner.2, u.value⟩ := by
    rw [conflictCoin, hl]
    rfl
  have hsupply := h.supply
  rw [zero_add, coins, coins_eraseIdx _ hutxo, hcoin, Multiset.add_cons] at hsupply
  rw [Multiset.singleton_add]
  exact hsupply

/-- A new grant is sent to two clients, and its coin taken in hand. -/
theorem Stock.sendGrant (h : Stock ids past 0 made g) {pk : PubKey}
    (hnew : AvalancheTxn.grant 10 pk g.nonce ∉ made) (client client2 : ClientId)
    (hg₁ : g₁ = { g with
      nonce := g.nonce + 1
      inFlight := insert (ids.txnId (.grant 10 pk g.nonce)) g.inFlight }) :
    Stock ids past {⟨ids.txnId (.grant 10 pk g.nonce), pk, 10⟩}
        (made ++ [.grant 10 pk g.nonce, .grant 10 pk g.nonce]) g₁ ∧
      Extends ids made g [(client, .grant 10 pk g.nonce), (client2, .grant 10 pk g.nonce)] g₁ := by
  subst hg₁
  have hmade : ∀ x, Made ids ([AvalancheTxn.grant 10 pk g.nonce, .grant 10 pk g.nonce]) x ↔
      x = ids.txnId (.grant 10 pk g.nonce) := by
    intro x
    unfold Made
    simp [eq_comm]
  refine ⟨⟨h.keys, h.utxos, h.conflicts, ?_, fun _ h0 => absurd h0 (Multiset.singleton_ne_zero _),
    h.pairing, fun x y hxy => ?_, fun x hx => ?_⟩, ⟨rfl, rfl, rfl, fun x => ?_, fun _ _ hxy => hxy,
      fun _ _ hxy => Or.inl hxy, rfl, rfl, fun x hx => ?_, fun x hx => ?_⟩⟩
  · have hmint := (zero_add g.coins ▸ h.supply).mint hnew ⟨[], rfl, rfl⟩ rfl
      (c := ⟨ids.txnId (.grant 10 pk g.nonce), pk, 10⟩) ⟨rfl, by
        simp [avalanchePayments, owned, AvalancheTxn.ownedValue]⟩
    have hagain := hmint.again [.grant 10 pk g.nonce] fun t ht => by
      rw [List.mem_singleton.mp ht]
      exact List.mem_append_right _ (List.mem_singleton_self _)
    rw [List.append_assoc] at hagain
    rw [Multiset.singleton_add]
    exact hagain
  · obtain ⟨hx, hy⟩ := h.flying x y hxy
    exact ⟨Finset.mem_insert_of_mem hx, made_append.mpr (Or.inl hy)⟩
  · rcases Finset.mem_insert.mp hx with rfl | hx
    · exact made_append.mpr (Or.inr ((hmade _).mpr rfl))
    · exact made_append.mpr (Or.inl (h.sent x hx))
  · show x ∈ insert _ g.inFlight ↔ _ ∨ Made ids [_, _] x
    rw [Finset.mem_insert, hmade, or_comm]
  · simp only [List.mem_cons, List.not_mem_nil, or_false] at hx
    rcases hx with rfl | rfl
    · exact hnew
    · exact hnew
  · simp only [List.mem_cons, List.not_mem_nil, or_false] at hx
    rcases hx with rfl | rfl
    · rfl
    · rfl

/-- The coin that a conflict starts from. -/
theorem Stock.takeConflict (h : Stock ids past 0 made g)
    (hok : AvalancheFlowGen.takeConflict ids g draws = .ok (g₁, u, txns, rest)) :
    ∃ l, g.accounts u.owner.1 = some l ∧ u.owner.2 < l.length ∧
      Stock ids past {⟨u.txnHash, keyAt l u.owner.2, u.value⟩} (made ++ txns.map Prod.snd) g₁ ∧
      Extends ids made g txns g₁ ∧ g₁.utxos = g.utxos := by
  unfold AvalancheFlowGen.takeConflict at hok
  split at hok
  · simp only [bind_eq_ok, unwrap_eq_ok] at hok
    obtain ⟨⟨d, draws₁⟩, -, idx, -, utxo, hutxo, hok⟩ := hok
    simp only [Except.ok.injEq, Prod.mk.injEq] at hok
    obtain ⟨rfl, rfl, rfl, -⟩ := hok
    obtain ⟨l, hl, hlt⟩ := h.conflicts utxo (List.mem_of_getElem? hutxo)
    refine ⟨l, hl, hlt, ?_, { Extends.refl ids made g with }, rfl⟩
    rw [List.map_nil, List.append_nil]
    exact h.takeOut hutxo hl
  · rename_i hempty
    simp only [bind_eq_ok, unwrap_eq_ok] at hok
    obtain ⟨⟨d, draws₁⟩, -, clientIdx, -, client, -, l, hl, ⟨d₂, draws₂⟩, -, ownerIdx, -,
      ⟨pk, sk⟩, hpk, client2, -, hok⟩ := hok
    simp only [Except.ok.injEq, Prod.mk.injEq] at hok
    obtain ⟨hg₁, rfl, rfl, -⟩ := hok
    have hnone : g.conflictingUtxos = [] := List.eq_nil_of_length_eq_zero (by omega)
    obtain ⟨hstock, hext⟩ := h.sendGrant (h.nonce hnone rfl 10 pk) client client2 hg₁.symm
    refine ⟨l, hl, (List.getElem?_eq_some_iff.mp hpk).1, ?_, hext, by rw [← hg₁]⟩
    have hkey : keyAt l ownerIdx = pk := keyAt_eq hpk
    rw [hkey]
    exact hstock

/-- The coins at the two ends are put back. -/
theorem Stock.putBack {l : List (PubKey × PrivKey)} {ends : Ends} {value : UInt64}
    {client : ClientId} (clients : ClientId × ClientId)
    (h : Stock ids past (endCoins l value ends) made g) (hl : g.accounts client = some l)
    (hlt₁ : ends.recver1Idx < l.length) (hlt₂ : ends.recver2Idx < l.length) :
    Stock ids past 0 made { g with
      conflictingUtxos := g.conflictingUtxos ++
        [⟨(client, ends.recver1Idx), ends.txn1Hash, value, clients⟩,
          ⟨(client, ends.recver2Idx), ends.txn2Hash, value, clients⟩] } := by
  refine ⟨h.keys, h.utxos, fun v hv => ?_, ?_, fun hnil => absurd hnil (by simp), h.pairing,
    h.flying, h.sent⟩
  · rcases List.mem_append.mp hv with hv | hv
    · exact h.conflicts v hv
    · simp only [List.mem_cons, List.not_mem_nil, or_false] at hv
      rcases hv with rfl | rfl
      · exact ⟨l, hl, hlt₁⟩
      · exact ⟨l, hl, hlt₂⟩
  · have hcoins : endCoins l value ends + g.coins =
        0 + coins { g with
          conflictingUtxos := g.conflictingUtxos ++
            [⟨(client, ends.recver1Idx), ends.txn1Hash, value, clients⟩,
              ⟨(client, ends.recver2Idx), ends.txn2Hash, value, clients⟩] } := by
      have hback : (↑(([⟨(client, ends.recver1Idx), ends.txn1Hash, value, clients⟩,
          ⟨(client, ends.recver2Idx), ends.txn2Hash, value, clients⟩] :
            List ConflictingUtxo).map (conflictCoin g.accounts)) : Cash) =
          endCoins l value ends := by
        simp only [List.map_cons, List.map_nil, conflictCoin, hl]
        rfl
      rw [zero_add, coins, coins]
      show _ = ∑ client ∈ g.clientList.toFinset, g.held client +
        (↑((g.conflictingUtxos ++ _).map (conflictCoin g.accounts)) : Cash)
      rw [List.map_append, ← Multiset.coe_add, hback, add_comm (endCoins l value ends), add_assoc]
    exact hcoins ▸ h.supply

/-- A pass that makes a conflict: it pays the coin out to two sides, which go on
in pairs. -/
theorem Stock.nextConflict {more : Nat} (h : Stock ids past 0 made g)
    (hok : AvalancheFlowGen.nextConflict ids g draws = .ok (g₁, txns, more, rest)) :
    Round ids past made g txns g₁ := by
  unfold AvalancheFlowGen.nextConflict at hok
  simp only [bind_eq_ok, unwrap_eq_ok] at hok
  obtain ⟨⟨g₂, u, grants, draws₂⟩, htake, l, hl, ⟨g₃, ends₃, base, draws₃⟩, hbase,
    ⟨g₄, ends₄, more₄, draws₄⟩, hmore, hok⟩ := hok
  simp only [Except.ok.injEq, Prod.mk.injEq] at hok
  obtain ⟨rfl, rfl, -⟩ := hok
  obtain ⟨l₁, hl₁, -, hstock₂, hext₂, hutxos₂⟩ := h.takeConflict htake
  have hsame : l₁ = l := by
    have hl₂ : g.accounts u.owner.1 = some l := hext₂.accounts ▸ hl
    rw [hl₁, Option.some.injEq] at hl₂
    exact hl₂
  subst hsame
  have hpart₃ := hstock₂.basePair (h.keys u.owner.1 l₁ hl₁) hbase
  have hpart₄ := hpart₃.stock.extendPairs g₃.avaxCommitDepth hpart₃.recver1 hpart₃.recver2 hmore
  have hext₄ : Extends ids (made ++ (grants ++ base).map Prod.snd) g₃ more₄ g₄ := by
    rw [List.map_append, ← List.append_assoc]
    exact hpart₄.ext
  have hext := (hext₂.trans hpart₃.ext).trans hext₄
  have hl₄ : g₄.accounts u.owner.1 = some l₁ := by rw [hext.accounts, hl₁]
  refine ⟨?_, { hext with }, fun client hclient => ?_⟩
  · have hback := Stock.putBack u.clients hpart₄.stock hl₄ hpart₄.recver1 hpart₄.recver2
    simp only [List.map_append, ← List.append_assoc]
    exact hback
  · have hutxos : g₄.utxos = g.utxos := (hpart₄.utxos.trans hpart₃.utxos).trans hutxos₂
    show g₄.utxos client ≠ some []
    rw [hutxos]
    exact hclient

/-! ## A payment -/

/-- An output of value zero is not kept. -/
theorem mem_pushUtxo {utxos : List (Nat × Hash × UInt64)} {owner : Nat} {txnHash : Hash}
    {value : UInt64} {x : Nat × Hash × UInt64} (h : x ∈ pushUtxo utxos owner txnHash value) :
    x ∈ utxos ∨ x = (owner, txnHash, value) ∧ value > 0 := by
  unfold pushUtxo at h
  split at h
  · rename_i hpos
    exact (List.mem_append.mp h).imp_right fun hx => ⟨List.mem_singleton.mp hx, hpos⟩
  · exact Or.inl h

/-- What is worth something pays for something. -/
theorem min_pos {value : UInt64} (h : value > 0) : min value 10 > 0 := by
  show (if value ≤ 10 then value else 10) > 0
  split
  · exact h
  · decide

/-- All coins change as those of a client do. -/
theorem coins_changed {client : ClientId} {utxos : List (Nat × Hash × UInt64)}
    (hclient : client ∈ g.clientList) (haccounts : g₁.accounts = g.accounts)
    (hclients : g₁.clientList = g.clientList)
    (hconflicts : g₁.conflictingUtxos = g.conflictingUtxos)
    (hutxos : g₁.utxos = Function.update g.utxos client (some utxos)) :
    ∃ others, g.coins = g.held client + others ∧
      g₁.coins = utxoCoins ((g.accounts client).getD []) utxos + others := by
  have hmem : client ∈ g.clientList.toFinset := List.mem_toFinset.mpr hclient
  obtain ⟨others, hold, hnew⟩ := sum_changed g.held g₁.held hmem fun c hc => by
    rw [held, held, haccounts, hutxos, Function.update_of_ne hc]
  refine ⟨others + ↑(g.conflictingUtxos.map (conflictCoin g.accounts)), ?_, ?_⟩
  · rw [coins, hold, add_assoc]
  · rw [coins, hclients, hconflicts, haccounts, hnew, held, haccounts, hutxos, Function.update_self,
      Option.getD_some, add_assoc]

/-- What remains to be shown for a new transaction that changes the coins of one client
is that they are accounted for. -/
theorem Stock.changed (h : Stock ids past 0 made g) {client : ClientId}
    {l : List (PubKey × PrivKey)} (hl : g.accounts client = some l) {t : AvalancheTxn}
    (hgrant : ∀ o r, t ≠ .grant o r g.nonce) {utxos : List (Nat × Hash × UInt64)}
    (hall : ∀ x ∈ utxos, x.1 < l.length ∧ x.2.2 > 0) {inFlight : Finset Hash}
    (hkept : g.inFlight ⊆ inFlight) (hnew : ∀ x ∈ inFlight, x ∈ g.inFlight ∨ x = ids.txnId t)
    (hg₁ : g₁ = { g with
      utxos := Function.update g.utxos client (some utxos)
      inFlight := inFlight })
    (hsupply : Supply (avalanchePayments ids) (Rival ids past g) (made ++ [t]) g₁.coins) :
    Stock ids past 0 (made ++ [t]) g₁ := by
  subst hg₁
  refine ⟨h.keys, fun c hc => ?_, h.conflicts, ?_, fun hnil _ o r hmem => ?_, h.pairing,
    fun x y hxy => ?_, fun x hx => ?_⟩
  · obtain ⟨l₁, utxos₁, hl₁, hutxos₁, hall₁⟩ := h.utxos c hc
    by_cases he : c = client
    · subst he
      exact ⟨l, utxos, hl, Function.update_self .., hall⟩
    · exact ⟨l₁, utxos₁, hl₁, (Function.update_of_ne he ..).trans hutxos₁, hall₁⟩
  · rw [zero_add]
    exact hsupply
  · rcases List.mem_append.mp hmem with hmem | hmem
    · exact h.nonce hnil rfl o r hmem
    · exact hgrant o r (List.mem_singleton.mp hmem).symm
  · obtain ⟨hx, hy⟩ := h.flying x y hxy
    exact ⟨hkept hx, made_append.mpr (Or.inl hy)⟩
  · rcases hnew x hx with hx | rfl
    · exact made_append.mpr (Or.inl (h.sent x hx))
    · exact made_append.mpr (Or.inr ⟨t, List.mem_singleton_self t, rfl⟩)

/-- A pass that makes one payment. -/
theorem Stock.nextSend (h : Stock ids past 0 made g)
    (hok : AvalancheFlowGen.nextSend ids g draws = .ok (g₁, txns, rest)) :
    Round ids past made g txns g₁ := by
  unfold AvalancheFlowGen.nextSend at hok
  simp only [bind_eq_ok, unwrap_eq_ok] at hok
  obtain ⟨⟨d, draws₁⟩, -, clientIdx, -, client, hclient, l, hl, utxos, hutxos, ⟨d₂, draws₂⟩, -, idx,
    -, ⟨sender, inUtxo, amount⟩, hidx, ⟨d₃, draws₃⟩, -, recver, hrecver, t, ht, hok⟩ := hok
  dsimp only at hrecver ht hok
  simp only [Except.ok.injEq, Prod.mk.injEq] at hok
  obtain ⟨hg₁, rfl, -⟩ := hok
  have hclient := List.mem_of_getElem? hclient
  obtain ⟨l₁, utxos₁, hl₁, hutxos₁, hall⟩ := h.utxos client hclient
  rw [hl, Option.some.injEq] at hl₁
  rw [hutxos, Option.some.injEq] at hutxos₁
  subst hl₁ hutxos₁
  obtain ⟨hsender, hpos⟩ := hall _ (List.mem_of_getElem? hidx)
  obtain ⟨-, hrecver₁, signature, htxn⟩ := transfer_spec ht
  have hkeys : keyAt l recver ≠ keyAt l sender :=
    keyAt_ne (h.keys client l hl) hrecver₁ hsender (recver1Idx_spec hsender hrecver).2
  obtain ⟨hpays, hleaves⟩ := send_spec ids hkeys htxn
  -- the coin that is taken, and the coins that are put back
  obtain ⟨others, hcoins, hcoins₁⟩ := coins_changed hclient (congrArg accounts hg₁).symm
    (congrArg clientList hg₁).symm (congrArg conflictingUtxos hg₁).symm
    (congrArg AvalancheFlowGen.utxos hg₁).symm
  rw [hl, Option.getD_some, utxoCoins_push, utxoCoins_push, ← add_assoc, add_assoc] at hcoins₁
  have hsupply := h.supply
  rw [zero_add, hcoins, held, hl, hutxos, Option.getD_some, Option.getD_some, utxoCoins,
    coins_eraseIdx _ hidx, Multiset.cons_add] at hsupply
  have hnew := hsupply.fresh hpays
  have hpaid := hsupply.pay_once hpays hleaves (outputCoins_once hkeys _ _)
  have hmade : ∀ x, Made ids [t] x ↔ x = ids.txnId t := by
    intro x
    unfold Made
    simp [eq_comm]
  have hin : ∀ x ∈ pushUtxo (pushUtxo (utxos.eraseIdx idx) sender (ids.txnId t)
      (amount - min amount 10)) recver (ids.txnId t) (min amount 10),
      x.1 < l.length ∧ x.2.2 > 0 := by
    intro x hx
    rcases mem_pushUtxo hx with hx | ⟨rfl, hpos⟩
    · rcases mem_pushUtxo hx with hx | ⟨rfl, hpos⟩
      · exact hall x (List.mem_of_mem_eraseIdx hx)
      · exact ⟨hsender, hpos⟩
    · exact ⟨hrecver₁, hpos⟩
  have hstock := h.changed hl (fun o r he => by simp [htxn] at he) hin (Finset.subset_insert _ _)
    (fun x hx => (Finset.mem_insert.mp hx).symm) hg₁.symm (hcoins₁ ▸ hpaid)
  subst hg₁
  refine ⟨hstock, ⟨rfl, rfl, rfl, fun x => ?_, fun _ _ hxy => hxy, fun _ _ hxy => Or.inl hxy, rfl,
    rfl, fun x hx => ?_, fun x hx => ?_⟩, fun c hc => ?_⟩
  · show x ∈ insert _ g.inFlight ↔ _ ∨ Made ids [t] x
    rw [Finset.mem_insert, hmade, or_comm]
  · rw [List.mem_singleton.mp hx]
    exact hnew
  · rw [List.mem_singleton.mp hx, htxn]
    rfl
  · show Function.update g.utxos client _ c ≠ some []
    by_cases he : c = client
    · rw [he, Function.update_self, pushUtxo, if_pos (min_pos hpos)]
      simp
    · rw [Function.update_of_ne he]
      exact hc

/-! ## A batch -/

/-- A pass is one of the two. -/
theorem Stock.nextRound {more : Nat} (h : Stock ids past 0 made g)
    (hok : AvalancheFlowGen.nextRound ids g draws = .ok (g₁, txns, more, rest)) :
    Round ids past made g txns g₁ := by
  unfold AvalancheFlowGen.nextRound at hok
  rw [bind_eq_ok] at hok
  obtain ⟨⟨r, draws₁⟩, -, hok⟩ := hok
  dsimp only at hok
  split at hok
  · rw [bind_eq_ok] at hok
    obtain ⟨⟨g₂, txns₂, draws₂⟩, hsend, hok⟩ := hok
    simp only [Except.ok.injEq, Prod.mk.injEq] at hok
    obtain ⟨rfl, rfl, -⟩ := hok
    exact h.nextSend hsend
  · exact h.nextConflict hok

/-- **All passes of a batch**: whatever the draws, the stock is kept, and what
was made is added to it. -/
theorem Stock.nextRounds (left : Nat) : ∀ {made : List AvalancheTxn} {g g₁ : AvalancheFlowGen}
    {draws rest : List Nat} {txns : List (ClientId × AvalancheTxn)}, Stock ids past 0 made g →
      AvalancheFlowGen.nextRounds ids left g draws = .ok (g₁, txns, rest) →
      Round ids past made g txns g₁ := by
  induction left using Nat.strong_induction_on with
  | h left ih =>
    intro made g g₁ draws rest txns h hok
    cases left with
    | zero =>
      simp only [AvalancheFlowGen.nextRounds, Except.ok.injEq, Prod.mk.injEq] at hok
      obtain ⟨rfl, rfl, -⟩ := hok
      exact .refl h
    | succ left =>
      rw [AvalancheFlowGen.nextRounds] at hok
      simp only [bind_eq_ok] at hok
      obtain ⟨⟨g₂, txns₂, more, draws₂⟩, hround, ⟨g₃, txns₃, draws₃⟩, hrest, hok⟩ := hok
      simp only [Except.ok.injEq, Prod.mk.injEq] at hok
      obtain ⟨rfl, rfl, -⟩ := hok
      have hfirst := h.nextRound hround
      exact hfirst.trans (ih (left - more) (by omega) hfirst.stock hrest)

/-- A batch leaves the stock in order. -/
theorem Stock.nextTxnBatch (h : Stock ids past 0 made g)
    (hok : AvalancheFlowGen.nextTxnBatch ids g draws = .ok (g₁, txns, rest)) :
    Round ids past made g txns g₁ := by
  unfold AvalancheFlowGen.nextTxnBatch at hok
  split at hok
  · exact h.nextRounds _ hok
  · rw [bind_eq_ok] at hok
    obtain ⟨inflight, -, hok⟩ := hok
    exact h.nextRounds _ hok

/-! ## In flight -/

/-- What is in flight and not registered as a conflict. -/
def single (g : AvalancheFlowGen) : Finset Hash := g.inFlight \ g.pairing.keys

/-- `get_inflight_count` counts what is not a conflict, and the conflicts that are
whole. -/
theorem Stock.inflightCount {hand : Cash} (h : Stock ids past hand made g) :
    g.getInflightCount = .ok (g.single.card + g.pairing.whole.ncard) := by
  have hsub : g.pairing.keys ⊆ g.inFlight := by
    intro x hx
    obtain ⟨y, hxy⟩ := Pairing.mem_keys.mp hx
    exact (h.flying x y hxy).1
  have hle := Finset.card_le_card hsub
  have hsingle : g.single.card = g.inFlight.card - g.pairing.keys.card :=
    Finset.card_sdiff_of_subset hsub
  have hadded : g.conflictsSent = g.conflictsRecv + g.pairing.whole.ncard := h.pairing.added_eq.1
  have hkeys : g.pairing.keys.card = g.inFlightConflict.entries.length := Pairing.card_keys _
  unfold getInflightCount checkedSub
  rw [if_pos (by omega)]
  show (if g.conflictsRecv ≤ _ then _ else _) = _
  rw [if_pos (by omega)]
  refine congrArg Except.ok ?_
  omega

/-! ## Nothing panics -/

section Calm

variable {l : List (PubKey × PrivKey)}

/-- A payment between accounts that exist does not panic. -/
theorem noPanic_transfer {i j : Nat} (hi : i < l.length) (hj : j < l.length)
    (crypto : CryptoScheme) (h : Hash) (outUtxo remainder : UInt64) :
    NoPanic (transfer crypto l i j h outUtxo remainder) :=
  (noPanic_getElem? hi).bind fun _ _ => (noPanic_getElem? hj).bind fun _ _ => noPanic_ok _

/-- The bottom pair needs a third account. -/
theorem noPanic_basePair (hlen : 2 < l.length) (howner : u.owner.2 < l.length)
    (g : AvalancheFlowGen) (draws : List Nat) : NoPanic (basePair ids l u g draws) := by
  refine (noPanic_draw _).bind fun _ _ => ?_
  refine (noPanic_recver1Idx (by omega) _ _).bind fun i hi => ?_
  refine (noPanic_transfer howner (recver1Idx_spec howner hi).1 _ _ _ _).bind fun _ _ => ?_
  refine (noPanic_draw _).bind fun _ _ => ?_
  refine (noPanic_recver2Idx hlen _ _ _).bind fun j hj => ?_
  exact (noPanic_transfer howner (recver2Idx_spec hj).1 _ _ _ _).bind fun _ _ => noPanic_ok _

/-- A pair on top of it needs a second one only: the two sides may pay the same
account. -/
theorem noPanic_extendPair {ends : Ends} (hlen : 1 < l.length) (h₁ : ends.recver1Idx < l.length)
    (h₂ : ends.recver2Idx < l.length) (g : AvalancheFlowGen) (draws : List Nat) :
    NoPanic (extendPair ids l u g ends draws) := by
  refine (noPanic_draw _).bind fun _ _ => ?_
  refine (noPanic_recver1Idx hlen _ _).bind fun i hi => ?_
  refine (noPanic_transfer h₁ (recver1Idx_spec h₁ hi).1 _ _ _ _).bind fun _ _ => ?_
  refine (noPanic_draw _).bind fun _ _ => ?_
  refine (noPanic_recver1Idx hlen _ _).bind fun j hj => ?_
  exact (noPanic_transfer h₂ (recver1Idx_spec h₂ hj).1 _ _ _ _).bind fun _ _ => noPanic_ok _

/-- All pairs on top; the ends are accounts again. -/
theorem Stock.noPanic_extendPairs (hlen : 1 < l.length) (n : Nat) : ∀ {made : List AvalancheTxn}
    {g : AvalancheFlowGen} {ends : Ends} {draws : List Nat},
    Stock ids past (endCoins l u.value ends) made g → ends.recver1Idx < l.length →
      ends.recver2Idx < l.length →
      NoPanic (AvalancheFlowGen.extendPairs ids l u n g ends draws) := by
  induction n with
  | zero => exact fun _ _ _ => noPanic_ok _
  | succ n ih =>
    intro made g ends draws h h₁ h₂
    refine (noPanic_extendPair hlen h₁ h₂ g draws).bind fun x hx => ?_
    have hpart := h.extendPair hx
    exact (ih hpart.stock hpart.recver1 hpart.recver2).bind fun _ _ => noPanic_ok _

/-- Every client has three accounts and something to spend. -/
structure Equipped (g : AvalancheFlowGen) : Prop where
  clients : g.clientList ≠ []
  accounts : ∀ client l, g.accounts client = some l → 2 < l.length
  filled : ∀ client ∈ g.clientList, g.utxos client ≠ some []

/-- What a generator needs it still has after a pass. -/
theorem Equipped.round (h : g.Equipped) (hround : Round ids past made g txns g₁) :
    g₁.Equipped where
  clients := hround.ext.clientList ▸ h.clients
  accounts client l hl := h.accounts client l (hround.ext.accounts ▸ hl)
  filled client hclient := hround.filled client (h.filled client (hround.ext.clientList ▸ hclient))

/-- A payment does not panic: every client has an output to spend. -/
theorem Stock.noPanic_nextSend (h : Stock ids past 0 made g) (hg : g.Equipped) (draws : List Nat) :
    NoPanic (AvalancheFlowGen.nextSend ids g draws) := by
  refine (noPanic_draw _).bind fun _ _ => ?_
  refine (noPanic_rem (List.length_pos_iff.mpr hg.clients) _).bind fun i hi => ?_
  refine (noPanic_getElem? (rem_lt hi)).bind fun client hclient => ?_
  have hclient := List.mem_of_getElem? (unwrap_eq_ok.mp hclient)
  obtain ⟨l, utxos, hl, hutxos, hall⟩ := h.utxos client hclient
  rw [hl, hutxos]
  have hfilled : utxos ≠ [] := fun he => hg.filled client hclient (he ▸ hutxos)
  refine (noPanic_ok l).bind fun l₁ hl₁ => ?_
  obtain rfl := Except.ok.inj hl₁
  refine (noPanic_ok utxos).bind fun utxos₁ hutxos₁ => ?_
  obtain rfl := Except.ok.inj hutxos₁
  refine (noPanic_draw _).bind fun _ _ => ?_
  refine (noPanic_rem (List.length_pos_iff.mpr hfilled) _).bind fun j hj => ?_
  refine (noPanic_getElem? (rem_lt hj)).bind fun x hx => ?_
  have hsender := (hall x (List.mem_of_getElem? (unwrap_eq_ok.mp hx))).1
  have hlen := hg.accounts client l hl
  refine (noPanic_draw _).bind fun _ _ => ?_
  refine (noPanic_recver1Idx (by omega) _ _).bind fun k hk => ?_
  exact (noPanic_transfer hsender (recver1Idx_spec hsender hk).1 _ _ _ _).bind fun _ _ =>
    noPanic_ok _

/-- Nor does looking for the output a conflict starts from. -/
theorem Stock.noPanic_takeConflict (h : Stock ids past 0 made g) (hg : g.Equipped)
    (draws : List Nat) : NoPanic (AvalancheFlowGen.takeConflict ids g draws) := by
  have hclients := List.length_pos_iff.mpr hg.clients
  unfold AvalancheFlowGen.takeConflict
  split
  · rename_i hpos
    refine (noPanic_draw _).bind fun _ _ => ?_
    refine (noPanic_rem hpos _).bind fun i hi => ?_
    exact (noPanic_getElem? (rem_lt hi)).bind fun _ _ => noPanic_ok _
  · refine (noPanic_draw _).bind fun _ _ => ?_
    refine (noPanic_rem hclients _).bind fun i hi => ?_
    refine (noPanic_getElem? (rem_lt hi)).bind fun client hclient => ?_
    obtain ⟨l, utxos, hl, -, -⟩ := h.utxos client (List.mem_of_getElem? (unwrap_eq_ok.mp hclient))
    have hlen := hg.accounts client l hl
    rw [hl]
    refine (noPanic_ok l).bind fun l₁ hl₁ => ?_
    obtain rfl := Except.ok.inj hl₁
    refine (noPanic_draw _).bind fun _ _ => ?_
    refine (noPanic_rem (by omega) _).bind fun j hj => ?_
    refine (noPanic_getElem? (rem_lt hj)).bind fun _ _ => ?_
    exact (noPanic_getElem? (Nat.mod_lt _ hclients)).bind fun _ _ => noPanic_ok _

/-- Nor does the conflict itself. -/
theorem Stock.noPanic_nextConflict (h : Stock ids past 0 made g) (hg : g.Equipped)
    (draws : List Nat) : NoPanic (AvalancheFlowGen.nextConflict ids g draws) := by
  refine (h.noPanic_takeConflict hg draws).bind fun x hx => ?_
  obtain ⟨l, hl, howner, hstock, hext, -⟩ := h.takeConflict hx
  have hlen := hg.accounts _ l hl
  have hl₁ : x.1.accounts x.2.1.owner.1 = some l := hext.accounts ▸ hl
  refine (noPanic_unwrap hl₁).bind fun l₁ hl₂ => ?_
  rw [hl₁, unwrap_some, Except.ok.injEq] at hl₂
  subst hl₂
  refine (noPanic_basePair hlen howner _ _).bind fun y hy => ?_
  have hpart := hstock.basePair (h.keys _ l hl) hy
  exact (hpart.stock.noPanic_extendPairs (by omega) _ hpart.recver1 hpart.recver2).bind fun _ _ =>
    noPanic_ok _

/-- Nor does a whole batch. -/
theorem Stock.noPanic_nextRounds (left : Nat) : ∀ {made : List AvalancheTxn} {g : AvalancheFlowGen}
    {draws : List Nat}, Stock ids past 0 made g → g.Equipped →
      NoPanic (AvalancheFlowGen.nextRounds ids left g draws) := by
  induction left using Nat.strong_induction_on with
  | h left ih =>
    intro made g draws h hg
    cases left with
    | zero =>
      rw [AvalancheFlowGen.nextRounds]
      exact noPanic_ok _
    | succ left =>
      rw [AvalancheFlowGen.nextRounds]
      have hround : NoPanic (AvalancheFlowGen.nextRound ids g draws) := by
        refine ((noPanic_draw draws).bind fun _ _ => noPanic_ok _).bind fun r _ => ?_
        dsimp only
        split
        · exact (h.noPanic_nextSend hg _).bind fun _ _ => noPanic_ok _
        · exact h.noPanic_nextConflict hg _
      refine hround.bind fun x hx => ?_
      have hfirst := h.nextRound hx
      exact (ih (left - x.2.2.1) (by omega) hfirst.stock (hg.round hfirst)).bind fun _ _ =>
        noPanic_ok _

/-- A batch does not panic. -/
theorem Stock.nextTxnBatch_no_panic (h : Stock ids past 0 made g) (hg : g.Equipped)
    (draws : List Nat) : NoPanic (AvalancheFlowGen.nextTxnBatch ids g draws) := by
  unfold AvalancheFlowGen.nextTxnBatch
  split
  · exact h.noPanic_nextRounds _ hg
  · rw [h.inflightCount]
    exact h.noPanic_nextRounds _ hg

end Calm

end Copycat.FlowGen.AvalancheFlowGen
