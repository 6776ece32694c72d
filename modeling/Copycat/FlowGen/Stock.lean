import Copycat.FlowGen.Funds
import Copycat.Lib.Pairing

/-!
# The stock of an Avalanche generator

`AvalancheFlowGen` has coins in the lists of its clients and in `conflicting_utxos`,
and while it makes a conflict it has one on each side in hand. `Stock` says that they
are outputs of what it has made and not spent, but for the two payments that a
conflict starts with, which are registered as a pair (`Rival`). All that is made is
new, so a registered hash is not registered again before or after it is reported
(`Pairing`).
-/

namespace Copycat.FlowGen

open Copycat.Lib
open Avalanche (AvalancheTxn UniqueIds)

/-! ## Payments -/

/-- The value the transaction assigns to `owner`. -/
def owned (owner : PubKey) (t : AvalancheTxn) : Option UInt64 :=
  match t.ownedValue owner with
  | .ok value => value
  | .error _ => none

/-- Transactions as payments with coins. -/
def avalanchePayments (ids : UniqueIds) : Payments Hash PubKey UInt64 AvalancheTxn where
  toItems := (Avalanche.avalancheKind ids).items
  spends t := {x | x ∈ t.utxos}
  owned := owned
  key_inj := ids.txnId_inj
  spends_deps t x hx := by
    cases t with
    | send =>
      obtain ⟨h, hh, rfl⟩ := List.mem_map.mp hx
      exact hh
    | _ => exact absurd hx List.not_mem_nil

variable {ids : UniqueIds}

/-- A payment with one input that is worth its outputs. -/
theorem avalanche_pays (ids : UniqueIds) {c : Coin Hash PubKey UInt64} {outUtxo remainder : UInt64}
    (hvalue : outUtxo + remainder = c.value) (receiver : PubKey) (signature : Signature) :
    (avalanchePayments ids).Pays c
      (.send c.owner [c.key] receiver outUtxo remainder signature) where
  spends := by
    ext x
    exact List.mem_singleton
  deps := rfl
  good p hp howned := by
    refine ⟨[p], congrArg (fun h => [h]) hp, ?_⟩
    have howned : (match p.ownedValue c.owner with
      | .ok value => value
      | .error _ => none) = some c.value := howned
    have hvalue₁ : p.ownedValue c.owner = .ok (some c.value) := by
      cases hp : p.ownedValue c.owner with
      | ok value =>
        rw [hp] at howned
        exact congrArg Except.ok howned
      | error => simp [hp] at howned
    show (AvalancheTxn.parentsValue c.owner [p] 0 >>= fun inputValue =>
      .ok (decide (inputValue = some (outUtxo + remainder)))) = .ok true
    refine bind_eq_ok.mpr ⟨some c.value, ?_, by rw [hvalue, decide_eq_true rfl]⟩
    rw [AvalancheTxn.parentsValue, hvalue₁]
    show AvalancheTxn.parentsValue c.owner [] (0 + c.value) = _
    rw [AvalancheTxn.parentsValue, UInt64.zero_add]

theorem leaves_receiver (ids : UniqueIds) (sender : PubKey) (inUtxo : List Hash)
    (receiver : PubKey) (outUtxo remainder : UInt64) (signature : Signature) :
    (avalanchePayments ids).Leaves (.send sender inUtxo receiver outUtxo remainder signature)
      ⟨ids.txnId (.send sender inUtxo receiver outUtxo remainder signature), receiver,
        outUtxo⟩ := by
  refine ⟨rfl, ?_⟩
  show owned receiver (.send sender inUtxo receiver outUtxo remainder signature) = some outUtxo
  simp [owned, AvalancheTxn.ownedValue]

theorem leaves_sender (ids : UniqueIds) {sender receiver : PubKey} (hne : receiver ≠ sender)
    (inUtxo : List Hash) (outUtxo remainder : UInt64) (signature : Signature) :
    (avalanchePayments ids).Leaves (.send sender inUtxo receiver outUtxo remainder signature)
      ⟨ids.txnId (.send sender inUtxo receiver outUtxo remainder signature), sender,
        remainder⟩ := by
  refine ⟨rfl, ?_⟩
  show owned sender (.send sender inUtxo receiver outUtxo remainder signature) = some remainder
  simp [owned, AvalancheTxn.ownedValue, hne]

/-- A payment of a coin that leaves the two outputs. -/
theorem send_spec (ids : UniqueIds) {sender receiver : PubKey} (hne : receiver ≠ sender)
    {inUtxo : Hash} {amount : UInt64} {signature : Signature} {t : AvalancheTxn}
    (ht : t = .send sender [inUtxo] receiver (min amount 10) (amount - min amount 10) signature) :
    (avalanchePayments ids).Pays ⟨inUtxo, sender, amount⟩ t ∧
      ∀ c ∈ outputCoin (ids.txnId t) receiver (min amount 10) +
        outputCoin (ids.txnId t) sender (amount - min amount 10),
          (avalanchePayments ids).Leaves t c := by
  subst ht
  refine ⟨avalanche_pays ids (split_value amount).1 receiver signature, fun c hc => ?_⟩
  rcases Multiset.mem_add.mp hc with hc | hc
  · rw [mem_outputCoin hc]
    exact leaves_receiver ..
  · rw [mem_outputCoin hc]
    exact leaves_sender ids hne ..

/-! ## Coins in lists -/

/-- The key of an account. -/
def keyAt (accounts : List (PubKey × PrivKey)) (idx : Nat) : PubKey :=
  ((accounts[idx]?).map Prod.fst).getD []

/-- The coins in the list of a client. -/
def utxoCoins (accounts : List (PubKey × PrivKey)) (utxos : List (Nat × Hash × UInt64)) : Cash :=
  ↑(utxos.map fun u => (⟨u.2.1, keyAt accounts u.1, u.2.2⟩ : Coin Hash PubKey UInt64))

theorem keyAt_eq {accounts : List (PubKey × PrivKey)} {idx : Nat} {a : PubKey × PrivKey}
    (h : accounts[idx]? = some a) : keyAt accounts idx = a.1 := by
  rw [keyAt, h]
  rfl

theorem keyAt_ne {accounts : List (PubKey × PrivKey)} (hnodup : (accounts.map Prod.fst).Nodup)
    {i j : Nat} (hi : i < accounts.length) (hj : j < accounts.length) (hne : i ≠ j) :
    keyAt accounts i ≠ keyAt accounts j := by
  rw [keyAt_eq (List.getElem?_eq_getElem hi), keyAt_eq (List.getElem?_eq_getElem hj)]
  exact keys_ne hnodup (List.getElem?_eq_getElem hi) (List.getElem?_eq_getElem hj) hne

/-- A coin leaves a list. -/
theorem coins_eraseIdx {α : Type} (f : α → Coin Hash PubKey UInt64) {l : List α} {i : Nat} {x : α}
    (h : l[i]? = some x) : (↑(l.map f) : Cash) = f x ::ₘ ↑((l.eraseIdx i).map f) := by
  obtain ⟨hlt, rfl⟩ := List.getElem?_eq_some_iff.mp h
  rw [Multiset.cons_coe, Multiset.coe_eq_coe, ← List.map_cons]
  exact ((List.getElem_cons_eraseIdx_perm hlt).symm).map f

theorem utxoCoins_push (accounts : List (PubKey × PrivKey)) (utxos : List (Nat × Hash × UInt64))
    (owner : Nat) (txnHash : Hash) (value : UInt64) :
    utxoCoins accounts (AvalancheFlowGen.pushUtxo utxos owner txnHash value) =
      outputCoin txnHash (keyAt accounts owner) value + utxoCoins accounts utxos := by
  unfold AvalancheFlowGen.pushUtxo outputCoin
  split
  · rw [utxoCoins, List.map_append, ← Multiset.coe_add, add_comm]
    rfl
  · rw [zero_add]

namespace AvalancheFlowGen

/-- The coins of a client. -/
def held (g : AvalancheFlowGen) (client : ClientId) : Cash :=
  utxoCoins ((g.accounts client).getD []) ((g.utxos client).getD [])

/-- The coin that a conflict may start from. -/
def conflictCoin (accounts : Accounts) (u : ConflictingUtxo) : Coin Hash PubKey UInt64 :=
  ⟨u.txnHash, keyAt ((accounts u.owner.1).getD []) u.owner.2, u.value⟩

/-- All coins. -/
def coins (g : AvalancheFlowGen) : Cash :=
  ∑ client ∈ g.clientList.toFinset, g.held client +
    ↑(g.conflictingUtxos.map (conflictCoin g.accounts))

/-- The registered conflicts, and what has been reported of them. -/
def pairing (g : AvalancheFlowGen) : Pairing Hash :=
  ⟨g.inFlightConflict, g.conflictSet, g.conflictsSent, g.conflictsRecv, g.conflictsCommitted⟩

/-- The two transactions that a conflict starts with: the same output, and all of it
to two receivers. -/
def BasePair (t t₁ : AvalancheTxn) : Prop :=
  ∃ sender inUtxo receiver receiver₁ value signature signature₁, receiver ≠ receiver₁ ∧
    t = .send sender [inUtxo] receiver value 0 signature ∧
    t₁ = .send sender [inUtxo] receiver₁ value 0 signature₁

/-- The two start a conflict, and are registered as a pair, now or in the past. -/
def Rival (ids : UniqueIds) (past : Hash → Hash → Prop) (g : AvalancheFlowGen)
    (t t₁ : AvalancheTxn) : Prop :=
  BasePair t t₁ ∧ (past (ids.txnId t) (ids.txnId t₁) ∨
    g.inFlightConflict.lookup (ids.txnId t) = some (ids.txnId t₁))

/-- The hash of something that has been made. -/
def Made (ids : UniqueIds) (made : List AvalancheTxn) (h : Hash) : Prop :=
  ∃ t ∈ made, ids.txnId t = h

/-- What holds while transactions are made, with some coins in hand. -/
structure Stock (ids : UniqueIds) (past : Hash → Hash → Prop) (hand : Cash)
    (made : List AvalancheTxn) (g : AvalancheFlowGen) : Prop where
  keys : ∀ client l, g.accounts client = some l → (l.map Prod.fst).Nodup
  utxos : ∀ client ∈ g.clientList, ∃ l utxos, g.accounts client = some l ∧
    g.utxos client = some utxos ∧ ∀ x ∈ utxos, x.1 < l.length ∧ x.2.2 > 0
  conflicts : ∀ u ∈ g.conflictingUtxos, ∃ l, g.accounts u.owner.1 = some l ∧ u.owner.2 < l.length
  supply : Supply (avalanchePayments ids) (Rival ids past g) made (hand + g.coins)
  nonce : g.conflictingUtxos = [] → hand = 0 → ∀ o r, .grant o r g.nonce ∉ made
  pairing : g.pairing.Good
  flying : ∀ h h₁, g.inFlightConflict.lookup h = some h₁ → h ∈ g.inFlight ∧ Made ids made h₁
  sent : ∀ h ∈ g.inFlight, Made ids made h

/-- What making transactions does to the rest of the state. -/
structure Extends (ids : UniqueIds) (made : List AvalancheTxn) (g : AvalancheFlowGen)
    (txns : List (ClientId × AvalancheTxn)) (g₁ : AvalancheFlowGen) : Prop where
  accounts : g₁.accounts = g.accounts
  clientList : g₁.clientList = g.clientList
  depth : g₁.avaxCommitDepth = g.avaxCommitDepth
  inFlight : ∀ h, h ∈ g₁.inFlight ↔ h ∈ g.inFlight ∨ Made ids (txns.map Prod.snd) h
  kept : ∀ h h₁, g.inFlightConflict.lookup h = some h₁ → g₁.inFlightConflict.lookup h = some h₁
  new : ∀ h h₁, g₁.inFlightConflict.lookup h = some h₁ →
    g.inFlightConflict.lookup h = some h₁ ∨ Made ids (txns.map Prod.snd) h
  waiting : g₁.conflictSet = g.conflictSet
  received : g₁.conflictsRecv = g.conflictsRecv
  fresh : ∀ x ∈ txns, x.2 ∉ made
  client : ∀ x ∈ txns, x.2.fromClient

section Extends

variable {made made₁ : List AvalancheTxn} {g g₁ g₂ : AvalancheFlowGen}
  {txns txns₁ : List (ClientId × AvalancheTxn)} {past : Hash → Hash → Prop} {hand : Cash}

theorem made_append {h : Hash} :
    Made ids (made ++ made₁) h ↔ Made ids made h ∨ Made ids made₁ h := by
  unfold Made
  simp only [List.mem_append, or_and_right, exists_or]

theorem Extends.refl (ids : UniqueIds) (made : List AvalancheTxn) (g : AvalancheFlowGen) :
    Extends ids made g [] g where
  accounts := rfl
  clientList := rfl
  depth := rfl
  inFlight h := (or_iff_left fun hmade => by
    obtain ⟨t, ht, -⟩ := hmade
    exact List.not_mem_nil ht).symm
  kept _ _ h := h
  new _ _ h := Or.inl h
  waiting := rfl
  received := rfl
  fresh x hx := absurd hx List.not_mem_nil
  client x hx := absurd hx List.not_mem_nil

theorem Extends.trans (h : Extends ids made g txns g₁)
    (h₁ : Extends ids (made ++ txns.map Prod.snd) g₁ txns₁ g₂) :
    Extends ids made g (txns ++ txns₁) g₂ where
  accounts := h₁.accounts.trans h.accounts
  clientList := h₁.clientList.trans h.clientList
  depth := h₁.depth.trans h.depth
  inFlight x := by
    rw [h₁.inFlight, h.inFlight, List.map_append, made_append, or_assoc]
  kept x y hxy := h₁.kept x y (h.kept x y hxy)
  new x y hxy := by
    rw [List.map_append, made_append]
    rcases h₁.new x y hxy with hxy | hmade
    · exact (h.new x y hxy).imp_right Or.inl
    · exact Or.inr (Or.inr hmade)
  waiting := h₁.waiting.trans h.waiting
  received := h₁.received.trans h.received
  fresh x hx := by
    rcases List.mem_append.mp hx with hx | hx
    · exact h.fresh x hx
    · exact fun hmade => h₁.fresh x hx (List.mem_append_left _ hmade)
  client x hx := by
    rcases List.mem_append.mp hx with hx | hx
    · exact h.client x hx
    · exact h₁.client x hx

theorem BasePair.symm {t t₁ : AvalancheTxn} (h : BasePair t t₁) : BasePair t₁ t := by
  obtain ⟨sender, inUtxo, receiver, receiver₁, value, signature, signature₁, hne, ht, ht₁⟩ := h
  exact ⟨sender, inUtxo, receiver₁, receiver, value, signature₁, signature, hne.symm, ht₁, ht⟩

theorem Extends.rival (h : Extends ids made g txns g₁) (t t₁ : AvalancheTxn)
    (hrival : Rival ids past g t t₁) : Rival ids past g₁ t t₁ :=
  ⟨hrival.1, hrival.2.imp_right fun hlookup => h.kept _ _ hlookup⟩

end Extends

/-! ## A registered pair -/

section Steps

variable {made : List AvalancheTxn} {g g₁ : AvalancheFlowGen} {past : Hash → Hash → Prop}
  {hand hand₁ : Cash} {t t₁ t₂ : AvalancheTxn}

/-- The hash of a new transaction is not known. -/
theorem Stock.unknown (h : Stock ids past hand made g) (ht : t ∉ made) :
    ids.txnId t ∉ g.inFlight ∧ g.inFlightConflict.lookup (ids.txnId t) = none ∧
      ∀ c d, g.inFlightConflict.lookup c = some d → d ≠ ids.txnId t := by
  have hmade : ¬ Made ids made (ids.txnId t) := by
    rintro ⟨t₁, ht₁, he⟩
    exact ht (ids.txnId_inj he ▸ ht₁)
  have hflight : ids.txnId t ∉ g.inFlight := fun hin => hmade (h.sent _ hin)
  refine ⟨hflight, ?_, fun c d hcd he => hmade (he ▸ (h.flying c d hcd).2)⟩
  cases hlookup : g.inFlightConflict.lookup (ids.txnId t) with
  | none => rfl
  | some d => exact absurd (h.flying _ d hlookup).1 hflight

theorem sendPair_lookup (g : AvalancheFlowGen) (clients : ClientId × ClientId)
    (t₁ t₂ : AvalancheTxn) (c : Hash) :
    (sendPair ids g clients t₁ t₂).1.inFlightConflict.lookup c =
      if c = ids.txnId t₂ then some (ids.txnId t₁)
      else if c = ids.txnId t₁ then some (ids.txnId t₂)
      else g.inFlightConflict.lookup c :=
  Pairing.lookup_add g.pairing (ids.txnId t₁) (ids.txnId t₂) c

theorem sendPair_made (g : AvalancheFlowGen) (clients : ClientId × ClientId)
    (t₁ t₂ : AvalancheTxn) (h : Hash) :
    Made ids ((sendPair ids g clients t₁ t₂).2.map Prod.snd) h ↔
      h = ids.txnId t₁ ∨ h = ids.txnId t₂ := by
  show (∃ t ∈ [t₁, t₂, t₂, t₁], ids.txnId t = h) ↔ _
  simp only [List.mem_cons, List.not_mem_nil, or_false, or_and_right, exists_or, exists_eq_left]
  tauto

/-- New transactions are sent, and registered with each other. -/
theorem Stock.sendPair_extends (h : Stock ids past hand made g) (clients : ClientId × ClientId)
    (h₁ : t₁ ∉ made) (h₂ : t₂ ∉ made) (hclient₁ : t₁.fromClient) (hclient₂ : t₂.fromClient) :
    Extends ids made g (sendPair ids g clients t₁ t₂).2 (sendPair ids g clients t₁ t₂).1 := by
  have hmem : ∀ x ∈ (sendPair ids g clients t₁ t₂).2, x.2 = t₁ ∨ x.2 = t₂ := by
    intro x hx
    simp only [sendPair, List.mem_cons, List.not_mem_nil, or_false] at hx
    rcases hx with rfl | rfl | rfl | rfl
    · exact Or.inl rfl
    · exact Or.inr rfl
    · exact Or.inr rfl
    · exact Or.inl rfl
  refine ⟨rfl, rfl, rfl, fun x => ?_, fun c d hcd => ?_, fun c d hcd => ?_, rfl, rfl,
    fun x hx => ?_, fun x hx => ?_⟩
  · rw [sendPair_made]
    show x ∈ insert (ids.txnId t₂) (insert (ids.txnId t₁) g.inFlight) ↔ _
    rw [Finset.mem_insert, Finset.mem_insert]
    tauto
  · have hnone₁ := (h.unknown h₁).2.1
    have hnone₂ := (h.unknown h₂).2.1
    rw [sendPair_lookup, if_neg, if_neg]
    · exact hcd
    · rintro rfl
      exact absurd (hnone₁.symm.trans hcd) (by simp)
    · rintro rfl
      exact absurd (hnone₂.symm.trans hcd) (by simp)
  · rw [sendPair_lookup] at hcd
    rw [sendPair_made]
    split at hcd
    · rename_i hc
      exact Or.inr (Or.inr hc)
    · split at hcd
      · rename_i hc
        exact Or.inr (Or.inl hc)
      · exact Or.inl hcd
  · rcases hmem x hx with he | he
    · exact he ▸ h₁
    · exact he ▸ h₂
  · rcases hmem x hx with he | he
    · exact he ▸ hclient₁
    · exact he ▸ hclient₂

theorem sendPair_rival (ids : UniqueIds) (past : Hash → Hash → Prop) (g : AvalancheFlowGen)
    (clients : ClientId × ClientId) (hne : t₁ ≠ t₂) (hbase : BasePair t₁ t₂) :
    Rival ids past (sendPair ids g clients t₁ t₂).1 t₁ t₂ ∧
      Rival ids past (sendPair ids g clients t₁ t₂).1 t₂ t₁ := by
  have hids : ids.txnId t₁ ≠ ids.txnId t₂ := ids.txnId_inj.ne hne
  constructor
  · exact ⟨hbase,
      Or.inr ((sendPair_lookup g clients t₁ t₂ _).trans ((if_neg hids).trans (if_pos rfl)))⟩
  · exact ⟨hbase.symm, Or.inr ((sendPair_lookup g clients t₁ t₂ _).trans (if_pos rfl))⟩

/-- What remains to be shown for a pair is that its coins are accounted for. -/
theorem Stock.sendPair (h : Stock ids past hand made g) (clients : ClientId × ClientId)
    (hne : t₁ ≠ t₂) (h₁ : t₁ ∉ made) (h₂ : t₂ ∉ made) (hhand : hand₁ ≠ 0)
    (hsupply : Supply (avalanchePayments ids)
      (Rival ids past (AvalancheFlowGen.sendPair ids g clients t₁ t₂).1) (made ++ [t₁, t₂])
      (hand₁ + g.coins)) :
    Stock ids past hand₁
      (made ++ (AvalancheFlowGen.sendPair ids g clients t₁ t₂).2.map Prod.snd)
      (AvalancheFlowGen.sendPair ids g clients t₁ t₂).1 := by
  obtain ⟨-, hnone₁, hmates₁⟩ := h.unknown h₁
  obtain ⟨-, hnone₂, hmates₂⟩ := h.unknown h₂
  have hids : ids.txnId t₁ ≠ ids.txnId t₂ := ids.txnId_inj.ne hne
  refine ⟨h.keys, h.utxos, h.conflicts, ?_, fun _ h0 => absurd h0 hhand, ?_, fun c d hcd => ?_,
    fun c hc => ?_⟩
  · have hagain := hsupply.again [t₂, t₁] fun t ht => by
      rcases List.mem_cons.mp ht with rfl | ht
      · simp
      · simp [List.mem_singleton.mp ht]
    rw [List.append_assoc] at hagain
    exact hagain
  · exact h.pairing.add hids hnone₁ hnone₂ fun c d hcd => ⟨hmates₁ c d hcd, hmates₂ c d hcd⟩
  · rw [sendPair_lookup] at hcd
    rw [made_append, sendPair_made]
    show c ∈ insert (ids.txnId t₂) (insert (ids.txnId t₁) g.inFlight) ∧ _
    rw [Finset.mem_insert, Finset.mem_insert]
    split at hcd
    · rename_i hc
      exact ⟨Or.inl hc, Or.inr (Or.inl (Option.some.inj hcd).symm)⟩
    · split at hcd
      · rename_i hc
        exact ⟨Or.inr (Or.inl hc), Or.inr (Or.inr (Option.some.inj hcd).symm)⟩
      · exact ⟨Or.inr (Or.inr (h.flying c d hcd).1), Or.inl (h.flying c d hcd).2⟩
  · rw [made_append, sendPair_made]
    rcases Finset.mem_insert.mp hc with hc | hc
    · exact Or.inr (Or.inr hc)
    · rcases Finset.mem_insert.mp hc with hc | hc
      · exact Or.inr (Or.inl hc)
      · exact Or.inl (h.sent c hc)

/-! ## A conflict -/

/-- A transfer is between two accounts of the list. -/
theorem transfer_spec {crypto : CryptoScheme} {l : List (PubKey × PrivKey)} {i j : Nat} {h : Hash}
    {outUtxo remainder : UInt64} (ht : transfer crypto l i j h outUtxo remainder = .ok t) :
    i < l.length ∧ j < l.length ∧
      ∃ signature, t = .send (keyAt l i) [h] (keyAt l j) outUtxo remainder signature := by
  unfold transfer at ht
  simp only [bind_eq_ok, unwrap_eq_ok] at ht
  obtain ⟨⟨pk, sk⟩, hi, ⟨pk₁, sk₁⟩, hj, ht⟩ := ht
  refine ⟨(List.getElem?_eq_some_iff.mp hi).1, (List.getElem?_eq_some_iff.mp hj).1,
    crypto.sign sk [h], ?_⟩
  rw [keyAt_eq hi, keyAt_eq hj]
  exact (Except.ok.inj ht).symm

/-- The coins at the two ends of a conflict. -/
def endCoins (l : List (PubKey × PrivKey)) (value : UInt64) (ends : Ends) : Cash :=
  ⟨ends.txn1Hash, keyAt l ends.recver1Idx, value⟩ ::ₘ
    {⟨ends.txn2Hash, keyAt l ends.recver2Idx, value⟩}

theorem endCoins_ne (l : List (PubKey × PrivKey)) (value : UInt64) (ends : Ends) :
    endCoins l value ends ≠ 0 := Multiset.cons_ne_zero

/-- What each part of a conflict leaves: new coins in hand, and the lists as they were. -/
structure Part (ids : UniqueIds) (past : Hash → Hash → Prop) (made : List AvalancheTxn)
    (l : List (PubKey × PrivKey)) (value : UInt64) (g : AvalancheFlowGen) (g₁ : AvalancheFlowGen)
    (ends : Ends) (txns : List (ClientId × AvalancheTxn)) : Prop where
  stock : Stock ids past (endCoins l value ends) (made ++ txns.map Prod.snd) g₁
  ext : Extends ids made g txns g₁
  utxos : g₁.utxos = g.utxos
  recver1 : ends.recver1Idx < l.length
  recver2 : ends.recver2Idx < l.length

variable {l : List (PubKey × PrivKey)} {u : ConflictingUtxo} {ends ends₁ : Ends}
  {draws rest : List Nat} {txns : List (ClientId × AvalancheTxn)}

/-- Two payments with the same coin. -/
theorem Stock.basePair (hnodup : (l.map Prod.fst).Nodup)
    (h : Stock ids past {⟨u.txnHash, keyAt l u.owner.2, u.value⟩} made g)
    (hok : AvalancheFlowGen.basePair ids l u g draws = .ok (g₁, ends, txns, rest)) :
    Part ids past made l u.value g g₁ ends txns := by
  unfold AvalancheFlowGen.basePair at hok
  simp only [bind_eq_ok] at hok
  obtain ⟨⟨d, draws₁⟩, -, recver1, hrecver1, t₁, ht₁, ⟨d₂, draws₂⟩, -, recver2, hrecver2, t₂, ht₂,
    hok⟩ := hok
  simp only [Except.ok.injEq, Prod.mk.injEq] at hok
  obtain ⟨rfl, rfl, rfl, -⟩ := hok
  obtain ⟨hsender, hlt₁, sig₁, rfl⟩ := transfer_spec ht₁
  obtain ⟨-, hlt₂, sig₂, rfl⟩ := transfer_spec ht₂
  have hkeys : keyAt l recver1 ≠ keyAt l recver2 :=
    keyAt_ne hnodup hlt₁ hlt₂ (recver2Idx_spec hrecver2).2.symm
  have hsupply := h.supply
  rw [Multiset.singleton_add] at hsupply
  have hpays₁ := avalanche_pays ids
    (c := ⟨u.txnHash, keyAt l u.owner.2, u.value⟩) (UInt64.add_zero u.value) (keyAt l recver1) sig₁
  have hpays₂ := avalanche_pays ids
    (c := ⟨u.txnHash, keyAt l u.owner.2, u.value⟩) (UInt64.add_zero u.value) (keyAt l recver2) sig₂
  have hnew₁ := hsupply.fresh hpays₁
  have hnew₂ := hsupply.fresh hpays₂
  have hne : AvalancheTxn.send (keyAt l u.owner.2) [u.txnHash] (keyAt l recver1) u.value 0 sig₁ ≠
      .send (keyAt l u.owner.2) [u.txnHash] (keyAt l recver2) u.value 0 sig₂ :=
    fun he => hkeys (AvalancheTxn.send.inj he).2.2.1
  have hext := h.sendPair_extends u.clients hnew₁ hnew₂ rfl rfl
  obtain ⟨hrival₁, hrival₂⟩ := sendPair_rival ids past g u.clients hne
    ⟨_, _, _, _, _, _, _, hkeys, rfl, rfl⟩
  refine ⟨h.sendPair u.clients hne hnew₁ hnew₂ (endCoins_ne _ _ _) ?_, hext, rfl, hlt₁, hlt₂⟩
  refine (hsupply.mono hext.rival).pay (fun t ht => ?_) (fun t ht t₁ ht₁ htne => ?_)
    (fun c hc => ?_) ?_
  · rcases List.mem_cons.mp ht with rfl | ht
    · exact hpays₁
    · rw [List.mem_singleton.mp ht]
      exact hpays₂
  · rcases List.mem_cons.mp ht with rfl | ht
    · rcases List.mem_cons.mp ht₁ with rfl | ht₁
      · exact absurd rfl htne
      · rw [List.mem_singleton.mp ht₁]
        exact hrival₁
    · rcases List.mem_cons.mp ht₁ with rfl | ht₁
      · rw [List.mem_singleton.mp ht]
        exact hrival₂
      · exact absurd ((List.mem_singleton.mp ht).trans (List.mem_singleton.mp ht₁).symm) htne
  · rcases Multiset.mem_cons.mp hc with rfl | hc
    · exact ⟨_, List.mem_cons_self, leaves_receiver ..⟩
    · rw [Multiset.mem_singleton.mp hc]
      exact ⟨_, List.mem_cons_of_mem _ List.mem_cons_self, leaves_receiver ..⟩
  · have hids := ids.txnId_inj.ne hne
    simp [endCoins, Coin.slot, hids]

/-- One more payment at each end. -/
theorem Stock.extendPair (h : Stock ids past (endCoins l u.value ends) made g)
    (hok : AvalancheFlowGen.extendPair ids l u g ends draws = .ok (g₁, ends₁, txns, rest)) :
    Part ids past made l u.value g g₁ ends₁ txns := by
  unfold AvalancheFlowGen.extendPair at hok
  simp only [bind_eq_ok] at hok
  obtain ⟨⟨d, draws₁⟩, -, recver1, hrecver1, t₁, ht₁, ⟨d₂, draws₂⟩, -, recver2, hrecver2, t₂, ht₂,
    hok⟩ := hok
  simp only [Except.ok.injEq, Prod.mk.injEq] at hok
  obtain ⟨rfl, rfl, rfl, -⟩ := hok
  obtain ⟨-, hlt₁, sig₁, rfl⟩ := transfer_spec ht₁
  obtain ⟨-, hlt₂, sig₂, rfl⟩ := transfer_spec ht₂
  have hpays₁ := avalanche_pays ids
    (c := ⟨ends.txn1Hash, keyAt l ends.recver1Idx, u.value⟩) (UInt64.add_zero u.value)
    (keyAt l recver1) sig₁
  have hpays₂ := avalanche_pays ids
    (c := ⟨ends.txn2Hash, keyAt l ends.recver2Idx, u.value⟩) (UInt64.add_zero u.value)
    (keyAt l recver2) sig₂
  have hsupply := h.supply
  rw [endCoins, Multiset.cons_add, Multiset.singleton_add] at hsupply
  have hnew₁ := hsupply.fresh hpays₁
  have hone := hsupply.pay_one hpays₁ (leaves_receiver ..)
  rw [Multiset.cons_swap] at hone
  have hnew₂ := hone.fresh hpays₂
  have htwo := hone.pay_one hpays₂ (leaves_receiver ..)
  rw [List.mem_append, not_or] at hnew₂
  have hne := fun he => hnew₂.2 (List.mem_singleton.mpr (Eq.symm he))
  have hext := h.sendPair_extends u.clients hnew₁ hnew₂.1 rfl rfl
  refine ⟨h.sendPair u.clients hne hnew₁ hnew₂.1 (endCoins_ne _ _ _) ?_, hext, rfl, hlt₁, hlt₂⟩
  rw [Multiset.cons_swap, List.append_assoc] at htwo
  rw [endCoins, Multiset.cons_add, Multiset.singleton_add]
  exact htwo.mono hext.rival

/-- The payments at the ends. -/
theorem Stock.extendPairs (n : Nat) : ∀ {made : List AvalancheTxn} {g g₁ : AvalancheFlowGen}
    {ends ends₁ : Ends} {draws rest : List Nat} {txns : List (ClientId × AvalancheTxn)},
    Stock ids past (endCoins l u.value ends) made g → ends.recver1Idx < l.length →
      ends.recver2Idx < l.length →
      AvalancheFlowGen.extendPairs ids l u n g ends draws = .ok (g₁, ends₁, txns, rest) →
      Part ids past made l u.value g g₁ ends₁ txns := by
  induction n with
  | zero =>
    intro made g g₁ ends ends₁ draws rest txns h hlt₁ hlt₂ hok
    simp only [AvalancheFlowGen.extendPairs, Except.ok.injEq, Prod.mk.injEq] at hok
    obtain ⟨rfl, rfl, rfl, -⟩ := hok
    exact ⟨by simpa using h, .refl ids made g, rfl, hlt₁, hlt₂⟩
  | succ n ih =>
    intro made g g₁ ends ends₁ draws rest txns h hlt₁ hlt₂ hok
    unfold AvalancheFlowGen.extendPairs at hok
    simp only [bind_eq_ok] at hok
    obtain ⟨⟨g₂, ends₂, txns₂, draws₂⟩, hfirst, ⟨g₃, ends₃, txns₃, draws₃⟩, hlater, hok⟩ := hok
    simp only [Except.ok.injEq, Prod.mk.injEq] at hok
    obtain ⟨rfl, rfl, rfl, -⟩ := hok
    have hpart := h.extendPair hfirst
    have hparts := ih hpart.stock hpart.recver1 hpart.recver2 hlater
    refine ⟨?_, hpart.ext.trans hparts.ext, hparts.utxos.trans hpart.utxos, hparts.recver1,
      hparts.recver2⟩
    rw [List.map_append, ← List.append_assoc]
    exact hparts.stock

end Steps

end AvalancheFlowGen

end Copycat.FlowGen
