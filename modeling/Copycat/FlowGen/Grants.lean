import Copycat.FlowGen.Rounds

/-!
# The grants of an Avalanche generator

`setup_txns` of `AvalancheFlowGen` makes a grant for every account and puts it in the
list of the client. The accounts have different keys, so no grant is made twice, and
afterwards no client is without a coin.
-/

namespace Copycat.FlowGen.AvalancheFlowGen

open Copycat.Lib
open Avalanche (AvalancheTxn UniqueIds)

/-- A generator as `new` makes it, and with different keys for all accounts. -/
structure Fresh (g : AvalancheFlowGen) : Prop where
  nodup : ∀ client l, g.accounts client = some l → (l.map Prod.fst).Nodup
  apart : ∀ client l client₁ l₁, g.accounts client = some l → g.accounts client₁ = some l₁ →
    client ≠ client₁ → ∀ a ∈ l, ∀ a₁ ∈ l₁, a.1 ≠ a₁.1
  utxos : ∀ client, g.utxos client = (g.accounts client).map fun _ => []
  clients : ∀ client, client ∈ g.clientList ↔ ∃ l, g.accounts client = some l
  filled : ∀ client l, g.accounts client = some l → l ≠ []
  conflicts : g.conflictingUtxos = []
  inFlight : g.inFlight = ∅
  nonce : g.nonce = 2
  pairing : g.pairing = ⟨∅, ∅, 0, 0, 0⟩

variable {ids : UniqueIds} {past : Hash → Hash → Prop} {g : AvalancheFlowGen}

theorem fresh_new {id : UInt64} {clientList : List ClientId}
    {numAccounts maxInflight frequency : Nat} {conflictRate : ℚ} {crypto : CryptoScheme}
    (hg : AvalancheFlowGen.new id clientList numAccounts maxInflight frequency conflictRate crypto =
      .ok g)
    (hkeys : DistinctKeys crypto id (clientList.length * accountsPerNode clientList numAccounts)) :
    g.Fresh ∧ g.clientList = clientList ∧ ∀ client l, g.accounts client = some l →
      l.length = accountsPerNode clientList numAccounts := by
  obtain ⟨hkeyed, hmade, hrest, hutxos⟩ := avalanche_new hg hkeys
  unfold AvalancheFlowGen.new at hg
  dsimp only at hg
  split at hg
  · rename_i hmore
    have hlen : ∀ client l, g.accounts client = some l →
        l.length = accountsPerNode clientList numAccounts := by
      intro client l hl
      by_cases hmem : client ∈ clientList
      · obtain ⟨l₁, hl₁, hlen⟩ := hmade client hmem
        rw [hl, Option.some.injEq] at hl₁
        exact hl₁ ▸ hlen
      · exact absurd ((hrest client hmem).symm.trans hl) (by simp)
    have hclients : g.clientList = clientList := by rw [← Except.ok.inj hg]
    refine ⟨⟨hkeyed.nodup, hkeyed.apart, hutxos, fun client => ?_, fun client l hl => ?_, ?_, ?_,
      ?_, ?_⟩, hclients, hlen⟩
    · rw [hclients]
      constructor
      · intro hmem
        obtain ⟨l, hl, -⟩ := hmade client hmem
        exact ⟨l, hl⟩
      · rintro ⟨l, hl⟩
        by_contra hmem
        exact absurd ((hrest client hmem).symm.trans hl) (by simp)
    · rintro rfl
      have := hlen client [] hl
      rw [List.length_nil] at this
      omega
    · rw [← Except.ok.inj hg]
    · rw [← Except.ok.inj hg]
    · rw [← Except.ok.inj hg]
    · rw [← Except.ok.inj hg]
      rfl
  · exact absurd hg (by simp)

theorem Fresh.stock (h : g.Fresh) (ids : UniqueIds) (past : Hash → Hash → Prop) :
    Stock ids past 0 [] g where
  keys := h.nodup
  utxos client hclient := by
    obtain ⟨l, hl⟩ := (h.clients client).mp hclient
    exact ⟨l, [], hl, by rw [h.utxos, hl]; rfl, fun x hx => absurd hx List.not_mem_nil⟩
  conflicts u hu := by
    rw [h.conflicts] at hu
    exact absurd hu List.not_mem_nil
  supply := by
    have hcoins : g.coins = 0 := by
      rw [coins, h.conflicts]
      refine (add_zero _).trans (Finset.sum_eq_zero fun client _ => ?_)
      rw [held, h.utxos]
      cases g.accounts client with
      | none => rfl
      | some l => rfl
    rw [hcoins]
    exact .nil _ _
  nonce _ _ o r hmem := absurd hmem List.not_mem_nil
  pairing := h.pairing ▸ Pairing.good_new
  flying x y hxy := by
    have hempty : g.inFlightConflict = ∅ := congrArg Pairing.mate h.pairing
    rw [hempty] at hxy
    exact absurd hxy (by simp)
  sent x hx := by
    rw [h.inFlight] at hx
    exact absurd hx (Finset.notMem_empty x)

/-- What holds when the accounts in `done`, given by client and index, have their
grants. -/
structure Granted (ids : UniqueIds) (past : Hash → Hash → Prop) (g : AvalancheFlowGen)
    (done : List (ClientId × Nat)) (acc : AvalancheFlowGen × List (ClientId × AvalancheTxn)) :
    Prop where
  stock : Stock ids past 0 (acc.2.map Prod.snd) acc.1
  rest : acc.1 = { g with utxos := acc.1.utxos }
  grants : ∀ t ∈ acc.2.map Prod.snd, ∃ x ∈ done, ∃ l a, g.accounts x.1 = some l ∧
    l[x.2]? = some a ∧ t = .grant 10 a.1 0
  filled : ∀ x ∈ done, acc.1.utxos x.1 ≠ some []

variable {done : List (ClientId × Nat)}
  {acc acc₁ : AvalancheFlowGen × List (ClientId × AvalancheTxn)}
  {client : ClientId} {l : List (PubKey × PrivKey)}

/-- The grant of an account that is not done is a new one: another account has another
key. -/
theorem Granted.unmade (hfresh : g.Fresh) (h : Granted ids past g done acc)
    (hl : g.accounts client = some l) {x : (PubKey × PrivKey) × Nat} (hx : l[x.2]? = some x.1)
    (hnew : (client, x.2) ∉ done) : AvalancheTxn.grant 10 x.1.1 0 ∉ acc.2.map Prod.snd := by
  intro hmem
  obtain ⟨y, hy, l₁, a, hl₁, ha, he⟩ := h.grants _ hmem
  have hkey : x.1.1 = a.1 := (AvalancheTxn.grant.inj he).2.1
  by_cases hc : client = y.1
  · rw [← hc, hl, Option.some.injEq] at hl₁
    subst hl₁
    by_cases hi : x.2 = y.2
    · exact hnew (by rwa [hc, hi])
    · exact keys_ne (hfresh.nodup client l hl) hx ha hi hkey
  · exact hfresh.apart client l y.1 l₁ hl hl₁ hc x.1 (List.mem_of_getElem? hx) a
      (List.mem_of_getElem? ha) hkey

/-- The grant of one account. -/
theorem Granted.account (hfresh : g.Fresh) (h : Granted ids past g done acc)
    (hl : g.accounts client = some l) {x : (PubKey × PrivKey) × Nat} (hx : l[x.2]? = some x.1)
    (hnew : (client, x.2) ∉ done) (hok : setupTxn ids client acc x = .ok acc₁) :
    Granted ids past g (done ++ [(client, x.2)]) acc₁ := by
  unfold setupTxn at hok
  rw [bind_eq_ok] at hok
  obtain ⟨utxos, hutxos, hok⟩ := hok
  rw [unwrap_eq_ok] at hutxos
  obtain ⟨g₁, hg₁⟩ : ∃ g₁ : AvalancheFlowGen, g₁ = { acc.1 with
      utxos := Function.update acc.1.utxos client
        (some (utxos ++ [(x.2, ids.txnId (.grant 10 x.1.1 0), 10)])) } := ⟨_, rfl⟩
  rw [← hg₁] at hok
  have hl₁ : acc.1.accounts client = some l := by
    rw [h.rest]
    exact hl
  have hclient : client ∈ acc.1.clientList := by
    rw [h.rest]
    exact (hfresh.clients client).mpr ⟨l, hl⟩
  have hnonce : acc.1.nonce = 2 := by
    rw [h.rest]
    exact hfresh.nonce
  have hunmade := h.unmade hfresh hl hx hnew
  have hutxos₁ : g₁.utxos = Function.update acc.1.utxos client
      (some (utxos ++ [(x.2, ids.txnId (.grant 10 x.1.1 0), 10)])) := by rw [hg₁]
  obtain ⟨others, hcoins, hafter⟩ := coins_changed hclient (by rw [hg₁]) (by rw [hg₁])
    (by rw [hg₁]) hutxos₁
  have hpush : g₁.coins = ⟨ids.txnId (.grant 10 x.1.1 0), x.1.1, 10⟩ ::ₘ acc.1.coins := by
    have hgrant := utxoCoins_push l utxos x.2 (ids.txnId (.grant 10 x.1.1 0)) 10
    rw [AvalancheFlowGen.pushUtxo, if_pos (by decide), outputCoin, if_pos (by decide),
      keyAt_eq hx, Multiset.singleton_add] at hgrant
    rw [hafter, hcoins, held, hl₁, hutxos, Option.getD_some, Option.getD_some, hgrant,
      Multiset.cons_add]
  have hsupply := (zero_add acc.1.coins ▸ h.stock.supply).mint hunmade ⟨[], rfl, rfl⟩ rfl
    (c := ⟨ids.txnId (.grant 10 x.1.1 0), x.1.1, 10⟩)
    ⟨rfl, by simp [avalanchePayments, owned, AvalancheTxn.ownedValue]⟩
  have hin : ∀ y ∈ utxos ++ [(x.2, ids.txnId (.grant 10 x.1.1 0), 10)],
      y.1 < l.length ∧ y.2.2 > 0 := by
    obtain ⟨l₁, utxos₁, hl₂, hutxos₂, hall⟩ := h.stock.utxos client hclient
    rw [hl₁, Option.some.injEq] at hl₂
    rw [hutxos, Option.some.injEq] at hutxos₂
    subst hl₂ hutxos₂
    intro y hy
    rcases List.mem_append.mp hy with hy | hy
    · exact hall y hy
    · rw [List.mem_singleton.mp hy]
      have hpos : (10 : UInt64) > 0 := by decide
      exact ⟨(List.getElem?_eq_some_iff.mp hx).1, hpos⟩
  have hgrant : ∀ o r, AvalancheTxn.grant 10 x.1.1 0 ≠ .grant o r acc.1.nonce := by
    intro o r he
    have hzero := (AvalancheTxn.grant.inj he).2.2
    exact absurd (hnonce.symm.trans hzero.symm) (by decide)
  have hstock := h.stock.changed hl₁ hgrant hin (Finset.Subset.refl _) (fun y hy => Or.inl hy) hg₁
    (hpush ▸ hsupply)
  rw [← Except.ok.inj hok]
  refine ⟨?_, ?_, fun t ht => ?_, fun y hy => ?_⟩
  · rw [List.map_append]
    exact hstock
  · rw [hg₁]
    have hrest := h.rest
    generalize acc.1 = g₂ at hrest
    rw [hrest]
  · rw [List.map_append, List.mem_append] at ht
    rcases ht with ht | ht
    · obtain ⟨y, hy, hrest⟩ := h.grants t ht
      exact ⟨y, List.mem_append_left _ hy, hrest⟩
    · exact ⟨(client, x.2), List.mem_append_right _ (List.mem_singleton_self _), l, x.1, hl, hx,
        List.mem_singleton.mp ht⟩
  · show g₁.utxos y.1 ≠ some []
    rw [hutxos₁]
    by_cases he : y.1 = client
    · rw [he, Function.update_self]
      simp
    · rw [Function.update_of_ne he]
      rcases List.mem_append.mp hy with hy | hy
      · exact h.filled y hy
      · exact absurd (congrArg Prod.fst (List.mem_singleton.mp hy)) he

theorem Granted.returns (hfresh : g.Fresh) (h : Granted ids past g done acc)
    (hl : g.accounts client = some l) (x : (PubKey × PrivKey) × Nat) :
    ∃ acc₁, setupTxn ids client acc x = .ok acc₁ := by
  have hclient : client ∈ acc.1.clientList := by
    rw [h.rest]
    exact (hfresh.clients client).mpr ⟨l, hl⟩
  obtain ⟨-, utxos, -, hutxos, -⟩ := h.stock.utxos client hclient
  unfold setupTxn
  rw [hutxos]
  exact ⟨_, rfl⟩

/-- All accounts of a client. -/
theorem Granted.all (hfresh : g.Fresh) (h : Granted ids past g done acc)
    (hl : g.accounts client = some l) (hnew : ∀ x ∈ done, x.1 ≠ client) :
    ∃ acc₁, setupClient ids acc client = .ok acc₁ ∧
      Granted ids past g (done ++ l.zipIdx.map fun x => (client, x.2)) acc₁ := by
  have haccounts : acc.1.accounts client = some l := by
    rw [h.rest]
    exact hl
  have hfold : ∃ acc₁, l.zipIdx.foldlM (setupTxn ids client) acc = .ok acc₁ ∧
      Granted ids past g (done ++ l.zipIdx.map fun x => (client, x.2)) acc₁ := by
    refine foldlM_split_returns (fun (part : List ((PubKey × PrivKey) × Nat)) acc =>
      Granted ids past g (done ++ part.map fun x => (client, x.2)) acc) ?_ (by simpa using h)
    intro part x rest b hsplit hgranted
    have hx : l[x.2]? = some x.1 := by
      rw [← List.mk_mem_zipIdx_iff_getElem?, hsplit]
      exact List.mem_append_right _ List.mem_cons_self
    have hunmade : (client, x.2) ∉ done ++ part.map fun x => (client, x.2) := by
      intro hmem
      rcases List.mem_append.mp hmem with hmem | hmem
      · exact hnew _ hmem rfl
      · obtain ⟨y, hy, he⟩ := List.mem_map.mp hmem
        have hnodup : (l.zipIdx.map Prod.snd).Nodup := by
          rw [List.zipIdx_map_snd]
          exact List.nodup_range'
        rw [hsplit, List.map_append, List.map_cons, List.nodup_append] at hnodup
        exact hnodup.2.2 y.2 (List.mem_map_of_mem hy) x.2 List.mem_cons_self (Prod.mk.inj he).2
    obtain ⟨b', hstep⟩ := hgranted.returns hfresh hl x
    refine ⟨b', hstep, ?_⟩
    rw [List.map_append, ← List.append_assoc]
    exact hgranted.account hfresh hl hx hunmade hstep
  obtain ⟨acc₁, hok, hgranted⟩ := hfold
  refine ⟨acc₁, ?_, hgranted⟩
  unfold setupClient
  rw [haccounts]
  exact hok

theorem Fresh.granted (h : g.Fresh) (ids : UniqueIds) (past : Hash → Hash → Prop) :
    Granted ids past g [] (g, []) where
  stock := h.stock ids past
  rest := rfl
  grants _ ht := absurd ht List.not_mem_nil
  filled _ hx := absurd hx List.not_mem_nil

/-- `order` lists the clients that have accounts, each once. -/
def Enumerates (g : AvalancheFlowGen) (order : List ClientId) : Prop :=
  order.Nodup ∧ ∀ client, client ∈ order ↔ ∃ l, g.accounts client = some l

/-- `setup_txns` returns, and then no client is without a coin. -/
theorem setupTxns_stock (ids : UniqueIds) (past : Hash → Hash → Prop) {order : List ClientId}
    (hfresh : g.Fresh) (horder : g.Enumerates order) :
    ∃ g₁ txns, setupTxns ids order g = .ok (g₁, txns) ∧ Stock ids past 0 (txns.map Prod.snd) g₁ ∧
      g₁ = { g with utxos := g₁.utxos } ∧
      (∀ client ∈ g₁.clientList, g₁.utxos client ≠ some []) ∧ ∀ x ∈ txns, x.2.fromClient := by
  -- the clients so far have all their accounts done, and the others none
  have hall : ∃ acc, setupTxns ids order g = .ok acc ∧ ∃ done, Granted ids past g done acc ∧
      (∀ x ∈ done, x.1 ∈ order) ∧ ∀ client ∈ order, ∃ l, g.accounts client = some l ∧
        ∀ i < l.length, (client, i) ∈ done := by
    refine foldlM_split_returns (fun part acc => ∃ done, Granted ids past g done acc ∧
      (∀ x ∈ done, x.1 ∈ part) ∧ ∀ client ∈ part, ∃ l, g.accounts client = some l ∧
        ∀ i < l.length, (client, i) ∈ done) ?_ ⟨[], hfresh.granted ids past, by simp, by simp⟩
    rintro part client rest acc hsplit ⟨done, hgranted, honly, hdone⟩
    have hclient : client ∉ part := by
      have hnodup := horder.1
      rw [hsplit, List.nodup_append] at hnodup
      exact fun hmem => hnodup.2.2 client hmem client List.mem_cons_self rfl
    have hin : client ∈ order := hsplit ▸ List.mem_append_right _ List.mem_cons_self
    obtain ⟨l, hl⟩ := (horder.2 client).mp hin
    obtain ⟨acc₁, hok, hgranted₁⟩ := hgranted.all hfresh hl
      (fun x hx (he : x.1 = client) => hclient (he ▸ honly x hx))
    refine ⟨acc₁, hok, _, hgranted₁, fun x hx => ?_, fun c hc => ?_⟩
    · rcases List.mem_append.mp hx with hx | hx
      · exact List.mem_append_left _ (honly x hx)
      · obtain ⟨y, -, rfl⟩ := List.mem_map.mp hx
        exact List.mem_append_right _ (List.mem_singleton_self client)
    · rcases List.mem_append.mp hc with hc | hc
      · obtain ⟨l₁, hl₁, hin⟩ := hdone c hc
        exact ⟨l₁, hl₁, fun i hi => List.mem_append_left _ (hin i hi)⟩
      · rw [List.mem_singleton.mp hc]
        refine ⟨l, hl, fun i hi => List.mem_append_right _ (List.mem_map.mpr ?_)⟩
        exact ⟨(l[i], i), List.mk_mem_zipIdx_iff_getElem?.mpr (List.getElem?_eq_getElem hi), rfl⟩
  obtain ⟨⟨g₁, txns⟩, hok, done, hgranted, -, hdone⟩ := hall
  refine ⟨g₁, txns, hok, hgranted.stock, hgranted.rest, fun client hclient => ?_, fun x hx => ?_⟩
  · have hrest : g₁ = { g with utxos := g₁.utxos } := hgranted.rest
    rw [hrest] at hclient
    obtain ⟨l, hl, hin⟩ := hdone client ((horder.2 client).mpr ((hfresh.clients client).mp hclient))
    have hpos := List.length_pos_iff.mpr (hfresh.filled client l hl)
    exact hgranted.filled _ (hin 0 hpos)
  · obtain ⟨-, -, -, a, -, -, he⟩ := hgranted.grants x.2 (List.mem_map_of_mem hx)
    rw [he]
    trivial

end Copycat.FlowGen.AvalancheFlowGen
