import Copycat.FlowGen.Accounts
import Copycat.Batches
import Copycat.Lib.Coins

/-!
# The funds of a Bitcoin generator

The queues of `BitcoinFlowGen` hold coins: every entry is an output of a transaction
that the generator has made and that it has not spent (`BitcoinFlowGen.Stock`, by
`Supply` over `bitcoinPayments`). A payment takes a coin from the front of a queue and
puts back what it is worth, so what a client holds is worth the same from `setup_txns`
on.
-/

namespace Copycat.FlowGen

open Copycat.Lib

/-- The coins of the two generators. -/
abbrev Cash := Multiset (Coin Hash PubKey UInt64)

/-- What the coins are worth. -/
def worth (coins : Cash) : Nat := (coins.map fun c => c.value.toNat).sum

theorem worth_add (coins coins₁ : Cash) : worth (coins + coins₁) = worth coins + worth coins₁ := by
  rw [worth, Multiset.map_add, Multiset.sum_add]
  rfl

theorem worth_cons (c : Coin Hash PubKey UInt64) (coins : Cash) :
    worth (c ::ₘ coins) = c.value.toNat + worth coins := by
  rw [worth, Multiset.map_cons, Multiset.sum_cons]
  rfl

/-- An output that is put away, unless it is worth nothing. -/
def outputCoin (txnHash : Hash) (owner : PubKey) (value : UInt64) : Cash :=
  if value > 0 then {⟨txnHash, owner, value⟩} else 0

theorem worth_outputCoin (txnHash : Hash) (owner : PubKey) (value : UInt64) :
    worth (outputCoin txnHash owner value) = value.toNat := by
  unfold outputCoin
  split
  · simp [worth]
  · rename_i h
    have hzero : value.toNat = 0 := by
      have hle : ¬ (0 : UInt64).toNat < value.toNat := UInt64.lt_iff_toNat_lt.not.mp h
      simpa using hle
    simp [worth, hzero]

theorem mem_outputCoin {txnHash : Hash} {owner : PubKey} {value : UInt64}
    {c : Coin Hash PubKey UInt64} (h : c ∈ outputCoin txnHash owner value) :
    c = ⟨txnHash, owner, value⟩ := by
  unfold outputCoin at h
  split at h
  · exact Multiset.mem_singleton.mp h
  · exact absurd h (Multiset.notMem_zero c)

/-- The outputs to two owners are different coins. -/
theorem outputCoins_once {txnHash : Hash} {owner owner₁ : PubKey} (hne : owner ≠ owner₁)
    (value value₁ : UInt64) :
    ((outputCoin txnHash owner value + outputCoin txnHash owner₁ value₁).map Coin.slot).Nodup := by
  unfold outputCoin
  split <;> split <;> simp [Coin.slot, hne]

/-- A value is split without loss. -/
theorem split_value (value : UInt64) : min value 10 + (value - min value 10) = value ∧
    (min value 10).toNat + (value - min value 10).toNat = value.toNat := by
  have hle : min value 10 ≤ value := by
    show (if value ≤ 10 then value else 10) ≤ value
    split
    · exact UInt64.le_refl value
    · rename_i h
      exact UInt64.le_of_lt (UInt64.not_le.mp h)
  have hsub : (value - min value 10).toNat = value.toNat - (min value 10).toNat :=
    UInt64.toNat_sub_of_le _ _ hle
  have hnat : (min value 10).toNat ≤ value.toNat := UInt64.le_iff_toNat_le.mp hle
  refine ⟨?_, by omega⟩
  rw [UInt64.add_comm, UInt64.sub_add_cancel]

/-! ## Payments -/

/-- Transactions as payments with coins. -/
def bitcoinPayments (ids : IdScheme) : Payments Hash PubKey UInt64 BitcoinTxn where
  toItems := (Bitcoin.bitcoinKind ids).items
  spends t := {x | x ∈ t.inputs}
  owned := BitcoinTxn.ownedValue
  key_inj := ids.txnId_inj
  spends_deps t x hx := by
    cases t with
    | send t =>
      obtain ⟨h, hh, rfl⟩ := List.mem_map.mp hx
      exact hh
    | grant => exact absurd hx List.not_mem_nil
    | incentive => exact absurd hx List.not_mem_nil

variable {ids : IdScheme}

/-- A payment with one input that is worth its outputs. -/
theorem bitcoin_pays {t : Send} {c : Coin Hash PubKey UInt64} (hin : t.inUtxo = [c.key])
    (hsender : t.sender = c.owner) (hvalue : t.outUtxo + t.remainder = c.value) :
    (bitcoinPayments ids).Pays c (.send t) where
  spends := by
    ext x
    show x ∈ t.inUtxo.map _ ↔ x = (c.key, c.owner)
    rw [hin, List.map_singleton, List.mem_singleton, hsender]
  deps := hin
  good p hp howned := by
    refine ⟨[p], ?_, ?_⟩
    · show [ids.txnId p] = t.inUtxo
      rw [hin]
      exact congrArg (fun h => [h]) hp
    · have howned : p.ownedValue t.sender = some c.value := hsender ▸ howned
      show Except.ok (decide (Bitcoin.TxnValidation.parentsValue t.sender [p] 0 = _)) = .ok true
      rw [Bitcoin.TxnValidation.parentsValue, howned]
      simp [Bitcoin.TxnValidation.parentsValue, hvalue]

/-! ## Coins in queues -/

/-- The coins in the queue of an account. -/
def queueCoins (account : PubKey) (queue : List (Hash × UInt64)) : Cash :=
  ↑(queue.map fun u => (⟨u.1, account, u.2⟩ : Coin Hash PubKey UInt64))

/-- The coins of some accounts. -/
def heldBy (keys : Finset PubKey) (utxos : PubKey → Option (List (Hash × UInt64))) : Cash :=
  ∑ account ∈ keys, queueCoins account ((utxos account).getD [])

section Queues

variable {keys : Finset PubKey} {utxos utxos₁ : PubKey → Option (List (Hash × UInt64))}
  {account : PubKey} {queue : List (Hash × UInt64)} {u : Hash × UInt64}

theorem heldBy_update (hmem : account ∈ keys) (hqueue : utxos account = some queue)
    (queue₁ : List (Hash × UInt64)) :
    ∃ rest, heldBy keys utxos = queueCoins account queue + rest ∧
      heldBy keys (Function.update utxos account (some queue₁)) =
        queueCoins account queue₁ + rest := by
  obtain ⟨rest, hold, hnew⟩ := sum_changed (fun k => queueCoins k ((utxos k).getD []))
    (fun k => queueCoins k ((Function.update utxos account (some queue₁) k).getD [])) hmem
    fun k hk => by rw [Function.update_of_ne hk]
  rw [hqueue] at hold
  rw [Function.update_self] at hnew
  exact ⟨rest, hold, hnew⟩

/-- A coin leaves the front of a queue. -/
theorem heldBy_pop (hmem : account ∈ keys) (hqueue : utxos account = some (u :: queue)) :
    heldBy keys utxos =
      ⟨u.1, account, u.2⟩ ::ₘ heldBy keys (Function.update utxos account (some queue)) := by
  obtain ⟨rest, hold, hnew⟩ := heldBy_update hmem hqueue queue
  rw [hold, hnew, queueCoins, List.map_cons, ← Multiset.cons_coe, Multiset.cons_add]
  rfl

/-- A coin is put at the end of a queue. -/
theorem pushBack_held (hmem : account ∈ keys)
    (h : BitcoinFlowGen.pushBack utxos account u = .ok utxos₁) :
    heldBy keys utxos₁ = ⟨u.1, account, u.2⟩ ::ₘ heldBy keys utxos ∧
      ∀ k, (utxos₁ k).isSome = (utxos k).isSome := by
  unfold BitcoinFlowGen.pushBack at h
  rw [bind_eq_ok] at h
  obtain ⟨queue, hqueue, h⟩ := h
  rw [unwrap_eq_ok] at hqueue
  rw [← Except.ok.inj h]
  constructor
  · obtain ⟨rest, hold, hnew⟩ := heldBy_update hmem hqueue (queue ++ [u])
    have happ : queueCoins account (queue ++ [u]) =
        ⟨u.1, account, u.2⟩ ::ₘ queueCoins account queue := by
      rw [queueCoins, List.map_append, ← Multiset.coe_add, add_comm]
      rfl
    rw [hold, hnew, happ, Multiset.cons_add]
  · intro k
    by_cases hk : k = account
    · rw [hk, Function.update_self, hqueue]
      rfl
    · rw [Function.update_of_ne hk]

theorem pushOutput_held {txnHash : Hash} {value : UInt64} (hmem : account ∈ keys)
    (h : BitcoinFlowGen.pushOutput utxos account txnHash value = .ok utxos₁) :
    heldBy keys utxos₁ = outputCoin txnHash account value + heldBy keys utxos ∧
      ∀ k, (utxos₁ k).isSome = (utxos k).isSome := by
  unfold BitcoinFlowGen.pushOutput at h
  unfold outputCoin
  split at h
  · rename_i hpos
    rw [if_pos hpos, Multiset.singleton_add]
    exact pushBack_held hmem h
  · rename_i hpos
    rw [if_neg hpos, zero_add, ← Except.ok.inj h]
    exact ⟨rfl, fun _ => rfl⟩

end Queues

namespace BitcoinFlowGen

/-- The keys of a client. -/
def keys (g : BitcoinFlowGen) (client : ClientId) : Finset PubKey :=
  (((g.accounts client).getD []).map Prod.fst).toFinset

/-- The coins of a client. -/
def held (g : BitcoinFlowGen) (client : ClientId) : Cash :=
  heldBy (g.keys client) ((g.utxos client).getD fun _ => none)

/-- All coins. -/
def coins (g : BitcoinFlowGen) : Cash := ∑ client ∈ g.clientList.toFinset, g.held client

theorem held_eq {g : BitcoinFlowGen} {client : ClientId} {l : List (PubKey × PrivKey)}
    {utxos : PubKey → Option (List (Hash × UInt64))} (hl : g.accounts client = some l)
    (hutxos : g.utxos client = some utxos) :
    g.held client = heldBy (l.map Prod.fst).toFinset utxos := by
  rw [held, keys, hl, hutxos]
  rfl

/-- What holds between the calls: there is a queue for every account and no other, and
the queues hold coins that `made` leaves. -/
structure Stock (ids : IdScheme) (g : BitcoinFlowGen) (made : List BitcoinTxn) : Prop where
  keys : ∀ client l, g.accounts client = some l → (l.map Prod.fst).Nodup
  queues : ∀ client l, g.accounts client = some l → ∃ utxos, g.utxos client = some utxos ∧
    ∀ k, (utxos k).isSome ↔ k ∈ l.map Prod.fst
  supply : Supply (bitcoinPayments ids) (fun _ _ => False) made g.coins

/-- A change of the queues of one client. -/
structure Changed (g : BitcoinFlowGen) (client : ClientId)
    (utxos : PubKey → Option (List (Hash × UInt64))) (g₁ : BitcoinFlowGen) : Prop where
  accounts : g₁.accounts = g.accounts
  clientList : g₁.clientList = g.clientList
  utxos : g₁.utxos = Function.update g.utxos client (some utxos)

variable {g g₁ : BitcoinFlowGen} {client : ClientId} {made made₁ : List BitcoinTxn}
  {l : List (PubKey × PrivKey)} {utxos utxos₁ : PubKey → Option (List (Hash × UInt64))}

theorem Changed.held_ne (h : Changed g client utxos₁ g₁) {other : ClientId}
    (hother : other ≠ client) : g₁.held other = g.held other := by
  rw [held, held, BitcoinFlowGen.keys, BitcoinFlowGen.keys, h.accounts, h.utxos,
    Function.update_of_ne hother]

theorem Changed.held_self (h : Changed g client utxos₁ g₁) (hl : g.accounts client = some l) :
    g₁.held client = heldBy (l.map Prod.fst).toFinset utxos₁ := by
  refine held_eq ?_ ?_
  · rw [h.accounts, hl]
  · rw [h.utxos, Function.update_self]

/-- All coins change as those of the client do. -/
theorem Changed.coins (h : Changed g client utxos₁ g₁) (hclient : client ∈ g.clientList) :
    ∃ rest, g.coins = g.held client + rest ∧ g₁.coins = g₁.held client + rest := by
  have hmem : client ∈ g.clientList.toFinset := List.mem_toFinset.mpr hclient
  obtain ⟨rest, hold, hnew⟩ := sum_changed g.held g₁.held hmem
    fun _ hother => h.held_ne hother
  refine ⟨rest, hold, ?_⟩
  rw [BitcoinFlowGen.coins, h.clientList]
  exact hnew

/-- Queues stay where they are; only the coins remain to be accounted for. -/
theorem Stock.changed (hstock : Stock ids g made) (h : Changed g client utxos₁ g₁)
    (hutxos : g.utxos client = some utxos) (hsome : ∀ k, (utxos₁ k).isSome = (utxos k).isSome)
    (hsupply : Supply (bitcoinPayments ids) (fun _ _ => False) made₁ g₁.coins) :
    Stock ids g₁ made₁ := by
  refine ⟨fun other l hl => hstock.keys other l (h.accounts ▸ hl), fun other l hl => ?_, hsupply⟩
  obtain ⟨old, hold, hkeys⟩ := hstock.queues other l (h.accounts ▸ hl)
  by_cases hother : other = client
  · subst hother
    rw [hutxos, Option.some.injEq] at hold
    subst hold
    exact ⟨utxos₁, by rw [h.utxos, Function.update_self], fun k => by rw [hsome, hkeys]⟩
  · exact ⟨old, by rw [h.utxos, Function.update_of_ne hother, hold], hkeys⟩

/-! ## A payment -/

/-- What the loop that looks for a sender ends with. -/
theorem pickSender_spec (hnodup : (l.map Prod.fst).Nodup) :
    ∀ (draws : List Nat) {p : Picked} {rest : List Nat},
      pickSender l utxos draws = .ok (p, rest) →
        p.senderPk ∈ l.map Prod.fst ∧ p.recverPk ∈ l.map Prod.fst ∧ p.senderPk ≠ p.recverPk ∧
          utxos p.senderPk = some ((p.inUtxo, p.amount) :: p.queue)
  | [], p, rest, h => by simp [pickSender] at h
  | [d], p, rest, h => by simp [pickSender] at h
  | d1 :: d2 :: draws, p, rest, h => by
    unfold pickSender at h
    simp only [bind_eq_ok, unwrap_eq_ok] at h
    obtain ⟨sender, hsender, receiver, hreceiver, ⟨pk, sk⟩, hpk, ⟨pk₁, sk₁⟩, hpk₁, queue, hqueue,
      h⟩ := h
    obtain ⟨-, hne⟩ := recver1Idx_spec (rem_lt hsender) hreceiver
    have hkeys : pk ≠ pk₁ := keys_ne hnodup hpk hpk₁ hne.symm
    cases queue with
    | nil => exact pickSender_spec hnodup draws h
    | cons u queue =>
      obtain ⟨rfl, rfl⟩ := Prod.mk.inj (Except.ok.inj h)
      exact ⟨List.mem_map_of_mem (List.mem_of_getElem? hpk),
        List.mem_map_of_mem (List.mem_of_getElem? hpk₁), hkeys, hqueue⟩

/-- The payment made of a coin leaves the two outputs, which are worth as much. -/
theorem payment_spec (ids : IdScheme) {p : Picked} (hne : p.senderPk ≠ p.recverPk)
    (crypto : CryptoScheme) {new : Cash} (hnew : new =
      outputCoin (ids.txnId (.send (payment crypto p))) p.recverPk (payment crypto p).outUtxo +
        outputCoin (ids.txnId (.send (payment crypto p))) p.senderPk (payment crypto p).remainder) :
    (bitcoinPayments ids).Pays ⟨p.inUtxo, p.senderPk, p.amount⟩ (.send (payment crypto p)) ∧
      (∀ c ∈ new, (bitcoinPayments ids).Leaves (.send (payment crypto p)) c) ∧
      (new.map Coin.slot).Nodup ∧ worth new = p.amount.toNat := by
  obtain ⟨hsum, hnat⟩ := split_value p.amount
  subst hnew
  refine ⟨bitcoin_pays rfl rfl hsum, fun c hc => ?_, outputCoins_once hne.symm _ _, ?_⟩
  · rcases Multiset.mem_add.mp hc with hc | hc
    · rw [mem_outputCoin hc]
      exact ⟨rfl, if_pos rfl⟩
    · rw [mem_outputCoin hc]
      exact ⟨rfl, (if_neg hne.symm).trans (if_pos rfl)⟩
  · rw [worth_add, worth_outputCoin, worth_outputCoin]
    exact hnat

/-- One transaction of a batch is paid with a coin at hand, and nobody loses. -/
theorem nextTxn_stock (hstock : Stock ids g made) {draws rest : List Nat}
    {x : ClientId × BitcoinTxn} (h : nextTxn ids g draws = .ok (g₁, x, rest)) :
    Stock ids g₁ (made ++ [x.2]) ∧ g₁.accounts = g.accounts ∧ g₁.clientList = g.clientList ∧
      (∀ client, worth (g₁.held client) = worth (g.held client)) ∧ x.2.isIncentive = false := by
  unfold nextTxn at h
  simp only [bind_eq_ok, unwrap_eq_ok] at h
  obtain ⟨⟨d, draws₁⟩, -, idx, -, node, hnode, l, hl, utxos, hutxos, ⟨p, draws₂⟩, hp, utxos₁, h₁,
    utxos₂, h₂, h⟩ := h
  obtain ⟨rfl, hrest⟩ := Prod.mk.inj (Except.ok.inj h)
  obtain ⟨rfl, -⟩ := Prod.mk.inj hrest
  obtain ⟨hsender, hrecver, hne, hqueue⟩ := pickSender_spec (hstock.keys node l hl) draws₁ hp
  have hsender := List.mem_toFinset.mpr hsender
  have hrecver := List.mem_toFinset.mpr hrecver
  obtain ⟨hheld₁, hsome₁⟩ := pushOutput_held hsender h₁
  obtain ⟨hheld₂, hsome₂⟩ := pushOutput_held hrecver h₂
  have hpop := heldBy_pop hsender hqueue
  obtain ⟨hpays, hleaves, honce, hworth⟩ := payment_spec ids hne g.crypto rfl
  have hclient : node ∈ g.clientList := List.mem_of_getElem? hnode
  have hsome : ∀ k, (utxos₂ k).isSome = (utxos k).isSome := by
    intro k
    rw [hsome₂, hsome₁]
    by_cases hk : k = p.senderPk
    · rw [hk, Function.update_self, hqueue]
      rfl
    · rw [Function.update_of_ne hk]
  obtain ⟨g₂, hg₂⟩ : ∃ g₂ : BitcoinFlowGen, g₂ =
      { g with
        utxos := Function.update g.utxos node (some utxos₂)
        inFlight := insert (ids.txnId (.send (payment g.crypto p))) g.inFlight } := ⟨_, rfl⟩
  rw [← hg₂]
  have hchanged : Changed g node utxos₂ g₂ := by
    subst hg₂
    exact ⟨rfl, rfl, rfl⟩
  have hself : g₂.held node = _ := hchanged.held_self hl
  rw [hheld₂, hheld₁, ← add_assoc] at hself
  have hold : g.held node = _ := (held_eq hl hutxos).trans hpop
  refine ⟨hstock.changed hchanged hutxos hsome ?_, hchanged.accounts, hchanged.clientList,
    fun client => ?_, rfl⟩
  · obtain ⟨others, hcoins, hcoins₂⟩ := hchanged.coins hclient
    have hsupply := hstock.supply
    rw [hcoins, hold, Multiset.cons_add] at hsupply
    rw [hcoins₂, hself, add_assoc]
    exact hsupply.pay_once hpays hleaves honce
  · by_cases hc : client = node
    · rw [hc, hself, hold, worth_add, worth_cons, hworth]
    · rw [hchanged.held_ne hc]

/-- The transactions of a batch. -/
theorem nextTxns_stock (n : Nat) : ∀ {g g₁ : BitcoinFlowGen} {made : List BitcoinTxn}
    {draws rest : List Nat} {batch : List (ClientId × BitcoinTxn)}, Stock ids g made →
      nextTxns ids n g draws = .ok (g₁, batch, rest) →
      Stock ids g₁ (made ++ batch.map Prod.snd) ∧ g₁.accounts = g.accounts ∧
        g₁.clientList = g.clientList ∧ (∀ client, worth (g₁.held client) = worth (g.held client)) ∧
        ∀ x ∈ batch, x.2.isIncentive = false := by
  induction n with
  | zero =>
    intro g g₁ made draws rest batch hstock h
    obtain ⟨rfl, hrest⟩ := Prod.mk.inj (Except.ok.inj h)
    obtain ⟨rfl, -⟩ := Prod.mk.inj hrest
    exact ⟨by simpa using hstock, rfl, rfl, fun _ => rfl, fun x hx => absurd hx List.not_mem_nil⟩
  | succ n ih =>
    intro g g₁ made draws rest batch hstock h
    unfold nextTxns at h
    simp only [bind_eq_ok] at h
    obtain ⟨⟨g₂, x, draws₂⟩, hx, ⟨g₃, batch₃, draws₃⟩, hbatch, h⟩ := h
    obtain ⟨rfl, hrest⟩ := Prod.mk.inj (Except.ok.inj h)
    obtain ⟨rfl, -⟩ := Prod.mk.inj hrest
    obtain ⟨hstock₂, haccounts₂, hclients₂, hworth₂, hplain₂⟩ := nextTxn_stock hstock hx
    obtain ⟨hstock₃, haccounts₃, hclients₃, hworth₃, hplain₃⟩ := ih hstock₂ hbatch
    rw [List.append_assoc] at hstock₃
    refine ⟨hstock₃, haccounts₃.trans haccounts₂, hclients₃.trans hclients₂,
      fun client => (hworth₃ client).trans (hworth₂ client), fun y hy => ?_⟩
    rcases List.mem_cons.mp hy with rfl | hy
    · exact hplain₂
    · exact hplain₃ y hy

/-! ## The grants -/

/-- The queues as `setup_txns` goes over them. -/
structure Enumerates (g : BitcoinFlowGen) (order : List (ClientId × PubKey)) : Prop where
  nodup : order.Nodup
  mem : ∀ x, x ∈ order ↔ ∃ utxos, g.utxos x.1 = some utxos ∧ (utxos x.2).isSome

/-- A generator without coins, and with different keys for all accounts. -/
structure Fresh (g : BitcoinFlowGen) : Prop where
  nodup : ∀ client l, g.accounts client = some l → (l.map Prod.fst).Nodup
  apart : ∀ client l client₁ l₁, g.accounts client = some l → g.accounts client₁ = some l₁ →
    client ≠ client₁ → ∀ a ∈ l, ∀ a₁ ∈ l₁, a.1 ≠ a₁.1
  queues : ∀ client, g.utxos client = (g.accounts client).map emptyQueues
  clients : ∀ client l, g.accounts client = some l → l ≠ [] → client ∈ g.clientList

theorem Fresh.held (h : g.Fresh) (client : ClientId) : g.held client = 0 := by
  rw [BitcoinFlowGen.held, heldBy]
  refine Finset.sum_eq_zero fun k _ => ?_
  rw [h.queues]
  cases g.accounts client with
  | none => rfl
  | some l =>
    show queueCoins k ((emptyQueues l k).getD []) = 0
    unfold emptyQueues
    split <;> rfl

theorem Fresh.stock (h : g.Fresh) : Stock ids g [] where
  keys := h.nodup
  queues client l hl := by
    refine ⟨emptyQueues l, by rw [h.queues, hl]; rfl, fun k => ?_⟩
    unfold emptyQueues
    split
    · rename_i hk
      exact iff_of_true rfl hk
    · rename_i hk
      exact iff_of_false (by simp) hk
  supply := by
    have hcoins : g.coins = 0 := Finset.sum_eq_zero fun client _ => h.held client
    rw [hcoins]
    exact .nil _ _

/-- Every account of every client comes once. -/
theorem Fresh.mem_order (h : g.Fresh) {order : List (ClientId × PubKey)}
    (horder : g.Enumerates order) {client : ClientId} {k : PubKey} :
    (client, k) ∈ order ↔ ∃ l, g.accounts client = some l ∧ k ∈ l.map Prod.fst := by
  rw [horder.mem]
  show (∃ utxos, g.utxos client = some utxos ∧ (utxos k).isSome) ↔ _
  rw [h.queues]
  have hempty : ∀ l : List (PubKey × PrivKey), (emptyQueues l k).isSome ↔ k ∈ l.map Prod.fst := by
    intro l
    unfold emptyQueues
    split
    · rename_i hk
      exact iff_of_true rfl hk
    · rename_i hk
      exact iff_of_false (by simp) hk
  constructor
  · rintro ⟨utxos, hutxos, hsome⟩
    obtain ⟨l, hl, rfl⟩ := Option.map_eq_some_iff.mp hutxos
    exact ⟨l, hl, (hempty l).mp hsome⟩
  · rintro ⟨l, hl, hk⟩
    exact ⟨emptyQueues l, by rw [hl]; rfl, (hempty l).mpr hk⟩

/-- Two entries of the order have different keys. -/
theorem Fresh.order_inj (h : g.Fresh) {order : List (ClientId × PubKey)}
    (horder : g.Enumerates order) {x y : ClientId × PubKey} (hx : x ∈ order) (hy : y ∈ order)
    (hkey : x.2 = y.2) : x = y := by
  obtain ⟨l, hl, hk⟩ := (h.mem_order horder).mp hx
  obtain ⟨l₁, hl₁, hk₁⟩ := (h.mem_order horder).mp hy
  by_contra hne
  have hclient : x.1 ≠ y.1 := fun he => hne (Prod.ext he hkey)
  obtain ⟨a, ha, hax⟩ := List.mem_map.mp hk
  obtain ⟨a₁, ha₁, hay⟩ := List.mem_map.mp hk₁
  exact h.apart x.1 l y.1 l₁ hl hl₁ hclient a ha a₁ ha₁ (hax.trans (hkey.trans hay.symm))

/-- What holds when the queues in `done` have their grants. -/
structure Granted (ids : IdScheme) (g : BitcoinFlowGen) (done : List (ClientId × PubKey))
    (acc : BitcoinFlowGen × List (ClientId × BitcoinTxn)) : Prop where
  stock : Stock ids acc.1 (acc.2.map Prod.snd)
  txns : acc.2.map Prod.snd = done.map fun x => .grant 100 x.2
  accounts : acc.1.accounts = g.accounts
  clientList : acc.1.clientList = g.clientList
  worth : ∀ client,
    FlowGen.worth (acc.1.held client) = 100 * (done.filter fun x => x.1 = client).length

theorem Granted.step (hfresh : g.Fresh) {order : List (ClientId × PubKey)}
    (horder : g.Enumerates order) {done rest : List (ClientId × PubKey)} {x : ClientId × PubKey}
    {acc acc₁ : BitcoinFlowGen × List (ClientId × BitcoinTxn)}
    (hsplit : order = done ++ x :: rest) (h : Granted ids g done acc)
    (hstep : setupTxn ids acc x = .ok acc₁) : Granted ids g (done ++ [x]) acc₁ := by
  unfold setupTxn at hstep
  simp only [bind_eq_ok, unwrap_eq_ok] at hstep
  obtain ⟨utxos, hutxos, utxos₁, hpush, hstep⟩ := hstep
  have hx : x ∈ order := hsplit ▸ List.mem_append_right _ List.mem_cons_self
  obtain ⟨l, hl, hk⟩ := (hfresh.mem_order horder).mp hx
  have hl₁ : acc.1.accounts x.1 = some l := h.accounts ▸ hl
  have hclient : x.1 ∈ acc.1.clientList := by
    rw [h.clientList]
    refine hfresh.clients x.1 l hl ?_
    rintro rfl
    exact absurd hk List.not_mem_nil
  obtain ⟨hheld, hsome⟩ := pushBack_held (List.mem_toFinset.mpr hk) hpush
  obtain ⟨g₁, hg₁⟩ : ∃ g₁ : BitcoinFlowGen, g₁ =
      { acc.1 with utxos := Function.update acc.1.utxos x.1 (some utxos₁) } := ⟨_, rfl⟩
  rw [← hg₁] at hstep
  have hchanged : Changed acc.1 x.1 utxos₁ g₁ := by
    subst hg₁
    exact ⟨rfl, rfl, rfl⟩
  have hself : g₁.held x.1 = _ := (hchanged.held_self hl₁).trans hheld
  rw [← held_eq hl₁ hutxos] at hself
  rw [← Except.ok.inj hstep]
  refine ⟨?_, ?_, hchanged.accounts.trans h.accounts, hchanged.clientList.trans h.clientList,
    fun client => ?_⟩
  · refine h.stock.changed hchanged hutxos hsome ?_
    obtain ⟨others, hcoins, hcoins₁⟩ := hchanged.coins hclient
    rw [hcoins₁, hself, Multiset.cons_add, ← hcoins, List.map_append]
    refine h.stock.supply.mint ?_ ⟨[], rfl, rfl⟩ rfl ⟨rfl, if_pos rfl⟩
    -- a grant made before is for another key
    rw [h.txns]
    intro hmem
    obtain ⟨y, hy, he⟩ := List.mem_map.mp hmem
    have hkey : y.2 = x.2 := (BitcoinTxn.grant.inj he).2
    have hyx := hfresh.order_inj horder (hsplit ▸ List.mem_append_left _ hy) hx hkey
    have hnodup := horder.nodup
    rw [hsplit, List.nodup_append] at hnodup
    exact hnodup.2.2 y hy x List.mem_cons_self hyx
  · rw [List.map_append, List.map_append, h.txns]
    rfl
  · rw [List.filter_append, List.length_append]
    by_cases hc : client = x.1
    · subst hc
      rw [hself, worth_cons, h.worth]
      rw [List.filter_cons_of_pos (by simp), List.filter_nil, List.length_singleton]
      show 100 + _ = _
      omega
    · rw [hchanged.held_ne hc, h.worth]
      simp [Ne.symm hc]

theorem Granted.returns (hfresh : g.Fresh) {order done : List (ClientId × PubKey)}
    (horder : g.Enumerates order) {x : ClientId × PubKey} (hx : x ∈ order)
    {acc : BitcoinFlowGen × List (ClientId × BitcoinTxn)} (h : Granted ids g done acc) :
    ∃ acc₁, setupTxn ids acc x = .ok acc₁ := by
  obtain ⟨l, hl, hk⟩ := (hfresh.mem_order horder).mp hx
  obtain ⟨utxos, hutxos, hkeys⟩ := h.stock.queues x.1 l (h.accounts ▸ hl)
  obtain ⟨queue, hqueue⟩ := Option.isSome_iff_exists.mp ((hkeys x.2).mpr hk)
  unfold setupTxn pushBack
  rw [hutxos]
  exact ⟨_, bind_eq_ok.mpr ⟨utxos, rfl, bind_eq_ok.mpr ⟨_, bind_eq_ok.mpr ⟨queue, by
    rw [hqueue]
    rfl, rfl⟩, rfl⟩⟩⟩

/-- `setup_txns` returns, and then every client holds a hundred for each account. -/
theorem setupTxns_stock (ids : IdScheme) (hfresh : g.Fresh) {order : List (ClientId × PubKey)}
    (horder : g.Enumerates order) : ∃ g₁ txns, setupTxns ids order g = .ok (g₁, txns) ∧
      Stock ids g₁ (txns.map Prod.snd) ∧ g₁.accounts = g.accounts ∧
      g₁.clientList = g.clientList ∧
      (∀ client l, g.accounts client = some l → worth (g₁.held client) = 100 * l.length) ∧
      ∀ x ∈ txns, x.2.isIncentive = false := by
  have hstart : Granted ids g [] (g, []) :=
    ⟨hfresh.stock, rfl, rfl, rfl, fun client => by rw [hfresh.held client]; rfl⟩
  obtain ⟨⟨g₁, txns⟩, hok, hend⟩ : ∃ acc, setupTxns ids order g = .ok acc ∧
      Granted ids g order acc := by
    refine foldlM_split_returns (Granted ids g) (fun done x rest acc hsplit hgranted => ?_) hstart
    have hx : x ∈ order := hsplit ▸ List.mem_append_right _ List.mem_cons_self
    obtain ⟨acc₁, hstep⟩ := hgranted.returns hfresh horder hx
    exact ⟨acc₁, hstep, hgranted.step hfresh horder hsplit hstep⟩
  refine ⟨g₁, txns, hok, ?_⟩
  refine ⟨hend.stock, hend.accounts, hend.clientList, fun client l hl => ?_, fun x hx => ?_⟩
  · have hperm : (order.filter fun x => x.1 = client).Perm
        ((l.map Prod.fst).map fun k => (client, k)) := by
      refine (List.perm_ext_iff_of_nodup (horder.nodup.filter _) ?_).mpr fun x => ?_
      · exact (hfresh.nodup client l hl).map fun _ _ he => (Prod.mk.inj he).2
      · rw [List.mem_filter, List.mem_map, decide_eq_true_eq]
        constructor
        · rintro ⟨hx, rfl⟩
          obtain ⟨l₁, hl₁, hk⟩ := (hfresh.mem_order horder).mp hx
          rw [hl, Option.some.injEq] at hl₁
          exact ⟨x.2, hl₁ ▸ hk, rfl⟩
        · rintro ⟨k, hk, rfl⟩
          exact ⟨(hfresh.mem_order horder).mpr ⟨l, hl, hk⟩, rfl⟩
    rw [hend.worth, hperm.length_eq, List.length_map, List.length_map]
  · have hmem := List.mem_map_of_mem (f := Prod.snd) hx
    rw [hend.txns] at hmem
    obtain ⟨y, -, he⟩ := List.mem_map.mp hmem
    exact he ▸ rfl

end BitcoinFlowGen

end Copycat.FlowGen
