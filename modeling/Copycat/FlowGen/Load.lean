import Copycat.FlowGen.InFlight

/-!
# The load is valid

The generators and the validation stages keep books of their own. They agree on all
that is made: a stage that is given the transactions in the order in which they are made
accepts each of them (`Accepted`), whatever is drawn and whatever is reported in between.
Behind it are the stocks of the two generators, with `Supply` for the payments and
`Sound.admissible` for the stages.
-/

namespace Copycat.FlowGen

open Copycat.Lib
open Avalanche (AvalancheTxn UniqueIds)

/-! ## Acceptance -/

section Acceptance

variable {τ : Type}

/-- What the batches deliver, in order. -/
def deliveredIn (batches : List (Batch τ)) : List τ :=
  batches.flatMap fun b => b.txns.map Prod.snd

/-- However the list is cut into batches, and wherever it stops: all that is delivered
is returned as valid. -/
def Accepted (validate : Validate τ) (made : List τ) : Prop :=
  ∀ batches fuel, deliveredIn batches <+: made → deliveries batches < fuel →
    ∃ r, runBatches validate fuel batches = .ok r ∧
      ∀ t ∈ deliveredIn batches, t ∈ r.2.map Prod.snd

theorem mem_deliveredIn {batches : List (Batch τ)} {t : τ} :
    t ∈ inBatches batches ↔ t ∈ deliveredIn batches :=
  List.mem_flatMap.symm

/-- A list in the order of dependencies is accepted. -/
theorem accepted_of_sound {kind : TxnKind τ} {P : τ → Prop} {made : List τ}
    (hcheck : ∀ t parents, P t → (∀ p ∈ parents, P p) → ∃ b, kind.check t parents = .ok b)
    (hmade : ∀ t ∈ made, P t) (h : Sound kind.items made) :
    Accepted (Validator.validate kind) made := by
  intro batches fuel hcut hfuel
  obtain ⟨r, hr⟩ := runBatches_returns hcheck
    (fun t ht => hmade t (hcut.subset (mem_deliveredIn.mp ht))) hfuel
  refine ⟨r, hr, fun t ht => ?_⟩
  have hinv := runBatches_inv hr
  have hin : inBatches batches = {x | x ∈ deliveredIn batches} :=
    Set.ext fun x => mem_deliveredIn
  rw [← hinv.out, hinv.law.admitted_iff, hin]
  exact (h.cut hcut).admissible t ht

end Acceptance

/-! ## Bitcoin -/

/-- A call: a batch, with what it brought, or a report. -/
inductive BitcoinCall where
  | batch (txns : List (ClientId × BitcoinTxn))
  | committed (node : NodeId) (txns : List BitcoinTxn) (blkHeight : Nat)

/-- A call of the generator. -/
inductive BitcoinStep (ids : IdScheme) : BitcoinFlowGen → BitcoinCall → BitcoinFlowGen → Prop
  | batch {g g₁ : BitcoinFlowGen} {draws rest : List Nat} {txns : List (ClientId × BitcoinTxn)} :
      g.nextTxnBatch ids draws = .ok (g₁, txns, rest) → BitcoinStep ids g (.batch txns) g₁
  | committed {g g₁ : BitcoinFlowGen} {node : NodeId} {txns : List BitcoinTxn} {blkHeight : Nat} :
      g.txnCommitted ids node txns blkHeight = .ok g₁ →
      BitcoinStep ids g (.committed node txns blkHeight) g₁

/-- The generator from some state on. -/
def bitcoinLoad (ids : IdScheme) (g₀ : BitcoinFlowGen) : Machine BitcoinFlowGen BitcoinCall where
  start := g₀
  step := BitcoinStep ids

/-- What the batches brought, in order. -/
def paidIn (tr : List BitcoinCall) : List BitcoinTxn :=
  tr.flatMap fun
    | .batch txns => txns.map Prod.snd
    | .committed _ _ _ => []

/-- What is in the queue of an account. -/
def queued (utxos : PubKey → Option (List (Hash × UInt64))) (account : PubKey) : Nat :=
  (((utxos account).getD []).map fun u => u.2.toNat).sum

/-- The queues of a client with these accounts: they hold a hundred for each account,
and one of them is not empty. -/
structure Funded (accounts : List (PubKey × PrivKey))
    (utxos : PubKey → Option (List (Hash × UInt64))) : Prop where
  queues : ∀ k, (utxos k).isSome ↔ k ∈ accounts.map Prod.fst
  sum : ((accounts.map Prod.fst).map (queued utxos)).sum = 100 * accounts.length
  eligible : ∃ a ∈ accounts, ∃ u queue, utxos a.1 = some (u :: queue)

/-- What is to be shown of a generator in a state `g`, when `made` has been made. -/
structure BitcoinValid (ids : IdScheme) (made : List BitcoinTxn) (g : BitcoinFlowGen) : Prop where
  accepted : Accepted (Bitcoin.TxnValidation.validate ids) made
  apart : ∀ t t₁, .send t ∈ made → .send t₁ ∈ made → t ≠ t₁ → t.sender = t₁.sender →
    ∀ h ∈ t.inUtxo, h ∉ t₁.inUtxo
  calm : ∀ draws, NoPanic (g.nextTxnBatch ids draws)
  -- also between the transactions of a batch
  funded : ∀ n draws g₁ txns rest, g.nextTxns ids n draws = .ok (g₁, txns, rest) →
    ∀ client ∈ g₁.clientList, ∃ accounts utxos, g₁.accounts client = some accounts ∧
      g₁.utxos client = some utxos ∧ Funded accounts utxos

namespace BitcoinFlowGen

variable {ids : IdScheme} {made : List BitcoinTxn} {g g₁ : BitcoinFlowGen} {tr : List BitcoinCall}
  {client : ClientId}

theorem worth_sum {s : Finset PubKey} (f : PubKey → Cash) :
    worth (∑ k ∈ s, f k) = ∑ k ∈ s, worth (f k) := by
  induction s using Finset.induction_on with
  | empty => rfl
  | insert k s hk ih => rw [Finset.sum_insert hk, Finset.sum_insert hk, worth_add, ih]

/-- What the accounts of a client own is the sum over their queues. -/
theorem worth_heldBy {l : List (PubKey × PrivKey)} (hnodup : (l.map Prod.fst).Nodup)
    (utxos : PubKey → Option (List (Hash × UInt64))) :
    worth (heldBy (l.map Prod.fst).toFinset utxos) =
      ((l.map Prod.fst).map (queued utxos)).sum := by
  rw [heldBy, worth_sum, List.sum_toFinset _ hnodup]
  refine congrArg List.sum (List.map_congr_left fun k _ => ?_)
  rw [queueCoins, worth, Multiset.map_coe, Multiset.sum_coe, List.map_map]
  rfl

/-- There are clients, and each has two accounts and a hundred for every account. -/
structure Endowed (g : BitcoinFlowGen) : Prop where
  clients : g.clientList ≠ []
  accounts : ∀ client ∈ g.clientList, ∃ l, g.accounts client = some l ∧ 1 < l.length ∧
    worth (g.held client) = 100 * l.length

theorem Endowed.equipped (h : g.Endowed) : g.Equipped where
  clients := h.clients
  accounts client hclient := by
    obtain ⟨l, hl, hlen, -⟩ := h.accounts client hclient
    exact ⟨l, hl, hlen⟩

theorem Endowed.unchanged (h : g.Endowed) (haccounts : g₁.accounts = g.accounts)
    (hclients : g₁.clientList = g.clientList)
    (hworth : ∀ client, worth (g₁.held client) = worth (g.held client)) : g₁.Endowed where
  clients := hclients ▸ h.clients
  accounts client hclient := by
    rw [haccounts, hworth]
    exact h.accounts client (hclients ▸ hclient)

/-- The map of a client has a queue for each account, and what is in the queues
is its funds. -/
theorem Stock.funded (h : Stock ids g made) (hg : g.Endowed) (hclient : client ∈ g.clientList) :
    ∃ accounts utxos, g.accounts client = some accounts ∧ g.utxos client = some utxos ∧
      Funded accounts utxos := by
  obtain ⟨l, hl, hlen, hworth⟩ := hg.accounts client hclient
  obtain ⟨utxos, hutxos, hkeys⟩ := h.queues client l hl
  rw [held_eq hl hutxos, worth_heldBy (h.keys client l hl)] at hworth
  refine ⟨l, utxos, hl, hutxos, hkeys, hworth, ?_⟩
  -- were all queues empty, there would be nothing in them
  by_contra hnone
  have hzero : ∀ n ∈ (l.map Prod.fst).map (queued utxos), n = 0 := by
    intro n hn
    obtain ⟨k, hk, rfl⟩ := List.mem_map.mp hn
    obtain ⟨a, ha, rfl⟩ := List.mem_map.mp hk
    obtain ⟨queue, hqueue⟩ := Option.isSome_iff_exists.mp ((hkeys a.1).mpr hk)
    cases queue with
    | nil =>
      rw [queued, hqueue]
      rfl
    | cons u queue => exact absurd ⟨a, ha, u, queue, hqueue⟩ hnone
  rw [List.sum_eq_zero hzero] at hworth
  omega

/-- What holds after the calls `tr`, where `made` had been made before. -/
structure RunInv (ids : IdScheme) (made : List BitcoinTxn) (tr : List BitcoinCall)
    (g : BitcoinFlowGen) : Prop where
  stock : Stock ids g (made ++ paidIn tr)
  endowed : g.Endowed
  plain : ∀ t ∈ made ++ paidIn tr, t.isIncentive = false

/-- A batch keeps the stock and the funds. -/
theorem RunInv.batch {txns : List (ClientId × BitcoinTxn)} {draws rest : List Nat}
    (h : RunInv ids made tr g) (hok : g.nextTxnBatch ids draws = .ok (g₁, txns, rest)) :
    RunInv ids made (tr ++ [.batch txns]) g₁ := by
  obtain ⟨hstock, haccounts, hclients, hworth, hplain⟩ := nextTxns_stock _ h.stock hok
  have hpaid : made ++ paidIn (tr ++ [.batch txns]) = made ++ paidIn tr ++ txns.map Prod.snd := by
    rw [paidIn, List.flatMap_append, List.append_assoc]
    exact congrArg _ (congrArg _ (List.flatMap_singleton ..))
  refine ⟨hpaid ▸ hstock, h.endowed.unchanged haccounts hclients hworth, fun t ht => ?_⟩
  rw [hpaid] at ht
  rcases List.mem_append.mp ht with ht | ht
  · exact h.plain t ht
  · obtain ⟨x, hx, rfl⟩ := List.mem_map.mp ht
    exact hplain x hx

/-- A report keeps them too, as it moves no coin. -/
theorem RunInv.committed {node : NodeId} {txns : List BitcoinTxn} {blkHeight : Nat}
    (h : RunInv ids made tr g) (hok : g.txnCommitted ids node txns blkHeight = .ok g₁) :
    RunInv ids made (tr ++ [.committed node txns blkHeight]) g₁ := by
  obtain ⟨info, -, hg₁⟩ := bind_eq_ok.mp hok
  have hpaid : paidIn (tr ++ [.committed node txns blkHeight]) = paidIn tr := by
    rw [paidIn, List.flatMap_append]
    exact List.append_nil _
  refine ⟨?_, ?_, hpaid ▸ h.plain⟩
  · rw [hpaid, ← Except.ok.inj hg₁]
    exact ⟨h.stock.keys, h.stock.queues, h.stock.supply⟩
  · rw [← Except.ok.inj hg₁]
    exact h.endowed.unchanged rfl rfl fun _ => rfl

/-- A run keeps the invariant. -/
theorem runInv_run {g₀ : BitcoinFlowGen} (hstart : RunInv ids made [] g₀)
    (hrun : (bitcoinLoad ids g₀).Run (fun _ _ => True) tr g) : RunInv ids made tr g := by
  refine hrun.invariant_trace (RunInv ids made) hstart ?_
  intro tr g a g₁ h _ hstep
  cases hstep with
  | batch hok => exact h.batch hok
  | committed hok => exact h.committed hok

/-- What the invariant says is that the load is valid. -/
theorem RunInv.valid (h : RunInv ids made tr g) : BitcoinValid ids (made ++ paidIn tr) g where
  accepted := by
    rw [Bitcoin.TxnValidation.validate_shared]
    exact accepted_of_sound (fun t parents ht _ => Bitcoin.check_returns ids t parents ht) h.plain
      h.stock.supply.sound
  apart t t₁ ht ht₁ hne hsender x hx hx₁ := by
    refine h.stock.supply.apart _ ht _ ht₁ (fun he => hne (BitcoinTxn.send.inj he)) (x, t.sender)
      ?_ ?_
    · show (x, t.sender) ∈ t.inUtxo.map fun h => (h, t.sender)
      exact List.mem_map_of_mem hx
    · show (x, t.sender) ∈ t₁.inUtxo.map fun h => (h, t₁.sender)
      rw [hsender]
      exact List.mem_map_of_mem hx₁
  calm draws := h.stock.noPanic_nextTxns _ h.endowed.equipped draws
  funded n draws g₁ txns rest hok client hclient := by
    obtain ⟨hstock, haccounts, hclients, hworth, -⟩ := nextTxns_stock n h.stock hok
    exact hstock.funded (h.endowed.unchanged haccounts hclients hworth) hclient

/-- The generator that `new` makes. -/
theorem fresh_new {crypto : CryptoScheme} {id : UInt64} {clientList : List ClientId}
    {numAccounts : Nat}
    (hkeys : DistinctKeys crypto id (clientList.length * accountsPerNode clientList numAccounts))
    (maxInflight frequency : Nat)
    (hg : g = .new id clientList numAccounts maxInflight frequency crypto) :
    g.Fresh ∧ g.clientList = clientList ∧ ∀ client, ((g.accounts client).getD []).length =
      clientList.count client * accountsPerNode clientList numAccounts := by
  obtain ⟨hkeyed, hqueues, hcount⟩ := bitcoin_new hkeys maxInflight frequency hg
  have hclients : g.clientList = clientList := hg ▸ rfl
  refine ⟨⟨hkeyed.nodup, hkeyed.apart, hqueues, fun client l hl hne => ?_⟩, hclients, hcount⟩
  have hlen := hcount client
  rw [hl, Option.getD_some] at hlen
  by_contra hout
  rw [List.count_eq_zero.mpr (hclients ▸ hout), Nat.zero_mul] at hlen
  exact hne (List.length_eq_zero_iff.mp hlen)

end BitcoinFlowGen

/-! ## Avalanche -/

/-- What is to be shown of a generator after the calls `tr`, when `made` has been made. -/
structure AvalancheValid (ids : UniqueIds) (tr : List AvalancheCall) (made : List AvalancheTxn)
    (g : AvalancheFlowGen) : Prop where
  accepted : Accepted (Avalanche.TxnValidation.validate ids) made
  apart : ∀ t ∈ made, ∀ t₁ ∈ made, t ≠ t₁ → ∀ x ∈ t.utxos, x ∈ t₁.utxos →
    AvalancheFlowGen.BasePair t t₁ ∧ Registered tr (ids.txnId t) (ids.txnId t₁)
  calm : ∀ draws, NoPanic (g.nextTxnBatch ids draws)
  -- also between the passes of the loop
  filled : ∀ left draws g₁ txns rest, g.nextRounds ids left draws = .ok (g₁, txns, rest) →
    ∀ client ∈ g₁.clientList, ∃ utxos, g₁.utxos client = some utxos ∧ utxos ≠ []

namespace AvalancheFlowGen

variable {ids : UniqueIds} {made : List AvalancheTxn} {g g₁ : AvalancheFlowGen}
  {tr : List AvalancheCall} {txns : List (ClientId × AvalancheTxn)}

/-- What holds after the calls `tr`, where `made` had been made before. -/
structure RunInv (ids : UniqueIds) (made : List AvalancheTxn) (tr : List AvalancheCall)
    (g : AvalancheFlowGen) : Prop where
  load : LoadInv ids made tr g
  equipped : g.Equipped
  client : ∀ t ∈ made ++ broughtIn tr, t.fromClient

theorem RunInv.batch {draws rest : List Nat} (h : RunInv ids made tr g)
    (hok : g.nextTxnBatch ids draws = .ok (g₁, txns, rest)) :
    RunInv ids made (tr ++ [.batch txns (newPairs g g₁)]) g₁ := by
  have hround := h.load.stock.nextTxnBatch hok
  refine ⟨h.load.batch hok, h.equipped.round hround, fun t ht => ?_⟩
  rw [broughtIn_batch, ← List.append_assoc] at ht
  rcases List.mem_append.mp ht with ht | ht
  · exact h.client t ht
  · obtain ⟨x, hx, rfl⟩ := List.mem_map.mp ht
    exact hround.ext.client x hx

theorem Equipped.same (h : g.Equipped) (hsame : SameStock g g₁) : g₁.Equipped where
  clients := hsame.clientList ▸ h.clients
  accounts client l hl := h.accounts client l (hsame.accounts ▸ hl)
  filled client hclient := hsame.utxos ▸ h.filled client (hsame.clientList ▸ hclient)

theorem RunInv.committed (h : RunInv ids made tr g) (node : NodeId) (txns : List AvalancheTxn) :
    RunInv ids made (tr ++ [.committed node txns]) (g.txnCommitted ids node txns) :=
  ⟨h.load.committed node txns, h.equipped.same (txnCommitted_spec ids g node txns).1, by
    rw [broughtIn_committed]
    exact h.client⟩

/-- A run keeps the invariant. -/
theorem runInv_run {g₀ : AvalancheFlowGen} (hstart : RunInv ids made [] g₀)
    (hrun : (avalancheLoad ids g₀).Run (fun _ _ => True) tr g) : RunInv ids made tr g := by
  refine hrun.invariant_trace (RunInv ids made) hstart ?_
  intro tr g a g₁ h _ hstep
  cases hstep with
  | batch hok => exact h.batch hok
  | committed => exact h.committed _ _

theorem RunInv.valid (h : RunInv ids made tr g) :
    AvalancheValid ids tr (made ++ broughtIn tr) g where
  accepted := accepted_of_sound (Avalanche.check_returns ids) h.client h.load.stock.supply.sound
  apart t ht t₁ ht₁ hne x hx hx₁ := by
    obtain ⟨hbase, hpair⟩ := h.load.stock.supply.apart t ht t₁ ht₁ hne x hx hx₁
    exact ⟨hbase, hpair.elim id (h.load.current _ _)⟩
  calm draws := h.load.stock.nextTxnBatch_no_panic h.equipped draws
  filled left draws g₁ txns rest hok client hclient := by
    have hround := h.load.stock.nextRounds left hok
    obtain ⟨-, utxos, -, hutxos, -⟩ := hround.stock.utxos client hclient
    refine ⟨utxos, hutxos, ?_⟩
    rintro rfl
    exact (h.equipped.round hround).filled client hclient hutxos

end AvalancheFlowGen

/-! ## Both -/

section Valid

variable {crypto : CryptoScheme} {id : UInt64} {clientList : List ClientId} {numAccounts : Nat}

/-- **The load of a Bitcoin generator is valid**, from its `setup_txns` on. -/
theorem bitcoin_valid
    (hkeys : DistinctKeys crypto id (clientList.length * accountsPerNode clientList numAccounts))
    (hmany : 2 ≤ accountsPerNode clientList numAccounts) (ids : IdScheme)
    (maxInflight frequency : Nat) {g : BitcoinFlowGen}
    (hg : g = .new id clientList numAccounts maxInflight frequency crypto)
    {order : List (ClientId × PubKey)} (horder : g.Enumerates order) :
    ∃ g₀ grants, BitcoinFlowGen.setupTxns ids order g = .ok (g₀, grants) ∧
      ∀ tr g₁, (bitcoinLoad ids g₀).Run (fun _ _ => True) tr g₁ →
        BitcoinValid ids (grants.map Prod.snd ++ paidIn tr) g₁ := by
  obtain ⟨hfresh, hclients, hcount⟩ := BitcoinFlowGen.fresh_new hkeys maxInflight frequency hg
  obtain ⟨g₀, grants, hok, hstock, haccounts, hclients₀, hworth, hplain⟩ :=
    BitcoinFlowGen.setupTxns_stock ids hfresh horder
  refine ⟨g₀, grants, hok, fun tr g₁ hrun => (BitcoinFlowGen.runInv_run ?_ hrun).valid⟩
  refine ⟨?_, ⟨?_, fun client hclient => ?_⟩, fun t ht => ?_⟩
  · rw [paidIn, List.flatMap_nil, List.append_nil]
    exact hstock
  · rw [hclients₀, hclients]
    rintro rfl
    exact absurd hmany (by simp [accountsPerNode])
  · rw [hclients₀, hclients] at hclient
    have hpos : 1 ≤ clientList.count client := List.count_pos_iff.mpr hclient
    have hlen := hcount client
    have hle := Nat.mul_le_mul hpos hmany
    cases hl : g.accounts client with
    | none =>
      rw [hl, Option.getD_none, List.length_nil] at hlen
      omega
    | some l =>
      rw [hl, Option.getD_some] at hlen
      exact ⟨l, haccounts ▸ hl, by omega, hworth client l hl⟩
  · rw [paidIn, List.flatMap_nil, List.append_nil] at ht
    obtain ⟨x, hx, rfl⟩ := List.mem_map.mp ht
    exact hplain x hx

/-- **So is the load of an Avalanche generator**, with three accounts for each client. -/
theorem avalanche_valid
    (hkeys : DistinctKeys crypto id (clientList.length * accountsPerNode clientList numAccounts))
    (hmany : 3 ≤ accountsPerNode clientList numAccounts) (ids : UniqueIds)
    (maxInflight frequency : Nat) (conflictRate : ℚ) :
    ∃ g, AvalancheFlowGen.new id clientList numAccounts maxInflight frequency conflictRate crypto =
      .ok g ∧ ∀ order, g.Enumerates order →
        ∃ g₀ grants, AvalancheFlowGen.setupTxns ids order g = .ok (g₀, grants) ∧
          ∀ tr g₁, (avalancheLoad ids g₀).Run (fun _ _ => True) tr g₁ →
            AvalancheValid ids tr (grants.map Prod.snd ++ broughtIn tr) g₁ := by
  obtain ⟨g, hg⟩ : ∃ g, AvalancheFlowGen.new id clientList numAccounts maxInflight frequency
      conflictRate crypto = .ok g := by
    unfold AvalancheFlowGen.new
    exact ⟨_, if_pos (by omega)⟩
  have hfresh := (AvalancheFlowGen.fresh_new hg hkeys).1
  refine ⟨g, hg, fun order horder => ?_⟩
  obtain ⟨g₀, grants, hok, -, -, -, hclient⟩ :=
    AvalancheFlowGen.setupTxns_stock ids (Registered []) hfresh horder
  refine ⟨g₀, grants, hok, fun tr g₁ hrun => (AvalancheFlowGen.runInv_run ?_ hrun).valid⟩
  refine ⟨(Started.setup horder hok).loadInv hfresh,
    AvalancheFlowGen.equipped_setup hg hkeys hmany horder hok, fun t ht => ?_⟩
  rw [broughtIn, List.flatMap_nil, List.append_nil] at ht
  obtain ⟨x, hx, rfl⟩ := List.mem_map.mp ht
  exact hclient x hx

/-- **Generated load is valid**: whatever is drawn and whatever is reported, a stage that
is given all transactions in the order in which they are made accepts them, no output is
paid with twice but by the two transactions of a conflict, and no client runs out. -/
theorem load_valid
    (hkeys : DistinctKeys crypto id (clientList.length * accountsPerNode clientList numAccounts))
    (ids : IdScheme) (ids' : UniqueIds) (maxInflight frequency : Nat) (conflictRate : ℚ) :
    (2 ≤ accountsPerNode clientList numAccounts → ∀ order,
      (BitcoinFlowGen.new id clientList numAccounts maxInflight frequency crypto).Enumerates order →
      ∃ g₀ grants, BitcoinFlowGen.setupTxns ids order
          (.new id clientList numAccounts maxInflight frequency crypto) = .ok (g₀, grants) ∧
        ∀ tr g₁, (bitcoinLoad ids g₀).Run (fun _ _ => True) tr g₁ →
          BitcoinValid ids (grants.map Prod.snd ++ paidIn tr) g₁) ∧
    (3 ≤ accountsPerNode clientList numAccounts → ∃ g,
      AvalancheFlowGen.new id clientList numAccounts maxInflight frequency conflictRate crypto =
        .ok g ∧
      ∀ order, g.Enumerates order →
        ∃ g₀ grants, AvalancheFlowGen.setupTxns ids' order g = .ok (g₀, grants) ∧
          ∀ tr g₁, (avalancheLoad ids' g₀).Run (fun _ _ => True) tr g₁ →
            AvalancheValid ids' tr (grants.map Prod.snd ++ broughtIn tr) g₁) :=
  ⟨fun hmany _ horder => bitcoin_valid hkeys hmany ids maxInflight frequency rfl horder,
    fun hmany => avalanche_valid hkeys hmany ids' maxInflight frequency conflictRate⟩

end Valid

/-- The three accounts of one client. -/
theorem enumerates_demo : (BitcoinFlowGen.new 0 [0] 3 1 0 demoCrypto).Enumerates
    [(0, [0]), (0, [1]), (0, [2])] := by
  obtain ⟨g, hg⟩ : ∃ g, g = BitcoinFlowGen.new 0 [0] 3 1 0 demoCrypto := ⟨_, rfl⟩
  obtain ⟨hfresh, hclients, -⟩ := BitcoinFlowGen.fresh_new distinctKeys_demo 1 0 hg
  have hzero : g.accounts 0 = some [([0], [0]), ([1], [1]), ([2], [2])] := by
    rw [hg]
    rfl
  have hother : ∀ client, client ≠ 0 → g.accounts client = none := by
    intro client hclient
    rw [hg]
    simp [BitcoinFlowGen.new, newClient, newAccount, accountsPerNode, hclient]
  rw [← hg]
  refine ⟨by decide, fun x => ?_⟩
  rw [hfresh.queues]
  by_cases hx : x.1 = 0
  · simp [emptyQueues, Prod.ext_iff, hx, hzero]
  · rw [hother _ hx]
    simp [Prod.ext_iff, hx]

/-- A batch of each generator, that of the second with a conflict. -/
theorem load_valid_demo :
    (∃ g₀ grants g₁ txns, BitcoinFlowGen.setupTxns (.ofTable []) [(0, [0]), (0, [1]), (0, [2])]
        (.new 0 [0] 3 1 0 demoCrypto) = .ok (g₀, grants) ∧
      g₀.nextTxnBatch (.ofTable []) [0, 0, 0] = .ok (g₁, txns, []) ∧
      BitcoinValid (.ofTable []) (grants.map Prod.snd ++ txns.map Prod.snd) g₁) ∧
    ∃ g g₀ grants draws g₁ txns rest,
      AvalancheFlowGen.new 0 [0] 3 1 0 0 demoCrypto = .ok g ∧
      AvalancheFlowGen.setupTxns .coded [0] g = .ok (g₀, grants) ∧
      g₀.nextTxnBatch .coded draws = .ok (g₁, txns, rest) ∧
      AvalancheFlowGen.Contested .coded txns g₁ ∧
      AvalancheValid .coded [.batch txns (newPairs g₀ g₁)]
        (grants.map Prod.snd ++ txns.map Prod.snd) g₁ := by
  obtain ⟨hbitcoin, havalanche⟩ :=
    @load_valid demoCrypto 0 [0] 3 distinctKeys_demo (.ofTable []) .coded 1 0 0
  constructor
  · obtain ⟨g₀, grants, hok, hvalid⟩ := hbitcoin (by decide) _ enumerates_demo
    obtain ⟨g₁, txns, hbatch⟩ : ∃ g₁ txns,
        g₀.nextTxnBatch (.ofTable []) [0, 0, 0] = .ok (g₁, txns, []) := by
      rw [← (Prod.mk.inj (Except.ok.inj hok)).1]
      exact ⟨_, _, rfl⟩
    have hrun : (bitcoinLoad (.ofTable []) g₀).Run (fun _ _ => True) [.batch txns] g₁ :=
      Machine.Run.nil.snoc trivial (.batch hbatch)
    refine ⟨g₀, grants, g₁, txns, hok, hbatch, ?_⟩
    simpa [paidIn] using hvalid _ _ hrun
  · obtain ⟨g, hg, hsetup⟩ := havalanche (by decide)
    obtain ⟨g₀, grants, hok, hvalid⟩ := hsetup [0] (enumerates_single hg)
    obtain ⟨draws, g₁, txns, rest, hbatch, hcontested⟩ := batch_demo hg hok
    have hrun : (avalancheLoad .coded g₀).Run (fun _ _ => True)
        [.batch txns (newPairs g₀ g₁)] g₁ := Machine.Run.nil.snoc trivial (.batch hbatch)
    refine ⟨g, g₀, grants, draws, g₁, txns, rest, hg, hok, hbatch, hcontested, ?_⟩
    simpa [broughtIn] using hvalid _ _ hrun

end Copycat.FlowGen
