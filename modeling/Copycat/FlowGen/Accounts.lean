import Copycat.FlowGen.Avalanche

/-!
# The accounts of a generator

`new` of both generators numbers the accounts of all clients and makes the key of each
from its number. With at most `2 ^ 32` of them the seeds are different
(`seed_inj`); what the generators rely on is that the keys are (`DistinctKeys`).
Then no two accounts have the same key, of one client or of two (`Keyed`).
-/

namespace Copycat.FlowGen

/-- The keys of account number `n`. -/
def keyPairOf (crypto : CryptoScheme) (id : UInt64) (n : Nat) : PubKey × PrivKey :=
  crypto.genKeyPair (seed id (.ofNat n))

/-- The first `n` accounts have different keys. -/
def DistinctKeys (crypto : CryptoScheme) (id : UInt64) (n : Nat) : Prop :=
  ∀ i < n, ∀ j < n, (keyPairOf crypto id i).1 = (keyPairOf crypto id j).1 → i = j

/-- The lower half of a seed is the account number. -/
theorem seed_mod (id : UInt64) {n : Nat} (hn : n < 2 ^ 32) :
    (seed id (.ofNat n)).toNat % 2 ^ 32 = n := by
  have hleft : (id <<< 32).toNat % 2 ^ 32 = 0 := by
    rw [UInt64.toNat_shiftLeft, Nat.shiftLeft_eq]
    show id.toNat * 2 ^ 32 % 2 ^ 64 % 2 ^ 32 = 0
    omega
  have hright : (UInt64.ofNat n).toNat = n := UInt64.toNat_ofNat_of_lt' (by
    show n < 2 ^ 64
    omega)
  rw [seed, UInt64.toNat_or, Nat.or_mod_two_pow, hleft, hright, Nat.zero_or, Nat.mod_eq_of_lt hn]

theorem seed_inj (id : UInt64) {i j : Nat} (hi : i < 2 ^ 32) (hj : j < 2 ^ 32)
    (h : seed id (.ofNat i) = seed id (.ofNat j)) : i = j := by
  rw [← seed_mod id hi, h, seed_mod id hj]

/-- Different seeds make the keys of up to `2 ^ 32` accounts different. -/
theorem distinctKeys_of_injective {crypto : CryptoScheme}
    (hcrypto : Function.Injective fun s => (crypto.genKeyPair s).1) (id : UInt64) {n : Nat}
    (hn : n ≤ 2 ^ 32) : DistinctKeys crypto id n :=
  fun _ hi _ hj h => seed_inj id (hi.trans_le hn) (hj.trans_le hn) (hcrypto h)

/-- The accounts have keys of numbers below `n`, and no key is there twice. -/
structure Keyed (crypto : CryptoScheme) (id : UInt64) (n : Nat) (accounts : Accounts) : Prop where
  made : ∀ client l, accounts client = some l → ∀ a ∈ l, ∃ i < n, a.1 = (keyPairOf crypto id i).1
  nodup : ∀ client l, accounts client = some l → (l.map Prod.fst).Nodup
  apart : ∀ client l client₁ l₁, accounts client = some l → accounts client₁ = some l₁ →
    client ≠ client₁ → ∀ a ∈ l, ∀ a₁ ∈ l₁, a.1 ≠ a₁.1

/-- Accounts at two places of a list have different keys. -/
theorem keys_ne {l : List (PubKey × PrivKey)} (hnodup : (l.map Prod.fst).Nodup) {i j : Nat}
    {a a₁ : PubKey × PrivKey} (hi : l[i]? = some a) (hj : l[j]? = some a₁) (hne : i ≠ j) :
    a.1 ≠ a₁.1 := by
  intro he
  have hsame : (l.map Prod.fst)[i]? = (l.map Prod.fst)[j]? := by
    rw [List.getElem?_map, List.getElem?_map, hi, hj, Option.map_some, Option.map_some, he]
  have hlt : i < (l.map Prod.fst).length := by
    rw [List.length_map]
    exact (List.getElem?_eq_some_iff.mp hi).1
  exact hne ((List.getElem?_inj hlt hnodup).mp hsame)

section New

variable {crypto : CryptoScheme} {id : UInt64} {n m total : Nat} {accounts : Accounts}

theorem keyed_none (crypto : CryptoScheme) (id : UInt64) : Keyed crypto id 0 fun _ => none where
  made client l h := absurd h (by simp)
  nodup client l h := absurd h (by simp)
  apart client l client₁ l₁ h := absurd h (by simp)

/-- A client gets accounts with numbers from `n` on. -/
theorem Keyed.update (h : Keyed crypto id n accounts) (hkeys : DistinctKeys crypto id total)
    (hle : n ≤ m) (hm : m ≤ total) {client : ClientId} {l : List (PubKey × PrivKey)}
    (hl : ∀ a ∈ l, (∃ old, accounts client = some old ∧ a ∈ old) ∨
      ∃ i, n ≤ i ∧ i < m ∧ a.1 = (keyPairOf crypto id i).1)
    (hnodup : (l.map Prod.fst).Nodup) :
    Keyed crypto id m (Function.update accounts client (some l)) := by
  have hnew : ∀ other l₁, other ≠ client → accounts other = some l₁ →
      ∀ a ∈ l, ∀ a₁ ∈ l₁, a.1 ≠ a₁.1 := by
    intro other l₁ hother hl₁ a ha a₁ ha₁
    rcases hl a ha with ⟨old, hold, ha⟩ | ⟨i, hni, him, hi⟩
    · exact h.apart client old other l₁ hold hl₁ hother.symm a ha a₁ ha₁
    · obtain ⟨j, hj, hkey⟩ := h.made other l₁ hl₁ a₁ ha₁
      intro he
      rw [hi, hkey] at he
      have := hkeys i (by omega) j (by omega) he
      omega
  refine ⟨fun other l₁ hl₁ a ha => ?_, fun other l₁ hl₁ => ?_,
    fun other l₁ other₁ l₂ hl₁ hl₂ hne => ?_⟩
  · by_cases hother : other = client
    · subst hother
      rw [Function.update_self, Option.some.injEq] at hl₁
      subst hl₁
      rcases hl a ha with ⟨old, hold, ha⟩ | ⟨i, -, him, hi⟩
      · obtain ⟨i, hi, hkey⟩ := h.made other old hold a ha
        exact ⟨i, by omega, hkey⟩
      · exact ⟨i, him, hi⟩
    · rw [Function.update_of_ne hother] at hl₁
      obtain ⟨i, hi, hkey⟩ := h.made other l₁ hl₁ a ha
      exact ⟨i, by omega, hkey⟩
  · by_cases hother : other = client
    · subst hother
      rw [Function.update_self, Option.some.injEq] at hl₁
      exact hl₁ ▸ hnodup
    · rw [Function.update_of_ne hother] at hl₁
      exact h.nodup other l₁ hl₁
  · by_cases hother : other = client
    · subst hother
      rw [Function.update_self, Option.some.injEq] at hl₁
      rw [Function.update_of_ne hne.symm] at hl₂
      subst hl₁
      exact hnew other₁ l₂ hne.symm hl₂
    · rw [Function.update_of_ne hother] at hl₁
      by_cases hother₁ : other₁ = client
      · subst hother₁
        rw [Function.update_self, Option.some.injEq] at hl₂
        subst hl₂
        exact fun a ha a₁ ha₁ => (hnew other l₁ hother hl₁ a₁ ha₁ a ha).symm
      · rw [Function.update_of_ne hother₁] at hl₂
        exact h.apart other l₁ other₁ l₂ hl₁ hl₂ hne

/-! ## Bitcoin -/

/-- An empty queue for each account. -/
def emptyQueues (l : List (PubKey × PrivKey)) : PubKey → Option (List (Hash × UInt64)) :=
  fun account => if account ∈ l.map Prod.fst then some [] else none

/-- What holds of what has been made, with `n` accounts so far. -/
structure NewAccounts.Good (crypto : CryptoScheme) (id : UInt64) (n : Nat) (s : NewAccounts) :
    Prop where
  number : s.i = .ofNat n
  keyed : Keyed crypto id n s.accounts
  queues : ∀ client, s.utxos client = (s.accounts client).map emptyQueues

/-- The number of accounts of a client. -/
def NewAccounts.count (s : NewAccounts) (client : ClientId) : Nat :=
  ((s.accounts client).getD []).length

variable {s : NewAccounts} {client : ClientId}

theorem NewAccounts.Good.newAccount (h : s.Good crypto id n) (hkeys : DistinctKeys crypto id total)
    (hn : n < total) (client : ClientId) :
    (newAccount crypto id client s).Good crypto id (n + 1) := by
  have hpair : crypto.genKeyPair (seed id s.i) = keyPairOf crypto id n := by rw [h.number]; rfl
  refine ⟨?_, ?_, fun other => ?_⟩
  · show s.i + 1 = _
    rw [h.number, UInt64.ofNat_add]
    rfl
  · refine h.keyed.update hkeys (Nat.le_succ n) hn (fun a ha => ?_) ?_
    · rcases List.mem_append.mp ha with ha | ha
      · cases hl : s.accounts client with
        | none => simp [hl] at ha
        | some old => exact Or.inl ⟨old, rfl, by simpa [hl] using ha⟩
      · rw [List.mem_singleton.mp ha, hpair]
        exact Or.inr ⟨n, le_rfl, Nat.lt_succ_self n, rfl⟩
    · rw [List.map_append, List.nodup_append]
      refine ⟨?_, List.nodup_singleton _, fun x hx y hy he => ?_⟩
      · cases hl : s.accounts client with
        | none => exact .nil
        | some old => exact h.keyed.nodup client old hl
      · obtain ⟨a, ha, rfl⟩ := List.mem_map.mp hx
        cases hl : s.accounts client with
        | none => simp [hl] at ha
        | some old =>
          rw [hl] at ha
          obtain ⟨i, hi, hkey⟩ := h.keyed.made client old hl a ha
          rw [he, List.mem_singleton.mp hy, hpair] at hkey
          have := hkeys n hn i (by omega) hkey
          omega
  · show Function.update s.utxos client _ other = (Function.update s.accounts client _ other).map _
    by_cases hother : other = client
    · subst hother
      rw [Function.update_self, Function.update_self, h.queues, Option.map_some]
      refine congrArg some (funext fun k => ?_)
      by_cases hk : k = (crypto.genKeyPair (seed id s.i)).1
      · rw [hk, Function.update_self]
        simp [emptyQueues]
      · rw [Function.update_of_ne hk]
        cases hl : s.accounts other with
        | none => simp [emptyQueues, hk]
        | some old =>
          refine if_congr ?_ rfl rfl
          show k ∈ old.map Prod.fst ↔ k ∈ (old ++ [_]).map Prod.fst
          rw [List.map_append, List.mem_append, List.map_singleton, List.mem_singleton,
            or_iff_left hk]
    · rw [Function.update_of_ne hother, Function.update_of_ne hother]
      exact h.queues other

theorem count_newAccount (other : ClientId) :
    (newAccount crypto id client s).count other =
      s.count other + if other = client then 1 else 0 := by
  unfold NewAccounts.count newAccount
  by_cases hother : other = client
  · subst hother
    simp
  · simp [hother]

/-- The accounts of one client. -/
theorem NewAccounts.Good.newClient (hkeys : DistinctKeys crypto id total) (client : ClientId)
    (k : Nat) : ∀ {n : Nat} {s : NewAccounts}, s.Good crypto id n → n + k ≤ total →
      (newClient crypto id client k s).Good crypto id (n + k) ∧
        ∀ other, (FlowGen.newClient crypto id client k s).count other =
          s.count other + if other = client then k else 0 := by
  induction k with
  | zero => exact fun h _ => ⟨h, fun other => by simp [FlowGen.newClient]⟩
  | succ k ih =>
    intro n s h hn
    obtain ⟨hgood, hcount⟩ := ih (h.newAccount hkeys (by omega) client) (by omega)
    rw [Nat.add_right_comm] at hgood
    refine ⟨hgood, fun other => ?_⟩
    show (FlowGen.newClient crypto id client k
      (FlowGen.newAccount crypto id client s)).count other = _
    rw [hcount, count_newAccount]
    split <;> omega

/-- The accounts of all clients. -/
theorem NewAccounts.Good.newClients (hkeys : DistinctKeys crypto id total) (k : Nat)
    (clientList : List ClientId) : ∀ {n : Nat} {s : NewAccounts}, s.Good crypto id n →
      n + clientList.length * k ≤ total →
      (clientList.foldl (fun s client => FlowGen.newClient crypto id client k s) s).Good crypto id
          (n + clientList.length * k) ∧
        ∀ other,
          (clientList.foldl
            (fun s client => FlowGen.newClient crypto id client k s) s).count other =
            s.count other + clientList.count other * k := by
  induction clientList with
  | nil => exact fun h _ => ⟨by simpa using h, fun other => by simp⟩
  | cons client clientList ih =>
    intro n s h hn
    rw [List.length_cons, Nat.add_mul, Nat.one_mul] at hn
    obtain ⟨hclient, hcount⟩ := h.newClient hkeys client k (by omega)
    obtain ⟨hrest, hcounts⟩ := ih hclient (by omega)
    refine ⟨?_, fun other => ?_⟩
    · rw [List.length_cons, Nat.add_mul, Nat.one_mul, Nat.add_comm _ k, ← Nat.add_assoc]
      exact hrest
    · rw [List.foldl_cons, hcounts, hcount, List.count_cons, Nat.add_mul]
      by_cases hother : other = client
      · subst hother
        simp only [if_true, beq_self_eq_true]
        omega
      · rw [if_neg hother, if_neg (by simpa using Ne.symm hother)]
        omega

/-- The accounts and the queues that `BitcoinFlowGen::new` makes. -/
theorem bitcoin_new {clientList : List ClientId} {numAccounts : Nat}
    (hkeys : DistinctKeys crypto id (clientList.length * accountsPerNode clientList numAccounts))
    (maxInflight frequency : Nat) {g : BitcoinFlowGen}
    (hg : g = .new id clientList numAccounts maxInflight frequency crypto) :
    Keyed crypto id (clientList.length * accountsPerNode clientList numAccounts) g.accounts ∧
      (∀ client, g.utxos client = (g.accounts client).map emptyQueues) ∧
      ∀ client, ((g.accounts client).getD []).length =
        clientList.count client * accountsPerNode clientList numAccounts := by
  subst hg
  have hempty : NewAccounts.Good crypto id 0 ⟨0, fun _ => none, fun _ => none⟩ :=
    ⟨rfl, keyed_none crypto id, fun _ => rfl⟩
  obtain ⟨hgood, hcount⟩ := hempty.newClients hkeys (accountsPerNode clientList numAccounts)
    clientList (by rw [Nat.zero_add])
  rw [Nat.zero_add] at hgood
  exact ⟨hgood.keyed, hgood.queues, fun client => (hcount client).trans (Nat.zero_add _)⟩

/-! ## Avalanche -/

/-- The numbers of the accounts of a client follow each other. -/
theorem localAccounts_eq (crypto : CryptoScheme) (id : UInt64) (k : Nat) : ∀ n : Nat,
    localAccounts crypto id k (.ofNat n) =
      ((List.range' n k).map (keyPairOf crypto id), .ofNat (n + k)) := by
  induction k with
  | zero => exact fun n => rfl
  | succ k ih =>
    intro n
    have hnext : UInt64.ofNat n + 1 = .ofNat (n + 1) := by
      rw [UInt64.ofNat_add]
      rfl
    rw [localAccounts, hnext, ih, List.range'_succ, List.map_cons, Nat.add_right_comm n 1 k]
    rfl

/-- What holds of the clients made so far, each with `k` accounts. -/
structure NewClients.Good (crypto : CryptoScheme) (id : UInt64) (k n : Nat)
    (done : List ClientId) (s : NewClients) : Prop where
  number : s.i = .ofNat n
  keyed : Keyed crypto id n s.accounts
  made : ∀ client ∈ done, ∃ l, s.accounts client = some l ∧ l.length = k
  rest : ∀ client, client ∉ done → s.accounts client = none
  queues : ∀ client, s.utxos client = (s.accounts client).map fun _ => []

theorem NewClients.Good.addClient {s : NewClients} {k : Nat} {done : List ClientId}
    (h : s.Good crypto id k n done) (hkeys : DistinctKeys crypto id total) (hn : n + k ≤ total)
    (client : ClientId) :
    (FlowGen.addClient crypto id k s client).Good crypto id k (n + k) (done ++ [client]) := by
  have hlocal : localAccounts crypto id k s.i = _ :=
    (congrArg _ h.number).trans (localAccounts_eq crypto id k n)
  unfold FlowGen.addClient
  rw [hlocal]
  refine ⟨rfl, ?_, fun other hother => ?_, fun other hother => ?_, fun other => ?_⟩
  · refine h.keyed.update hkeys (Nat.le_add_right n k) hn (fun a ha => ?_) ?_
    · obtain ⟨i, hi, rfl⟩ := List.mem_map.mp ha
      obtain ⟨hni, hik⟩ := List.mem_range'_1.mp hi
      exact Or.inr ⟨i, hni, hik, rfl⟩
    · rw [List.map_map]
      refine List.Nodup.map_on (fun i hi j hj he => ?_) List.nodup_range'
      have hik := (List.mem_range'_1.mp hi).2
      have hjk := (List.mem_range'_1.mp hj).2
      exact hkeys i (by omega) j (by omega) he
  · show ∃ l, Function.update s.accounts client _ other = some l ∧ _
    by_cases he : other = client
    · subst he
      exact ⟨_, Function.update_self .., by simp⟩
    · rw [Function.update_of_ne he]
      refine h.made other ?_
      simpa [he] using hother
  · show Function.update s.accounts client _ other = none
    rw [List.mem_append, List.mem_singleton, not_or] at hother
    rw [Function.update_of_ne hother.2]
    exact h.rest other hother.1
  · show Function.update s.utxos client _ other = (Function.update s.accounts client _ other).map _
    by_cases he : other = client
    · subst he
      rw [Function.update_self, Function.update_self, h.queues]
      cases s.accounts other with
      | none => rfl
      | some l => rfl
    · rw [Function.update_of_ne he, Function.update_of_ne he]
      exact h.queues other

theorem NewClients.Good.addClients {k : Nat} (hkeys : DistinctKeys crypto id total)
    (clientList : List ClientId) : ∀ {n : Nat} {done : List ClientId} {s : NewClients},
      s.Good crypto id k n done → n + clientList.length * k ≤ total →
      (clientList.foldl (FlowGen.addClient crypto id k) s).Good crypto id k
        (n + clientList.length * k) (done ++ clientList) := by
  induction clientList with
  | nil => exact fun h _ => by simpa using h
  | cons client clientList ih =>
    intro n done s h hn
    rw [List.length_cons, Nat.add_mul, Nat.one_mul] at hn ⊢
    have hrest := ih (h.addClient hkeys (by omega) client) (by omega)
    rw [List.append_assoc] at hrest
    rw [Nat.add_comm _ k, ← Nat.add_assoc]
    exact hrest

/-- `AvalancheFlowGen::new` returns where every client gets two accounts. -/
theorem avalanche_new {clientList : List ClientId} {numAccounts maxInflight frequency : Nat}
    {conflictRate : ℚ} {g : AvalancheFlowGen}
    (hg : AvalancheFlowGen.new id clientList numAccounts maxInflight frequency conflictRate crypto =
      .ok g)
    (hkeys : DistinctKeys crypto id (clientList.length * accountsPerNode clientList numAccounts)) :
    Keyed crypto id (clientList.length * accountsPerNode clientList numAccounts) g.accounts ∧
      (∀ client ∈ clientList, ∃ l, g.accounts client = some l ∧
        l.length = accountsPerNode clientList numAccounts) ∧
      (∀ client, client ∉ clientList → g.accounts client = none) ∧
      ∀ client, g.utxos client = (g.accounts client).map fun _ => [] := by
  unfold AvalancheFlowGen.new at hg
  dsimp only at hg
  split at hg
  · rw [← Except.ok.inj hg]
    have hempty : NewClients.Good crypto id (accountsPerNode clientList numAccounts) 0 []
        ⟨0, fun _ => none, fun _ => none⟩ :=
      ⟨rfl, keyed_none crypto id, fun _ h => absurd h List.not_mem_nil, fun _ _ => rfl,
        fun _ => rfl⟩
    have hgood := hempty.addClients hkeys clientList (by rw [Nat.zero_add])
    rw [Nat.zero_add, List.nil_append] at hgood
    exact ⟨hgood.keyed, hgood.made, hgood.rest, hgood.queues⟩
  · exact absurd hg (by simp)

end New

end Copycat.FlowGen
