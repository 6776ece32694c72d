import Copycat.Bitcoin.Paths

/-!
# Replaying a chain

What the UTXO set is for: the outputs that exist after the transactions of a
chain have been applied in order, each one consuming outputs that are there
and then creating its own. `replay` is that reading, from scratch and with no
deltas; it fails as soon as a transaction consumes an output that is missing.

A replay of a chain without repeated ids never consumes an output twice
(`consumed_nodup_of_replay`): a consumed output is gone, and the only
transaction that could make it again is already on the chain.
-/

namespace Copycat.Bitcoin

variable {ids : IdScheme}

/-- The transactions of a chain, oldest first. -/
def chainTxns (p : List Block) : List BitcoinTxn := p.flatMap Block.txns

/-- The ids of a list of transactions. -/
def txnIds (ids : IdScheme) (txns : List BitcoinTxn) : List Hash := txns.map ids.txnId

/-- The outputs a list of transactions consumes, in order. -/
def consumed (txns : List BitcoinTxn) : List Utxo := txns.flatMap BitcoinTxn.inputs

/-- Consume outputs one after the other, each of which must be there. -/
def spend (S : Finset Utxo) (ks : List Utxo) : Option (Finset Utxo) :=
  ks.foldlM (fun S k => if k ∈ S then some (S.erase k) else none) S

/-- Apply one transaction: consume its inputs, then create its outputs. -/
def replayTxn (ids : IdScheme) (S : Finset Utxo) (txn : BitcoinTxn) : Option (Finset Utxo) :=
  (spend S txn.inputs).map fun S' => S' ∪ (txn.outputs (ids.txnId txn)).toFinset

/-- Apply a list of transactions in order. -/
def replay (ids : IdScheme) (S : Finset Utxo) (txns : List BitcoinTxn) : Option (Finset Utxo) :=
  txns.foldlM (replayTxn ids) S

@[simp] theorem chainTxns_nil : chainTxns [] = [] := rfl

@[simp] theorem chainTxns_append (p q : List Block) :
    chainTxns (p ++ q) = chainTxns p ++ chainTxns q := List.flatMap_append

@[simp] theorem chainTxns_singleton (b : Block) : chainTxns [b] = b.txns := by
  simp [chainTxns]

@[simp] theorem txnIds_append (xs ys : List BitcoinTxn) :
    txnIds ids (xs ++ ys) = txnIds ids xs ++ txnIds ids ys := List.map_append

theorem mem_txnIds {txns : List BitcoinTxn} {t : BitcoinTxn} :
    ids.txnId t ∈ txnIds ids txns ↔ t ∈ txns := by
  unfold txnIds
  rw [List.mem_map]
  constructor
  · intro h
    obtain ⟨t', ht', he⟩ := h
    exact ids.txnId_inj he ▸ ht'
  · intro h
    exact ⟨t, h, rfl⟩

/-- Spending succeeds where the inputs are different and unspent, and takes
exactly these out. -/
theorem spend_eq_some {ks : List Utxo} : ∀ {S S' : Finset Utxo},
    spend S ks = some S' ↔ ks.Nodup ∧ (∀ k ∈ ks, k ∈ S) ∧ S' = S \ ks.toFinset := by
  induction ks with
  | nil =>
    intro S S'
    simp [spend, eq_comm]
  | cons k ks ih =>
    intro S S'
    by_cases hk : k ∈ S
    · have hcons : spend S (k :: ks) = spend (S.erase k) ks := by
        unfold spend
        rw [List.foldlM_cons, if_pos hk]
        rfl
      have hset : S \ (k :: ks).toFinset = S.erase k \ ks.toFinset := by
        ext j
        simp only [Finset.mem_sdiff, List.mem_toFinset, List.mem_cons, Finset.mem_erase]
        tauto
      rw [hcons, ih, hset, List.nodup_cons]
      constructor
      · intro h
        obtain ⟨hnd, hmem, he⟩ := h
        refine ⟨⟨fun hkk => absurd (hmem k hkk) (by simp), hnd⟩, ?_, he⟩
        intro j hj
        rcases List.mem_cons.mp hj with rfl | hj'
        · exact hk
        · exact Finset.mem_of_mem_erase (hmem j hj')
      · intro h
        obtain ⟨⟨hkk, hnd⟩, hmem, he⟩ := h
        refine ⟨hnd, fun j hj => ?_, he⟩
        exact Finset.mem_erase.mpr ⟨fun e => hkk (e ▸ hj), hmem j (List.mem_cons_of_mem _ hj)⟩
    · have hnone : spend S (k :: ks) = none := by
        unfold spend
        rw [List.foldlM_cons, if_neg hk]
        rfl
      rw [hnone]
      constructor
      · intro h
        exact absurd h (by simp)
      · intro h
        exact absurd (h.2.1 k (List.mem_cons_self ..)) hk

/-- A transaction can be applied iff its inputs are distinct and all there. -/
theorem replayTxn_eq_some {S S' : Finset Utxo} {txn : BitcoinTxn} :
    replayTxn ids S txn = some S' ↔
      txn.inputs.Nodup ∧ (∀ k ∈ txn.inputs, k ∈ S) ∧
        S' = S \ txn.inputs.toFinset ∪ (txn.outputs (ids.txnId txn)).toFinset := by
  unfold replayTxn
  rw [Option.map_eq_some_iff]
  constructor
  · intro h
    obtain ⟨T, hT, he⟩ := h
    obtain ⟨hnd, hmem, rfl⟩ := spend_eq_some.mp hT
    exact ⟨hnd, hmem, he.symm⟩
  · intro h
    obtain ⟨hnd, hmem, he⟩ := h
    exact ⟨_, spend_eq_some.mpr ⟨hnd, hmem, rfl⟩, he.symm⟩

/-- A longer chain is replayed from where the shorter one ends. -/
theorem replay_append {S : Finset Utxo} {xs ys : List BitcoinTxn} :
    replay ids S (xs ++ ys) = (replay ids S xs).bind fun S' => replay ids S' ys :=
  List.foldlM_append

theorem replay_append_eq_some {S S' : Finset Utxo} {xs ys : List BitcoinTxn} :
    replay ids S (xs ++ ys) = some S' ↔
      ∃ T, replay ids S xs = some T ∧ replay ids T ys = some S' := by
  rw [replay_append]
  exact Option.bind_eq_some_iff

theorem replay_singleton {S : Finset Utxo} {txn : BitcoinTxn} :
    replay ids S [txn] = replayTxn ids S txn := by
  unfold replay
  rw [List.foldlM_cons]
  cases replayTxn ids S txn <;> rfl

theorem replay_cons_eq_some {S S' : Finset Utxo} {txn : BitcoinTxn} {txns : List BitcoinTxn} :
    replay ids S (txn :: txns) = some S' ↔
      ∃ T, replayTxn ids S txn = some T ∧ replay ids T txns = some S' := by
  rw [show txn :: txns = [txn] ++ txns from rfl, replay_append_eq_some, replay_singleton]

/-- What is there after a replay was there before or made by it. -/
theorem made_of_replay {txns : List BitcoinTxn} : ∀ {S S' : Finset Utxo},
    replay ids S txns = some S' → ∀ k ∈ S', k ∈ S ∨ k.1 ∈ txnIds ids txns := by
  induction txns with
  | nil =>
    intro S S' h k hk
    have : S = S' := Option.some.inj h
    exact Or.inl (this ▸ hk)
  | cons t txns ih =>
    intro S S' h k hk
    obtain ⟨T, hT, hrest⟩ := replay_cons_eq_some.mp h
    obtain ⟨-, -, rfl⟩ := replayTxn_eq_some.mp hT
    rcases ih hrest k hk with h1 | h1
    · rcases Finset.mem_union.mp h1 with h2 | h2
      · exact Or.inl (Finset.mem_sdiff.mp h2).1
      · right
        rw [BitcoinTxn.outputs_fst (List.mem_toFinset.mp h2)]
        exact List.mem_cons_self ..
    · exact Or.inr (List.mem_cons_of_mem _ h1)

/-- What a replay from nothing consumes is gone afterwards, and was made by
it. -/
theorem consumed_of_replay {txns : List BitcoinTxn} (hnd : (txnIds ids txns).Nodup) :
    ∀ {S : Finset Utxo}, replay ids ∅ txns = some S →
      ∀ k ∈ consumed txns, k ∉ S ∧ k.1 ∈ txnIds ids txns := by
  induction txns using List.reverseRecOn with
  | nil => intro S _ k hk; exact absurd hk (by simp [consumed])
  | append_singleton txns t ih =>
    intro S h k hk
    rw [txnIds_append] at hnd
    obtain ⟨T, hT, ht⟩ := replay_append_eq_some.mp h
    rw [replay_singleton] at ht
    obtain ⟨-, hmem, rfl⟩ := replayTxn_eq_some.mp ht
    have hfresh : ids.txnId t ∉ txnIds ids txns := fun hx =>
      (List.nodup_append.mp hnd).2.2 _ hx _ (by simp [txnIds]) rfl
    have hout : k.1 ∈ txnIds ids txns → k ∉ (t.outputs (ids.txnId t)).toFinset := by
      intro hk1 hko
      rw [BitcoinTxn.outputs_fst (List.mem_toFinset.mp hko)] at hk1
      exact hfresh hk1
    rw [txnIds_append]
    have hsplit : k ∈ consumed txns ∨ k ∈ t.inputs := by simpa [consumed] using hk
    rcases hsplit with hk' | hk'
    · -- consumed before: gone already, and `t` does not make it again
      obtain ⟨h1, h2⟩ := ih (List.nodup_append.mp hnd).1 hT k hk'
      refine ⟨fun hx => ?_, List.mem_append_left _ h2⟩
      rcases Finset.mem_union.mp hx with h3 | h3
      · exact h1 (Finset.mem_sdiff.mp h3).1
      · exact hout h2 h3
    · have h2 : k.1 ∈ txnIds ids txns := by
        rcases made_of_replay hT k (hmem k hk') with h0 | h0
        · exact absurd h0 (by simp)
        · exact h0
      refine ⟨fun hx => ?_, List.mem_append_left _ h2⟩
      rcases Finset.mem_union.mp hx with h3 | h3
      · exact (Finset.mem_sdiff.mp h3).2 (List.mem_toFinset.mpr hk')
      · exact hout h2 h3

/-- A chain without repeated ids that can be replayed consumes no output
twice. -/
theorem consumed_nodup_of_replay {txns : List BitcoinTxn} (hnd : (txnIds ids txns).Nodup) :
    ∀ {S : Finset Utxo}, replay ids ∅ txns = some S → (consumed txns).Nodup := by
  induction txns using List.reverseRecOn with
  | nil => intro S _; exact List.nodup_nil
  | append_singleton txns t ih =>
    intro S h
    rw [txnIds_append] at hnd
    obtain ⟨T, hT, ht⟩ := replay_append_eq_some.mp h
    rw [replay_singleton] at ht
    obtain ⟨hin, hmem, -⟩ := replayTxn_eq_some.mp ht
    have hnd' := (List.nodup_append.mp hnd).1
    have hsplit : consumed (txns ++ [t]) = consumed txns ++ t.inputs := by simp [consumed]
    rw [hsplit]
    refine List.nodup_append.mpr ⟨ih hnd' hT, hin, fun k hk j hj he => ?_⟩
    subst he
    exact (consumed_of_replay hnd' hT k hk).1 (hmem k hj)

end Copycat.Bitcoin
