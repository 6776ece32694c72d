import Copycat.Avalanche.TxnValidation
import Copycat.Bitcoin.Runs
import Copycat.Bitcoin.TxnValidation

/-!
# Sequences of batches

`TxnValidation::validate` on one batch after the other, for the two chains. A
transaction may come before its parents, in any batch, and more than once; it
waits in `pending_txns` then, is moved from entry to entry as its parents
arrive, and the maps are iterated in any order.

None of this shows in the pool: its keys are the least set with every `Grant`
that was delivered, and every `Send` that was and whose inputs are in the set
and pay for it (`validation_confluent`). The law behind it is
`Admission.Law.keys_least`, carried from batch to batch by `BatchInv`.
-/

namespace Copycat

open Copycat.Lib

variable {τ : Type}

/-- A call of `validate`: the batch, and how the maps happen to be iterated. -/
structure Batch (τ : Type) where
  ord : EntryOrder τ
  txns : List (NodeId × τ)

/-- `validate`, as the two chains have it. -/
abbrev Validate (τ : Type) :=
  EntryOrder τ → Nat → Validator τ → List (NodeId × τ) → Res (Validator τ × List (NodeId × τ))

/-- One batch after the other; what is returned is put in one list. -/
def runFrom (validate : Validate τ) (fuel : Nat) (s : Validator τ × List (NodeId × τ))
    (batches : List (Batch τ)) : Res (Validator τ × List (NodeId × τ)) :=
  batches.foldlM
    (fun acc b => validate b.ord fuel acc.1 b.txns >>= fun r => .ok (r.1, acc.2 ++ r.2)) s

/-- The batches, from the fresh stage. -/
def runBatches (validate : Validate τ) (fuel : Nat) (batches : List (Batch τ)) :
    Res (Validator τ × List (NodeId × τ)) :=
  runFrom validate fuel (.new, []) batches

/-- The transactions the batches deliver. -/
def inBatches (batches : List (Batch τ)) : Set τ :=
  fun t => ∃ b ∈ batches, t ∈ b.txns.map Prod.snd

/-- How many deliveries there are. -/
def deliveries (batches : List (Batch τ)) : Nat :=
  (batches.map fun b => b.txns.length).sum

/-- The key set of `txn_pool`. -/
def Validator.keys (s : Validator τ) : Set Hash :=
  fun h => (s.txnPool h).isSome

/-- The last batch comes on top of what the others have made. -/
theorem runFrom_snoc (validate : Validate τ) (fuel : Nat) (s : Validator τ × List (NodeId × τ))
    (batches : List (Batch τ)) (b : Batch τ) :
    runFrom validate fuel s (batches ++ [b]) = runFrom validate fuel s batches >>= fun acc =>
      validate b.ord fuel acc.1 b.txns >>= fun r => .ok (r.1, acc.2 ++ r.2) := by
  unfold runFrom
  rw [List.foldlM_append]
  refine congrArg _ (funext fun acc => ?_)
  rw [List.foldlM_cons]
  exact bind_pure _

theorem not_mem_inBatches_nil (t : τ) : ¬ t ∈ inBatches ([] : List (Batch τ)) := by
  intro h
  obtain ⟨b, hb, -⟩ := h
  exact absurd hb (by simp)

theorem mem_inBatches_cons {b : Batch τ} {batches : List (Batch τ)} {t : τ} :
    t ∈ inBatches (b :: batches) ↔ t ∈ b.txns.map Prod.snd ∨ t ∈ inBatches batches := by
  show (∃ b' ∈ b :: batches, t ∈ b'.txns.map Prod.snd) ↔
    _ ∨ ∃ b' ∈ batches, t ∈ b'.txns.map Prod.snd
  simp only [List.mem_cons, or_and_right, exists_or, exists_eq_left]

theorem mem_inBatches_snoc {batches : List (Batch τ)} {b : Batch τ} {t : τ} :
    t ∈ inBatches (batches ++ [b]) ↔ t ∈ inBatches batches ∨ t ∈ b.txns.map Prod.snd := by
  show (∃ b' ∈ batches ++ [b], t ∈ b'.txns.map Prod.snd) ↔
    (∃ b' ∈ batches, t ∈ b'.txns.map Prod.snd) ∨ _
  simp only [List.mem_append, List.mem_singleton, or_and_right, exists_or, exists_eq_left]

/-! ## The law of a run -/

variable {kind : TxnKind τ} {fuel : Nat} {batches : List (Batch τ)}
  {r : Validator τ × List (NodeId × τ)}

/-- What holds after the batches: where every delivered transaction is, that the
pool holds what was returned, in order, and that it holds nothing that waits. -/
structure BatchInv (kind : TxnKind τ) (batches : List (Batch τ))
    (r : Validator τ × List (NodeId × τ)) : Prop where
  filed : Validator.Filed kind r.1
  law : Admission.Law kind.items (inBatches batches) [] (r.1.admission kind)
  out : ∀ t, t ∈ (r.1.admission kind).admitted ↔ t ∈ r.2.map Prod.snd
  ordered : Admission.Ordered kind.items (.empty Hash τ) (r.2.map Prod.snd)
  tight : Admission.Tight kind.items (r.1.admission kind)

/-- The fresh stage has admitted nothing, and nothing waits. -/
theorem admission_new (kind : TxnKind τ) :
    (Validator.new : Validator τ).admission kind = .empty Hash τ := by
  refine Admission.eq_of_mem (fun t => ?_) fun d t => ?_
  · show (none = some t) ↔ False
    simp
  · refine ⟨fun h => ?_, False.elim⟩
    obtain ⟨l, hl, -⟩ := h
    exact absurd hl (by simp [Validator.new])

/-- Before the first batch. -/
theorem batchInv_new (kind : TxnKind τ) : BatchInv kind [] (Validator.new, []) := by
  have hnone : inBatches ([] : List (Batch τ)) = ∅ :=
    Set.ext fun t => iff_of_false (not_mem_inBatches_nil t) id
  refine ⟨Validator.filed_new kind, ?_, fun t => ?_, Admission.ordered_nil _ _, ?_⟩
  · rw [hnone, admission_new]
    exact Admission.law_empty _
  · rw [admission_new]
    show False ↔ _
    simp
  · rw [admission_new]
    exact Admission.tight_empty _

/-- A batch that returns keeps what holds: what it admits comes behind what was
returned before. -/
theorem BatchInv.snoc (h : BatchInv kind batches r) {b : Batch τ}
    {r' : Validator τ × List (NodeId × τ)}
    (hr : Validator.validate kind b.ord fuel r.1 b.txns = .ok r') :
    BatchInv kind (batches ++ [b]) (r'.1, r.2 ++ r'.2) := by
  obtain ⟨hfiled, hworks⟩ := Validator.validate_works h.filed hr
  obtain ⟨hlaw, hout⟩ := hworks.law (h.law.deliver (b.txns.map Prod.snd))
  have hdelivered : inBatches (batches ++ [b]) =
      fun t => t ∈ inBatches batches ∨ t ∈ b.txns.map Prod.snd :=
    Set.ext fun t => mem_inBatches_snoc
  refine ⟨hfiled, hdelivered ▸ hlaw, fun t => ?_, ?_, hworks.tight h.tight⟩
  · rw [hout, h.out, List.map_append, List.mem_append]
  · rw [List.map_append]
    refine h.ordered.append hworks.ordered fun t => ?_
    rw [h.out]
    exact (or_iff_right fun hin => hin.elim).symm

/-- It holds after any batches. -/
theorem runBatches_inv (h : runBatches (Validator.validate kind) fuel batches = .ok r) :
    BatchInv kind batches r := by
  induction batches using List.reverseRecOn generalizing r with
  | nil =>
    rw [← Except.ok.inj h]
    exact batchInv_new kind
  | append_singleton batches b ih =>
    unfold runBatches at h ih
    rw [runFrom_snoc] at h
    obtain ⟨acc, hacc, h⟩ := bind_eq_ok.mp h
    obtain ⟨r', hr', h⟩ := bind_eq_ok.mp h
    rw [← Except.ok.inj h]
    exact (ih hacc).snoc hr'

/-- A run that is given only what clients make returns. -/
theorem runBatches_returns {P : τ → Prop}
    (hcheck : ∀ t parents, P t → (∀ p ∈ parents, P p) → ∃ b, kind.check t parents = .ok b)
    (hclient : ∀ t ∈ inBatches batches, P t) (hfuel : deliveries batches < fuel) :
    ∃ r, runBatches (Validator.validate kind) fuel batches = .ok r := by
  classical
  have hkeys : ∃ keys : Finset Hash, keys.card < fuel ∧
      ∀ t ∈ inBatches batches, kind.txnId t ∈ keys := by
    refine ⟨((batches.flatMap fun b => b.txns).map fun x => kind.txnId x.2).toFinset,
      Nat.lt_of_le_of_lt (List.toFinset_card_le _) ?_, fun t ht => ?_⟩
    · rwa [List.length_map, List.length_flatMap]
    · obtain ⟨b, hb, ht⟩ := ht
      obtain ⟨x, hx, rfl⟩ := List.mem_map.mp ht
      exact List.mem_toFinset.mpr (List.mem_map.mpr ⟨x, List.mem_flatMap.mpr ⟨b, hb, hx⟩, rfl⟩)
  obtain ⟨keys, hcard, hkeys⟩ := hkeys
  have hfew : ∀ s : Validator τ, Validator.missing keys s < fuel :=
    fun s => Nat.lt_of_le_of_lt (Finset.card_filter_le _ _) hcard
  obtain ⟨r, hr, -⟩ := foldlM_returns
    (f := fun (acc : Validator τ × List (NodeId × τ)) (b : Batch τ) =>
      Validator.validate kind b.ord fuel acc.1 b.txns >>= fun r => .ok (r.1, acc.2 ++ r.2))
    (fun acc => Validator.Within kind P keys acc.1) (l := batches) (b := (.new, []))
    (fun acc b hb hacc => by
      obtain ⟨r, hr, hw⟩ := Validator.validate_returns b.ord hcheck b.txns hacc
        (fun x hx => by
          have hin : x.2 ∈ inBatches batches := ⟨b, hb, List.mem_map.mpr ⟨x, hx, rfl⟩⟩
          exact ⟨hclient _ hin, hkeys _ hin⟩) (hfew acc.1)
      exact ⟨_, bind_eq_ok.mpr ⟨r, hr, rfl⟩, hw⟩)
    (Validator.within_new P keys)
  exact ⟨r, hr⟩

/-- The pool is the least set that is closed under what was delivered. -/
theorem BatchInv.keys_least (h : BatchInv kind batches r) :
    IsLeast {K | Admission.Closed kind.items (inBatches batches) K} r.1.keys := by
  have hkeys : r.1.keys = {k | (r.1.admission kind).Has kind.items k} :=
    Set.ext fun k => (h.filed.has_iff k).symm
  rw [hkeys]
  exact h.law.keys_least

/-! ## The pool of the two chains -/

/-- Both sequences of batches return with the same keys in the pool, and these
are the least set that is `Closed`. -/
def SamePool (validate : Validate τ) (Closed : Set τ → Set Hash → Prop)
    (one two : List (Batch τ)) : Prop :=
  ∀ fuel₁ fuel₂, deliveries one < fuel₁ → deliveries two < fuel₂ →
    ∃ r₁ r₂, runBatches validate fuel₁ one = .ok r₁ ∧ runBatches validate fuel₂ two = .ok r₂ ∧
      r₁.1.keys = r₂.1.keys ∧ IsLeast {K | Closed (inBatches one) K} r₁.1.keys

/-- The same deliveries make the same pool, for every chain whose check returns
on what clients make. -/
theorem samePool {P : τ → Prop} {Closed : Set τ → Set Hash → Prop} {one two : List (Batch τ)}
    (hcheck : ∀ t parents, P t → (∀ p ∈ parents, P p) → ∃ b, kind.check t parents = .ok b)
    (hclient : ∀ t ∈ inBatches one, P t) (hsame : inBatches one = inBatches two)
    (hclosed : ∀ K, Closed (inBatches one) K ↔
      Admission.Closed kind.items (inBatches one) K) :
    SamePool (Validator.validate kind) Closed one two := by
  intro fuel₁ fuel₂ hfuel₁ hfuel₂
  obtain ⟨r₁, hr₁⟩ := runBatches_returns hcheck hclient hfuel₁
  obtain ⟨r₂, hr₂⟩ := runBatches_returns hcheck (hsame ▸ hclient) hfuel₂
  have hleast₁ := (runBatches_inv hr₁).keys_least
  have hleast₂ := (runBatches_inv hr₂).keys_least
  refine ⟨r₁, r₂, hr₁, hr₂, ?_, ?_⟩
  · rw [hsame] at hleast₁
    exact hleast₁.unique hleast₂
  · simpa only [hclosed] using hleast₁

/-- The hashes that are in once the transactions of `D` have been delivered:
every `Grant`, and every `Send` whose inputs are in and pay for it. -/
structure Bitcoin.Closed (ids : IdScheme) (D : Set BitcoinTxn) (K : Set Hash) : Prop where
  grant : ∀ outUtxo receiver, .grant outUtxo receiver ∈ D → ids.txnId (.grant outUtxo receiver) ∈ K
  send : ∀ t parents, .send t ∈ D → (∀ h ∈ t.inUtxo, h ∈ K) →
    parents.map ids.txnId = t.inUtxo →
    TxnValidation.parentsValue t.sender parents 0 = some (t.outUtxo + t.remainder) →
    ids.txnId (.send t) ∈ K

/-- The same of the transactions of Avalanche. -/
structure Avalanche.Closed (ids : UniqueIds) (D : Set AvalancheTxn) (K : Set Hash) : Prop where
  grant : ∀ outUtxo receiver nonce, .grant outUtxo receiver nonce ∈ D →
    ids.txnId (.grant outUtxo receiver nonce) ∈ K
  send : ∀ sender inUtxo receiver outUtxo remainder signature parents,
    .send sender inUtxo receiver outUtxo remainder signature ∈ D → (∀ h ∈ inUtxo, h ∈ K) →
    parents.map ids.txnId = inUtxo →
    AvalancheTxn.parentsValue sender parents 0 = .ok (some (outUtxo + remainder)) →
    ids.txnId (.send sender inUtxo receiver outUtxo remainder signature) ∈ K

/-- On what clients make, this is closure in the terms of the generic procedure. -/
theorem Bitcoin.closed_iff (ids : IdScheme) {D : Set BitcoinTxn}
    (hclient : ∀ t ∈ D, t.isIncentive = false) (K : Set Hash) :
    Bitcoin.Closed ids D K ↔ Admission.Closed (bitcoinKind ids).items D K := by
  constructor
  · intro h t ht hdeps hgood
    cases t with
    | send t =>
      obtain ⟨parents, hids, hcheck⟩ := hgood
      exact h.send t parents ht hdeps hids (by simpa [bitcoinKind] using hcheck)
    | grant outUtxo receiver => exact h.grant outUtxo receiver ht
    | incentive outUtxo receiver => exact absurd (hclient _ ht) (by simp [BitcoinTxn.isIncentive])
  · intro h
    refine ⟨fun outUtxo receiver ht => ?_, fun t parents ht hdeps hids hcheck => ?_⟩
    · exact h _ ht (fun d hd => absurd hd (by simp [TxnKind.items, bitcoinKind])) ⟨[], rfl, rfl⟩
    · exact h _ ht hdeps ⟨parents, hids, by simpa [bitcoinKind] using hcheck⟩

/-- The same for Avalanche. -/
theorem Avalanche.closed_iff (ids : UniqueIds) {D : Set AvalancheTxn}
    (hclient : ∀ t ∈ D, t.fromClient) (K : Set Hash) :
    Avalanche.Closed ids D K ↔ Admission.Closed (avalancheKind ids).items D K := by
  constructor
  · intro h t ht hdeps hgood
    cases t with
    | send sender inUtxo receiver outUtxo remainder signature =>
      obtain ⟨parents, hids, hcheck⟩ := hgood
      obtain ⟨value, hvalue, hcheck⟩ := bind_eq_ok.mp hcheck
      refine h.send _ _ _ _ _ _ parents ht hdeps hids ?_
      rw [hvalue, of_decide_eq_true (Except.ok.inj hcheck)]
    | grant outUtxo receiver nonce => exact h.grant outUtxo receiver nonce ht
    | noop => exact absurd (hclient _ ht) (by simp [AvalancheTxn.fromClient])
    | placeHolder => exact absurd (hclient _ ht) (by simp [AvalancheTxn.fromClient])
  · intro h
    refine ⟨fun outUtxo receiver nonce ht => ?_,
      fun sender inUtxo receiver outUtxo remainder signature parents ht hdeps hids hcheck => ?_⟩
    · exact h _ ht (fun d hd => absurd hd (by simp [TxnKind.items, avalancheKind])) ⟨[], rfl, rfl⟩
    · exact h _ ht hdeps ⟨parents, hids, bind_eq_ok.mpr ⟨_, hcheck, by simp⟩⟩

/-- The stage of a Bitcoin node is the shared procedure. -/
theorem Bitcoin.TxnValidation.validate_shared (ids : IdScheme) :
    TxnValidation.validate ids = Validator.validate (bitcoinKind ids) := by
  funext ord fuel s batch
  exact validate_eq ord fuel s batch

/-- **Transaction validation is confluent**: what is in the pool depends on the
set of transactions delivered, not on their order, the batches they come in, or
how often they come. -/
theorem validation_confluent (ids : IdScheme) (ids' : Avalanche.UniqueIds)
    {one two : List (Batch BitcoinTxn)} {one' two' : List (Batch Avalanche.AvalancheTxn)}
    (hclient : ∀ t ∈ inBatches one, t.isIncentive = false)
    (hclient' : ∀ t ∈ inBatches one', t.fromClient)
    (hsame : inBatches one = inBatches two) (hsame' : inBatches one' = inBatches two') :
    SamePool (Bitcoin.TxnValidation.validate ids) (Bitcoin.Closed ids) one two ∧
    SamePool (Avalanche.TxnValidation.validate ids') (Avalanche.Closed ids') one' two' := by
  constructor
  · rw [Bitcoin.TxnValidation.validate_shared]
    exact samePool (fun t parents ht _ => Bitcoin.check_returns ids t parents ht) hclient hsame
      (Bitcoin.closed_iff ids hclient)
  · exact samePool (Avalanche.check_returns ids') hclient' hsame'
      (Avalanche.closed_iff ids' hclient')

open Bitcoin (demo demoGrant demoPay)

/-- A grant of `AvalancheTxn`. -/
def Avalanche.sampleGrant : AvalancheTxn := .grant 10 [1] 0

/-- A transaction that spends it. -/
def Avalanche.samplePay : AvalancheTxn := .send [1] [codeTxn sampleGrant] [2] 4 6 []

/-- A payment after its parent, and before it and twice. -/
theorem validation_confluent_demo :
    SamePool (Bitcoin.TxnValidation.validate demo.ids) (Bitcoin.Closed demo.ids)
      [⟨.inserted _, [(0, demoGrant)]⟩, ⟨.inserted _, [(0, demoPay)]⟩]
      [⟨.inserted _, [(1, demoPay), (2, demoPay), (3, demoGrant)]⟩] ∧
    SamePool (Avalanche.TxnValidation.validate .coded) (Avalanche.Closed .coded)
      [⟨.inserted _, [(0, Avalanche.sampleGrant)]⟩, ⟨.inserted _, [(0, Avalanche.samplePay)]⟩]
      [⟨.inserted _, [(1, Avalanche.samplePay), (2, Avalanche.samplePay),
        (3, Avalanche.sampleGrant)]⟩] := by
  have hmem : ∀ {τ : Type} (g p t : τ),
      t ∈ inBatches [⟨.inserted τ, [(0, g)]⟩, ⟨.inserted τ, [(0, p)]⟩] ↔ t = g ∨ t = p := by
    intro τ g p t
    simp [mem_inBatches_cons, not_mem_inBatches_nil]
  have hsame : ∀ {τ : Type} (g p : τ),
      inBatches [⟨.inserted τ, [(0, g)]⟩, ⟨.inserted τ, [(0, p)]⟩] =
        inBatches [⟨.inserted τ, [(1, p), (2, p), (3, g)]⟩] := by
    refine fun g p => Set.ext fun t => (hmem g p t).trans ?_
    rw [mem_inBatches_cons, or_iff_left (not_mem_inBatches_nil t)]
    simp only [List.map_cons, List.map_nil, List.mem_cons, List.not_mem_nil, or_false]
    tauto
  refine validation_confluent demo.ids .coded (fun t ht => ?_) (fun t ht => ?_) (hsame _ _)
    (hsame _ _)
  · rcases (hmem _ _ t).mp ht with rfl | rfl
    · rfl
    · rfl
  · rcases (hmem _ _ t).mp ht with rfl | rfl
    · rfl
    · rfl

end Copycat
