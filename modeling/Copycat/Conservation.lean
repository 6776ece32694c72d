import Copycat.Batches
import Mathlib.Algebra.BigOperators.Group.Finset.Basic

/-!
# What an accepted transaction pays

`validate_txn` adds the values of the listed inputs and compares with the sum of
the two outputs. It adds in `u64`, which wraps in the release profile, and it
adds an input as often as it is listed. So what is accepted need not be paid for
in full.

When it is, is `Payment.Exact`: the repetitions add up to a multiple of `2^64`
(to nothing, when no input is listed twice), and inputs and outputs wrap as
often as each other (never, when neither sum reaches `2^64`). The condition
reads the delivered transactions and nothing else, and it is the exact one
(`value_conserved`).
-/

namespace Copycat

open Copycat.Lib

variable {τ : Type}

/-- What a `Send` says about money. -/
structure Payment where
  sender : PubKey
  inUtxo : List Hash
  outUtxo : UInt64
  remainder : UInt64

/-- The value that the transaction filed under a hash assigns to `owner`. -/
def valueOf (owned : PubKey → τ → Option UInt64) (find : Hash → Option τ) (owner : PubKey)
    (h : Hash) : Nat :=
  (((find h).bind (owned owner)).getD 0).toNat

namespace Payment

variable (owned : PubKey → τ → Option UInt64) (find : Hash → Option τ) (p : Payment)

/-- What the distinct inputs bring. -/
def paid : Nat := ∑ h ∈ p.inUtxo.toFinset, valueOf owned find p.sender h

/-- What is counted on top of that because an input is listed again. -/
def repeated : Nat :=
  ∑ h ∈ p.inUtxo.toFinset, (p.inUtxo.count h - 1) * valueOf owned find p.sender h

/-- What the outputs cost. -/
def cost : Nat := p.outUtxo.toNat + p.remainder.toNat

/-- The distinct inputs pay for the outputs. -/
def Conserved : Prop := p.paid owned find = p.cost

/-- Listing inputs again brings nothing in `u64`, and both sides of the
comparison wrap equally often. -/
structure Exact : Prop where
  repeated : 2 ^ 64 ∣ p.repeated owned find
  wraps : p.paid owned find / 2 ^ 64 = p.cost / 2 ^ 64

/-- The sum over the list counts every input as often as it stands there. -/
theorem sum_inUtxo : (p.inUtxo.map (valueOf owned find p.sender)).sum =
    p.paid owned find + p.repeated owned find := by
  rw [Finset.sum_list_map_count, paid, repeated, ← Finset.sum_add_distrib]
  refine Finset.sum_congr rfl fun h hh => ?_
  have hpos : 0 < p.inUtxo.count h := List.count_pos_iff.mpr (List.mem_toFinset.mp hh)
  obtain ⟨n, hn⟩ : ∃ n, p.inUtxo.count h = n + 1 := ⟨_, (Nat.succ_pred_eq_of_pos hpos).symm⟩
  rw [hn, Nat.add_sub_cancel, smul_eq_mul, Nat.succ_mul, Nat.add_comm]

/-- A payment that passes the check in `u64` is conserved iff it is exact. -/
theorem conserved_iff (hcheck : (p.inUtxo.map (valueOf owned find p.sender)).sum % 2 ^ 64 =
    p.cost % 2 ^ 64) : p.Conserved owned find ↔ p.Exact owned find := by
  rw [sum_inUtxo] at hcheck
  constructor
  · intro h
    refine ⟨?_, congrArg (· / 2 ^ 64) h⟩
    have hsame : (p.cost + p.repeated owned find) % 2 ^ 64 = p.cost % 2 ^ 64 := h ▸ hcheck
    omega
  · intro h
    obtain ⟨k, hk⟩ := h.repeated
    have hwraps := h.wraps
    rw [hk, Nat.add_mul_mod_self_left] at hcheck
    show p.paid owned find = p.cost
    omega

/-- With distinct inputs, and when neither side reaches `2^64`. -/
theorem exact_of_lt (hnodup : p.inUtxo.Nodup) (hpaid : p.paid owned find < 2 ^ 64)
    (hcost : p.cost < 2 ^ 64) : p.Exact owned find := by
  refine ⟨?_, by rw [Nat.div_eq_of_lt hpaid, Nat.div_eq_of_lt hcost]⟩
  have hzero : p.repeated owned find = 0 := by
    refine Finset.sum_eq_zero fun h hh => ?_
    rw [List.count_eq_one_of_mem hnodup (List.mem_toFinset.mp hh), Nat.sub_self, Nat.zero_mul]
  rw [hzero]
  exact Nat.dvd_zero _

/-- The sums agree on finders that agree on the inputs. -/
theorem paid_congr {find' : Hash → Option τ} (h : ∀ x ∈ p.inUtxo, find x = find' x) :
    p.paid owned find = p.paid owned find' ∧ p.repeated owned find = p.repeated owned find' := by
  have hvalue : ∀ x ∈ p.inUtxo.toFinset,
      valueOf owned find p.sender x = valueOf owned find' p.sender x := by
    intro x hx
    unfold valueOf
    rw [h x (List.mem_toFinset.mp hx)]
  exact ⟨Finset.sum_congr rfl hvalue,
    Finset.sum_congr rfl fun x hx => congrArg (_ * ·) (hvalue x hx)⟩

end Payment

/-! ## The check -/

/-- The loop over the inputs, in `u64`. -/
theorem toNat_foldl_add (values : List UInt64) : ∀ v : UInt64,
    (values.foldl (· + ·) v).toNat = (v.toNat + (values.map UInt64.toNat).sum) % 2 ^ 64 := by
  induction values with
  | nil =>
    intro v
    exact (Nat.mod_eq_of_lt v.toNat_lt).symm
  | cons value values ih =>
    intro v
    rw [List.foldl_cons, ih, UInt64.toNat_add, List.map_cons, List.sum_cons, Nat.mod_add_mod,
      Nat.add_assoc]

/-- A kind of transactions, with what it says about money. -/
structure Coins (τ : Type) extends TxnKind τ where
  payment : τ → Option Payment
  owned : PubKey → τ → Option UInt64
  deps_eq : ∀ {t p}, payment t = some p → deps t = p.inUtxo
  check_adds : ∀ {t p parents}, payment t = some p → check t parents = .ok true →
    ∃ values : List UInt64, parents.map (owned p.sender) = values.map some ∧
      values.foldl (· + ·) 0 = p.outUtxo + p.remainder

/-- The delivered transaction with the given id. -/
def named (txnId : τ → Hash) (batches : List (Batch τ)) (h : Hash) : Option τ :=
  (batches.flatMap fun b => b.txns.map Prod.snd).find? fun t => txnId t = h

/-! ## Accepted payments -/

variable {coins : Coins τ} {fuel : Nat} {batches : List (Batch τ)}
  {r : Validator τ × List (NodeId × τ)}

/-- An accepted payment passed the check on the parents that are in the pool. -/
theorem BatchInv.checked (h : BatchInv coins.toTxnKind batches r) {k : Hash} {t : τ} {p : Payment}
    (ht : r.1.txnPool k = some t) (hp : coins.payment t = some p) :
    (∀ x ∈ p.inUtxo, (r.1.txnPool x).isSome) ∧
      (p.inUtxo.map (valueOf coins.owned r.1.txnPool p.sender)).sum % 2 ^ 64 =
        p.cost % 2 ^ 64 := by
  have hin : t ∈ (r.1.admission coins.toTxnKind).admitted := by
    show r.1.txnPool (coins.txnId t) = some t
    rw [h.filed.pool k t ht, ht]
  have hparents : ∀ x ∈ p.inUtxo, (r.1.txnPool x).isSome := by
    intro x hx
    refine (h.filed.has_iff x).mp (h.tight.admitted t hin x ?_)
    show x ∈ coins.deps t
    rwa [coins.deps_eq hp]
  refine ⟨hparents, ?_⟩
  obtain ⟨parents, hids, hcheck⟩ : coins.items.good t := by
    cases h.law.sound t hin with
    | intro _ _ hgood _ _ => exact hgood
  obtain ⟨values, hvalues, hsum⟩ := coins.check_adds hp hcheck
  -- the parents the check saw are the ones in the pool
  have hpool : p.inUtxo.map r.1.txnPool = parents.map some := by
    rw [← coins.deps_eq hp, ← hids, List.map_map]
    refine List.map_congr_left fun q hq => ?_
    have hq : coins.txnId q ∈ p.inUtxo := by
      rw [← coins.deps_eq hp, ← hids]
      exact List.mem_map_of_mem hq
    obtain ⟨q', hq'⟩ := Option.isSome_iff_exists.mp (hparents _ hq)
    show r.1.txnPool (coins.txnId q) = some q
    rw [hq', coins.txnId_inj (h.filed.pool _ q' hq')]
  have hlist : p.inUtxo.map (valueOf coins.owned r.1.txnPool p.sender) =
      values.map UInt64.toNat := by
    have hfind : valueOf coins.owned r.1.txnPool p.sender =
        (fun o => ((o.bind (coins.owned p.sender)).getD 0).toNat) ∘ r.1.txnPool := rfl
    have hown : (fun o : Option τ => ((o.bind (coins.owned p.sender)).getD 0).toNat) ∘ some =
        (fun o : Option UInt64 => (o.getD 0).toNat) ∘ coins.owned p.sender := rfl
    rw [hfind, ← List.map_map, hpool, List.map_map, hown, ← List.map_map, hvalues, List.map_map]
    rfl
  rw [hlist]
  have hnat := congrArg UInt64.toNat hsum
  rw [toNat_foldl_add, UInt64.toNat_add] at hnat
  simpa [Payment.cost] using hnat

/-- What is in the pool is what was delivered under that id. -/
theorem BatchInv.pool_eq_named (h : BatchInv coins.toTxnKind batches r) {k : Hash}
    (hk : (r.1.txnPool k).isSome) : r.1.txnPool k = named coins.txnId batches k := by
  obtain ⟨t, ht⟩ := Option.isSome_iff_exists.mp hk
  have hid := h.filed.pool k t ht
  have hin : t ∈ (r.1.admission coins.toTxnKind).admitted := by
    show r.1.txnPool (coins.txnId t) = some t
    rw [hid, ht]
  obtain ⟨b, hb, htb⟩ := (h.law.sound t hin).delivered
  have hsome : (named coins.txnId batches k).isSome :=
    List.find?_isSome.mpr ⟨t, List.mem_flatMap.mpr ⟨b, hb, htb⟩, by simpa using hid⟩
  obtain ⟨t', ht'⟩ := Option.isSome_iff_exists.mp hsome
  have hid' : coins.txnId t' = k := by simpa using List.find?_some ht'
  rw [ht, ht', coins.txnId_inj (hid.trans hid'.symm)]

/-- An accepted payment is conserved iff it is exact for what was delivered. -/
theorem BatchInv.conserved_iff (h : BatchInv coins.toTxnKind batches r) {k : Hash} {t : τ}
    {p : Payment} (ht : r.1.txnPool k = some t) (hp : coins.payment t = some p) :
    p.Conserved coins.owned r.1.txnPool ↔
      p.Exact coins.owned (named coins.txnId batches) := by
  obtain ⟨hparents, hcheck⟩ := h.checked ht hp
  obtain ⟨hpaid, hrepeated⟩ :=
    p.paid_congr coins.owned _ fun x hx => h.pool_eq_named (hparents x hx)
  refine (p.conserved_iff coins.owned r.1.txnPool hcheck).trans ⟨fun he => ⟨?_, ?_⟩, fun he =>
    ⟨?_, ?_⟩⟩
  · exact hrepeated ▸ he.repeated
  · exact hpaid ▸ he.wraps
  · exact hrepeated.symm ▸ he.repeated
  · exact hpaid.symm ▸ he.wraps

/-! ## The two chains -/

def BitcoinTxn.payment : BitcoinTxn → Option Payment
  | .send t => some ⟨t.sender, t.inUtxo, t.outUtxo, t.remainder⟩
  | .grant .. | .incentive .. => none

def Avalanche.AvalancheTxn.payment : AvalancheTxn → Option Payment
  | .send sender inUtxo _ outUtxo remainder _ => some ⟨sender, inUtxo, outUtxo, remainder⟩
  | .grant .. | .noop _ | .placeHolder => none

theorem Bitcoin.parentsValue_adds {sender : PubKey} :
    ∀ {parents : List BitcoinTxn} {v w : UInt64},
      TxnValidation.parentsValue sender parents v = some w →
      ∃ values : List UInt64, parents.map (BitcoinTxn.ownedValue sender) = values.map some ∧
        values.foldl (· + ·) v = w := by
  intro parents
  induction parents with
  | nil =>
    intro v w h
    exact ⟨[], rfl, Option.some.inj h⟩
  | cons q parents ih =>
    intro v w h
    rw [TxnValidation.parentsValue] at h
    cases hq : q.ownedValue sender with
    | none =>
      rw [hq] at h
      exact absurd h (by simp)
    | some value =>
      rw [hq] at h
      obtain ⟨values, hvalues, hsum⟩ := ih h
      exact ⟨value :: values, by rw [List.map_cons, hq, hvalues, List.map_cons], hsum⟩

/-- The value a transaction assigns to `owner`; nothing for the kinds that are
never in the pool. -/
def Avalanche.AvalancheTxn.owned (owner : PubKey) (t : AvalancheTxn) : Option UInt64 :=
  match t.ownedValue owner with
  | .ok value => value
  | .error _ => none

theorem Avalanche.parentsValue_adds {sender : PubKey} :
    ∀ {parents : List AvalancheTxn} {v w : UInt64},
      AvalancheTxn.parentsValue sender parents v = .ok (some w) →
      ∃ values : List UInt64, parents.map (AvalancheTxn.owned sender) = values.map some ∧
        values.foldl (· + ·) v = w := by
  intro parents
  induction parents with
  | nil =>
    intro v w h
    exact ⟨[], rfl, Option.some.inj (Except.ok.inj h)⟩
  | cons q parents ih =>
    intro v w h
    obtain ⟨value, hq, h⟩ := bind_eq_ok.mp h
    cases value with
    | none => exact absurd h (by simp)
    | some value =>
      obtain ⟨values, hvalues, hsum⟩ := ih h
      have howned : q.owned sender = some value := by rw [AvalancheTxn.owned, hq]
      exact ⟨value :: values, by rw [List.map_cons, howned, hvalues, List.map_cons], hsum⟩

def bitcoinCoins (ids : IdScheme) : Coins BitcoinTxn where
  toTxnKind := Bitcoin.bitcoinKind ids
  payment := BitcoinTxn.payment
  owned := BitcoinTxn.ownedValue
  deps_eq {t p} h := by
    cases t with
    | send t => rw [← Option.some.inj h]; rfl
    | grant => exact absurd h (by simp [BitcoinTxn.payment])
    | incentive => exact absurd h (by simp [BitcoinTxn.payment])
  check_adds {t p parents} h hcheck := by
    cases t with
    | send t =>
      rw [← Option.some.inj h]
      exact Bitcoin.parentsValue_adds (of_decide_eq_true (Except.ok.inj hcheck))
    | grant => exact absurd h (by simp [BitcoinTxn.payment])
    | incentive => exact absurd h (by simp [BitcoinTxn.payment])

def avalancheCoins (ids : Avalanche.UniqueIds) : Coins Avalanche.AvalancheTxn where
  toTxnKind := Avalanche.avalancheKind ids
  payment := Avalanche.AvalancheTxn.payment
  owned := Avalanche.AvalancheTxn.owned
  deps_eq {t p} h := by
    cases t with
    | send => rw [← Option.some.inj h]; rfl
    | grant => exact absurd h (by simp [Avalanche.AvalancheTxn.payment])
    | noop => exact absurd h (by simp [Avalanche.AvalancheTxn.payment])
    | placeHolder => exact absurd h (by simp [Avalanche.AvalancheTxn.payment])
  check_adds {t p parents} h hcheck := by
    cases t with
    | send =>
      rw [← Option.some.inj h]
      obtain ⟨value, hvalue, hcheck⟩ := bind_eq_ok.mp hcheck
      rw [of_decide_eq_true (Except.ok.inj hcheck)] at hvalue
      exact Avalanche.parentsValue_adds hvalue
    | grant => exact absurd h (by simp [Avalanche.AvalancheTxn.payment])
    | noop => exact absurd h (by simp [Avalanche.AvalancheTxn.payment])
    | placeHolder => exact absurd h (by simp [Avalanche.AvalancheTxn.payment])

/-- The payments of a run: one in the pool is conserved iff it is exact, so all
of them are when every delivered one is exact. -/
structure PaysWhenExact (validate : Validate τ) (coins : Coins τ) : Prop where
  payment : ∀ batches fuel r, runBatches validate fuel batches = .ok r →
    ∀ k t p, r.1.txnPool k = some t → coins.payment t = some p →
      (p.Conserved coins.owned r.1.txnPool ↔ p.Exact coins.owned (named coins.txnId batches))
  run : ∀ batches fuel r, runBatches validate fuel batches = .ok r →
    (∀ t ∈ inBatches batches, ∀ p, coins.payment t = some p →
      p.Exact coins.owned (named coins.txnId batches)) →
    ∀ k t p, r.1.txnPool k = some t → coins.payment t = some p →
      p.Conserved coins.owned r.1.txnPool

theorem paysWhenExact (coins : Coins τ) :
    PaysWhenExact (Validator.validate coins.toTxnKind) coins where
  payment batches fuel r h k t p ht hp := (runBatches_inv h).conserved_iff ht hp
  run batches fuel r h hexact k t p ht hp := by
    have hinv := runBatches_inv h
    have hin : t ∈ (r.1.admission coins.toTxnKind).admitted := by
      show r.1.txnPool (coins.txnId t) = some t
      rw [hinv.filed.pool k t ht, ht]
    exact (hinv.conserved_iff ht hp).mpr (hexact t (hinv.law.sound t hin).delivered p hp)

/-- **Accepted transactions conserve value when they are exact**, on either
chain, and only then. -/
theorem value_conserved (ids : IdScheme) (ids' : Avalanche.UniqueIds) :
    PaysWhenExact (Bitcoin.TxnValidation.validate ids) (bitcoinCoins ids) ∧
    PaysWhenExact (Avalanche.TxnValidation.validate ids') (avalancheCoins ids') := by
  constructor
  · rw [Bitcoin.TxnValidation.validate_shared]
    exact paysWhenExact (bitcoinCoins ids)
  · exact paysWhenExact (avalancheCoins ids')

open Bitcoin (demo demoGrant demoPay demoTwice)

/-- Outputs of `2^64 + 10` from an input of 10. -/
def Avalanche.sampleMint : AvalancheTxn :=
  .send [1] [codeTxn sampleGrant] [2] 18446744073709551615 11 []

/-- A grant of 10 pays for outputs of 4 and 6. -/
theorem value_conserved_demo :
    ∃ r, runBatches (Bitcoin.TxnValidation.validate demo.ids) 5
        [⟨.inserted _, [(0, demoGrant), (0, demoPay)]⟩] = .ok r ∧
      r.1.txnPool 2 = some demoPay ∧
      Payment.Conserved BitcoinTxn.ownedValue r.1.txnPool ⟨[1], [1], 4, 6⟩ := by
  have hcheck : returns (runBatches (Bitcoin.TxnValidation.validate demo.ids) 5
      [⟨.inserted _, [(0, demoGrant), (0, demoPay)]⟩])
      (fun r => r.1.txnPool 2 = some demoPay) = true := by
    decide +kernel
  obtain ⟨r, hr, hpool⟩ := returns_iff.mp hcheck
  have hpool : r.1.txnPool 2 = some demoPay := by simpa using hpool
  refine ⟨r, hr, hpool, ?_⟩
  refine ((value_conserved demo.ids .coded).1.payment _ _ r hr 2 demoPay _ hpool rfl).mpr ?_
  exact Payment.exact_of_lt _ _ _ (by decide) (by decide +kernel) (by decide)

/-- A grant of 10 is accepted as the input of outputs that cost more: listed
twice it pays 20, and in `u64` it pays `2^64 + 10`. -/
theorem value_minted :
    (¬ ∀ batches fuel r, runBatches (Bitcoin.TxnValidation.validate demo.ids) fuel batches = .ok r →
      ∀ k t p, r.1.txnPool k = some t → t.payment = some p →
        p.Conserved BitcoinTxn.ownedValue r.1.txnPool) ∧
    ¬ ∀ batches fuel r, runBatches (Avalanche.TxnValidation.validate .coded) fuel batches = .ok r →
      ∀ k t p, r.1.txnPool k = some t → t.payment = some p →
        p.Conserved Avalanche.AvalancheTxn.owned r.1.txnPool := by
  constructor
  · intro h
    have hcheck : returns (runBatches (Bitcoin.TxnValidation.validate demo.ids) 5
        [⟨.inserted _, [(0, demoGrant), (0, demoTwice)]⟩])
        (fun r => r.1.txnPool 3 = some demoTwice ∧
          Payment.paid BitcoinTxn.ownedValue r.1.txnPool ⟨[1], [1, 1], 20, 0⟩ = 10) = true := by
      decide +kernel
    obtain ⟨r, hr, hpool⟩ := returns_iff.mp hcheck
    simp only [decide_eq_true_eq] at hpool
    have hpaid := h _ _ r hr 3 demoTwice ⟨[1], [1, 1], 20, 0⟩ hpool.1 rfl
    exact absurd (hpool.2.symm.trans hpaid) (by decide)
  · intro h
    have hcheck : returns (runBatches (Avalanche.TxnValidation.validate .coded) 5
        [⟨.inserted _, [(0, Avalanche.sampleGrant), (0, Avalanche.sampleMint)]⟩])
        (fun r => r.1.txnPool (Avalanche.codeTxn Avalanche.sampleMint) =
            some Avalanche.sampleMint ∧
          Payment.paid Avalanche.AvalancheTxn.owned r.1.txnPool
            ⟨[1], [Avalanche.codeTxn Avalanche.sampleGrant], 18446744073709551615, 11⟩ = 10) =
        true := by
      decide +kernel
    obtain ⟨r, hr, hpool⟩ := returns_iff.mp hcheck
    simp only [decide_eq_true_eq] at hpool
    have hpaid := h _ _ r hr _ Avalanche.sampleMint _ hpool.1 rfl
    exact absurd (hpool.2.symm.trans hpaid) (by decide)

end Copycat
