import Mathlib

/-!
# Protocol data: hashes, keys and transactions

The values every stage passes around (`src/protocol/`). A `Hash` is the
repository's `U256`; it is only ever compared, so it is modelled by a natural
number, with `0` the zero hash that stands for "no parent". Keys and
signatures are byte strings. Amounts are `u64` and wrap, as they do in the
release profile the experiments run with.

`Fault` is what a call can end in instead of returning: a failed `assert!`,
`unwrap` or `unreachable!` (`panic`), or a loop that does not end within the
fuel given to it (`diverge`). Nothing is proved by running out of fuel: a
theorem that says a call returns gives the fuel.

The repository iterates `HashSet`s and `HashMap`s, whose order is arbitrary and
differs from call to call. `HashOrder` is one such order; every definition
that iterates a set takes one, and every theorem holds for all of them.
-/

namespace Copycat

/-- `U256`. -/
abbrev Hash := Nat

/-- `Box<[u8]>`. -/
abbrev PubKey := List UInt8

/-- `Vec<u8>`. -/
abbrev Signature := List UInt8

/-- `u64`. -/
abbrev NodeId := Nat

/-- An output: the transaction that made it and the key it is paid to. -/
abbrev Utxo := Hash × PubKey

/-- How a call can fail to return. -/
inductive Fault where
  | panic
  | diverge
deriving DecidableEq, Repr

/-- The result of a call. -/
abbrev Res (α : Type) := Except Fault α

/-- `Option::unwrap`. -/
def unwrap {α : Type} : Option α → Res α
  | some a => .ok a
  | none => .error .panic

@[simp] theorem unwrap_some {α : Type} (a : α) : unwrap (some a) = .ok a := rfl

@[simp] theorem unwrap_none {α : Type} : unwrap (none : Option α) = .error .panic := rfl

theorem unwrap_eq_ok {α : Type} {o : Option α} {a : α} : unwrap o = .ok a ↔ o = some a := by
  cases o <;> simp

/-- A sequenced call returns iff both halves do. -/
theorem bind_eq_ok {α β : Type} {x : Res α} {f : α → Res β} {b : β} :
    (x >>= f) = .ok b ↔ ∃ a, x = .ok a ∧ f a = .ok b := by
  cases x with
  | error e => simp [bind, Except.bind]
  | ok a => simp [bind, Except.bind]

/-- Whether a call returns something that passes `q`. -/
def returns {α : Type} (r : Res α) (q : α → Bool) : Bool :=
  match r with
  | .ok a => q a
  | .error _ => false

theorem returns_iff {α : Type} {r : Res α} {q : α → Bool} :
    returns r q = true ↔ ∃ a, r = .ok a ∧ q a = true := by
  cases r <;> simp [returns]

/-- What a call returns, as an option. -/
theorem toOption_eq_some {α : Type} {r : Res α} {a : α} : r.toOption = some a ↔ r = .ok a := by
  cases r with
  | error e => exact iff_of_false (fun h => absurd h (by simp [Except.toOption])) (by simp)
  | ok b => simp [Except.toOption]

/-- What every iteration of a loop preserves, the loop preserves. -/
theorem foldlM_invariant {α β : Type} {f : β → α → Res β} (P : β → Prop)
    (hstep : ∀ b a b', P b → f b a = .ok b' → P b') :
    ∀ {l : List α} {b b' : β}, P b → l.foldlM f b = .ok b' → P b' := by
  intro l
  induction l with
  | nil =>
    intro b b' hb h
    have : b = b' := Except.ok.inj h
    exact this ▸ hb
  | cons a l ih =>
    intro b b' hb h
    rw [List.foldlM_cons, bind_eq_ok] at h
    obtain ⟨b₁, hb₁, h⟩ := h
    exact ih (hstep b a b₁ hb hb₁) h

/-- The same for what depends on the part of the list that is done. -/
theorem foldlM_split {α β : Type} {f : β → α → Res β} (P : List α → β → Prop) {l : List α}
    (hstep : ∀ done a rest b b', l = done ++ a :: rest → P done b → f b a = .ok b' →
      P (done ++ [a]) b') {b b' : β} (hb : P [] b) (h : l.foldlM f b = .ok b') : P l b' := by
  have hgo : ∀ {rest done : List α} {b b' : β}, l = done ++ rest → P done b →
      rest.foldlM f b = .ok b' → P l b' := by
    intro rest
    induction rest with
    | nil =>
      intro done b b' hl hb h
      have : b = b' := Except.ok.inj h
      rw [hl, List.append_nil]
      exact this ▸ hb
    | cons a rest ih =>
      intro done b b' hl hb h
      rw [List.foldlM_cons, bind_eq_ok] at h
      obtain ⟨b₁, hb₁, h⟩ := h
      refine ih ?_ (hstep done a rest b b₁ hl hb hb₁) h
      rw [hl, List.append_assoc]
      rfl
  exact hgo rfl hb h

/-- A loop returns when every iteration does, given what the ones before have left. -/
theorem foldlM_split_returns {α β : Type} {f : β → α → Res β} (P : List α → β → Prop) {l : List α}
    (hstep : ∀ done a rest b, l = done ++ a :: rest → P done b →
      ∃ b', f b a = .ok b' ∧ P (done ++ [a]) b') {b : β} (hb : P [] b) :
    ∃ b', l.foldlM f b = .ok b' ∧ P l b' := by
  have hgo : ∀ {rest done : List α} {b : β}, l = done ++ rest → P done b →
      ∃ b', rest.foldlM f b = .ok b' ∧ P l b' := by
    intro rest
    induction rest with
    | nil =>
      intro done b hl hb
      rw [List.append_nil] at hl
      exact ⟨b, rfl, hl ▸ hb⟩
    | cons a rest ih =>
      intro done b hl hb
      obtain ⟨b₁, hb₁, hP⟩ := hstep done a rest b hl hb
      obtain ⟨b', hb', hP'⟩ := ih (by rw [hl, List.append_assoc]; rfl) hP
      exact ⟨b', by rw [List.foldlM_cons, bind_eq_ok]; exact ⟨b₁, hb₁, hb'⟩, hP'⟩
  exact hgo rfl hb

theorem foldlM_prefix {α β : Type} {f : β → α → Res β} (P : List α → β → Prop)
    (hstep : ∀ done b a b', P done b → f b a = .ok b' → P (done ++ [a]) b')
    {l : List α} {b b' : β} (hb : P [] b) (h : l.foldlM f b = .ok b') : P l b' :=
  foldlM_split P (fun done a _ b b' _ => hstep done b a b') hb h

/-- A loop whose iterations return the same returns the same. -/
theorem foldlM_mono {α β : Type} {f g : β → α → Res β}
    (hfg : ∀ b a b', f b a = .ok b' → g b a = .ok b') :
    ∀ {l : List α} {b b' : β}, l.foldlM f b = .ok b' → l.foldlM g b = .ok b' := by
  intro l
  induction l with
  | nil => exact fun h => h
  | cons a l ih =>
    intro b b' h
    rw [List.foldlM_cons, bind_eq_ok] at h ⊢
    obtain ⟨b₁, hb₁, h⟩ := h
    exact ⟨b₁, hfg b a b₁ hb₁, ih h⟩

/-- A loop returns if every iteration does, under what the iterations
preserve. -/
theorem foldlM_returns {α β : Type} {f : β → α → Res β} (P : β → Prop)
    {l : List α} (hstep : ∀ b, ∀ a ∈ l, P b → ∃ b', f b a = .ok b' ∧ P b') :
    ∀ {b : β}, P b → ∃ b', l.foldlM f b = .ok b' ∧ P b' := by
  induction l with
  | nil =>
    intro b hb
    exact ⟨b, rfl, hb⟩
  | cons a l ih =>
    intro b hb
    obtain ⟨b₁, hb₁, hP⟩ := hstep b a (by simp) hb
    obtain ⟨b', hb', hP'⟩ := ih (fun b a ha => hstep b a (by simp [ha])) hP
    refine ⟨b', ?_, hP'⟩
    rw [List.foldlM_cons, bind_eq_ok]
    exact ⟨b₁, hb₁, hb'⟩

/-- What enough fuel does for each of finitely many, enough fuel does for all
of them. -/
theorem enough_fuel {α : Type} {Q : α → Nat → Prop} {l : List α}
    (h : ∀ a ∈ l, ∃ N, ∀ fuel, N ≤ fuel → Q a fuel) :
    ∃ N, ∀ fuel, N ≤ fuel → ∀ a ∈ l, Q a fuel := by
  induction l with
  | nil => exact ⟨0, fun _ _ a ha => absurd ha (by simp)⟩
  | cons a l ih =>
    obtain ⟨N₁, h₁⟩ := h a (by simp)
    obtain ⟨N₂, h₂⟩ := ih fun b hb => h b (by simp [hb])
    refine ⟨max N₁ N₂, fun fuel hfuel b hb => ?_⟩
    rcases List.mem_cons.mp hb with rfl | hb
    · exact h₁ fuel (by omega)
    · exact h₂ fuel (by omega) b hb

/-- Looking up a list of hashes. -/
theorem mapM_eq_some_iff {α β : Type} {f : α → Option β} :
    ∀ {xs : List α} {ys : List β}, xs.mapM f = some ys ↔ xs.map f = ys.map some := by
  intro xs
  induction xs with
  | nil =>
    intro ys
    cases ys <;> simp
  | cons x xs ih =>
    intro ys
    rw [List.mapM_cons]
    cases hx : f x with
    | none => cases ys <;> simp [hx]
    | some y =>
      cases hm : xs.mapM f with
      | none =>
        cases ys with
        | nil => simp
        | cons y' ys =>
          have := (@ih ys).not.mp (by simp [hm])
          simp [hx, this]
      | some ys' =>
        have := ih.mp hm
        cases ys with
        | nil => simp
        | cons y' ys =>
          have hinj := (List.map_injective_iff.mpr (Option.some_injective β)).eq_iff (a := ys')
              (b := ys)
          simp [hx, this, hinj]

theorem exists_mapM {α β : Type} {f : α → Option β} {xs : List α}
    (h : ∀ x ∈ xs, ∃ y, f x = some y) : ∃ ys, xs.mapM f = some ys := by
  induction xs with
  | nil => exact ⟨[], rfl⟩
  | cons x xs ih =>
    obtain ⟨y, hy⟩ := h x (by simp)
    obtain ⟨ys, hys⟩ := ih fun x hx => h x (by simp [hx])
    refine ⟨y :: ys, ?_⟩
    rw [List.mapM_cons, hy, hys]
    rfl

/-- An iteration order for sets of hashes. -/
structure HashOrder where
  iter : Finset Hash → List Hash
  nodup : ∀ s, (iter s).Nodup
  mem : ∀ s x, x ∈ iter s ↔ x ∈ s

/-! ## Bitcoin -/

/-- The payload of `BitcoinTxn::Send`. -/
structure Send where
  sender : PubKey
  inUtxo : List Hash
  receiver : PubKey
  outUtxo : UInt64
  remainder : UInt64
  senderSignature : Signature
  scriptBytes : UInt64
  scriptRuntime : Nat
  scriptSucceed : Bool
deriving DecidableEq, Repr

/-- `BitcoinTxn`. -/
inductive BitcoinTxn where
  | incentive (outUtxo : UInt64) (receiver : PubKey)
  | send (txn : Send)
  | grant (outUtxo : UInt64) (receiver : PubKey)
deriving DecidableEq, Repr

namespace BitcoinTxn

/-- The outputs a transaction consumes, in the order it lists them. -/
def inputs : BitcoinTxn → List Utxo
  | send t => t.inUtxo.map (fun h => (h, t.sender))
  | _ => []

/-- The outputs a transaction with id `id` creates: the receiver's first, then
the remainder; a `Send` creates no output of value zero. -/
def outputs (id : Hash) : BitcoinTxn → List Utxo
  | incentive _ receiver => [(id, receiver)]
  | grant _ receiver => [(id, receiver)]
  | send t =>
    (if t.outUtxo > 0 then [(id, t.receiver)] else [])
      ++ (if t.remainder > 0 then [(id, t.sender)] else [])

/-- Whether the script of the transaction runs through; only a `Send` has
one. -/
def scriptOk : BitcoinTxn → Bool
  | send t => t.scriptSucceed
  | _ => true

/-- Whether the transaction is one the protocol makes up for itself. -/
def isIncentive : BitcoinTxn → Bool
  | incentive .. => true
  | _ => false

/-- The value the transaction assigns to `owner`, if any: the receiver is
looked at first. -/
def ownedValue (owner : PubKey) : BitcoinTxn → Option UInt64
  | incentive outUtxo receiver => if receiver = owner then some outUtxo else none
  | grant outUtxo receiver => if receiver = owner then some outUtxo else none
  | send t =>
    if t.receiver = owner then some t.outUtxo
    else if t.sender = owner then some t.remainder
    else none

/-- `BitcoinTxn::get_size`, over the size of the enum itself
(`size_of::<BitcoinTxn>()`, a constant of the compiler). -/
def getSize (enumSize : Nat) : BitcoinTxn → Nat
  | send t => (enumSize + t.scriptBytes.toNat) % 2 ^ 64
  | _ => enumSize

theorem outputs_fst {id : Hash} {txn : BitcoinTxn} {k : Utxo} (h : k ∈ txn.outputs id) :
    k.1 = id := by
  cases txn with
  | incentive o r => simp [outputs] at h; rw [h]
  | grant o r => simp [outputs] at h; rw [h]
  | send t =>
    simp only [outputs, List.mem_append] at h
    rcases h with h | h
    · split at h
      · simp at h; rw [h]
      · simp at h
    · split at h
      · simp at h; rw [h]
      · simp at h

/-- Outputs are distinct, or the same key twice. -/
theorem outputs_cases (id : Hash) (t : BitcoinTxn) :
    (t.outputs id).Nodup ∨ ∃ k, t.outputs id = [k, k] := by
  cases t with
  | incentive o r => exact Or.inl (by simp [outputs])
  | grant o r => exact Or.inl (by simp [outputs])
  | send t =>
    by_cases ho : t.outUtxo > 0
    · by_cases hr : t.remainder > 0
      · by_cases he : t.receiver = t.sender
        · exact Or.inr ⟨(id, t.sender), by simp [outputs, ho, hr, he]⟩
        · exact Or.inl (by simp [outputs, ho, hr, he])
      · exact Or.inl (by simp [outputs, ho, hr])
    · by_cases hr : t.remainder > 0
      · exact Or.inl (by simp [outputs, ho, hr])
      · exact Or.inl (by simp [outputs, ho, hr])

end BitcoinTxn

/-- `BlockHeader::Bitcoin`. -/
structure BlockHeader where
  proposer : NodeId
  prevHash : Hash
  merkleRoot : Hash
  nonce : Nat
deriving DecidableEq, Repr

/-- `Block`. -/
structure Block where
  header : BlockHeader
  txns : List BitcoinTxn
deriving DecidableEq, Repr

/-- The parent of a block. -/
abbrev Block.prev (b : Block) : Hash := b.header.prevHash

/-- `BitcoinTxn::compute_id` and `BlockHeader::compute_id`: SHA-256 over the
serialised value. What the program relies on is carried along: two
transactions never share an id, no block has the zero hash for an id, and
parent pointers do not form cycles (`rank` grows from parent to child). The
contexts `TxnCtx` and `BlkCtx` hold nothing but these ids, so the model
computes them where the source reads them. -/
structure IdScheme where
  txnId : BitcoinTxn → Hash
  blkId : BlockHeader → Hash
  txnId_inj : Function.Injective txnId
  blkId_ne_zero : ∀ h, blkId h ≠ 0
  rank : Hash → Nat
  rank_prev : ∀ h : BlockHeader, rank h.prevHash < rank (blkId h)

/-! ## Concrete instances

The two interfaces above can be met. `HashOrder.sorted` iterates a set in
increasing order; `IdScheme.ofTable` numbers the transactions of a table in
the order they stand there, and gives a block an id that pairs up its header
fields. -/

/-- The elements of a set in increasing order. -/
def HashOrder.sorted : HashOrder where
  iter s := Quot.lift (fun l : List Hash => l.insertionSort (· ≤ ·))
    (fun l l' h => by
      have hp : (l.insertionSort (· ≤ ·)).Perm (l'.insertionSort (· ≤ ·)) :=
        (List.perm_insertionSort _ l).trans (h.trans (List.perm_insertionSort _ l').symm)
      exact hp.eq_of_pairwise' (List.pairwise_insertionSort _ l) (List.pairwise_insertionSort _ l'))
    s.val
  nodup s := by
    obtain ⟨⟨l⟩, hl⟩ := s
    exact ((List.perm_insertionSort _ l).nodup_iff).mpr hl
  mem s x := by
    obtain ⟨⟨l⟩, hl⟩ := s
    exact (List.perm_insertionSort _ l).mem_iff

instance countableUInt8 : Countable UInt8 :=
  (Function.LeftInverse.injective (g := UInt8.ofNat) (f := UInt8.toNat)
      (fun x => by simp)).countable

instance countableUInt64 : Countable UInt64 :=
  (Function.LeftInverse.injective (g := UInt64.ofNat) (f := UInt64.toNat)
      (fun x => by simp)).countable

instance countableSend : Countable Send := by
  have h : Function.Injective (fun t : Send =>
      (t.sender, t.inUtxo, t.receiver, t.outUtxo, t.remainder, t.senderSignature, t.scriptBytes,
        t.scriptRuntime, t.scriptSucceed)) := by
    intro t t' h
    cases t
    cases t'
    simpa using h
  exact h.countable

instance countableBitcoinTxn : Countable BitcoinTxn := by
  have h : Function.Injective (fun t : BitcoinTxn =>
      match t with
      | .incentive o r => (Sum.inl (o, r) : (UInt64 × PubKey) ⊕ Send ⊕ (UInt64 × PubKey))
      | .send t => .inr (.inl t)
      | .grant o r => .inr (.inr (o, r))) := by
    intro t t' h
    cases t <;> cases t' <;> simp_all
  exact h.countable

/-- Ids `1, 2, ...` for the transactions of `table`, and some larger number
for every other one. -/
noncomputable def tableId (table : List BitcoinTxn) (txn : BitcoinTxn) : Nat :=
  if txn ∈ table then table.idxOf txn + 1
  else table.length + 1 + (exists_injective_nat BitcoinTxn).choose txn

theorem tableId_inj (table : List BitcoinTxn) : Function.Injective (tableId table) := by
  intro t t' h
  unfold tableId at h
  by_cases ht : t ∈ table
  · have hlt := List.idxOf_lt_length_iff.mpr ht
    by_cases ht' : t' ∈ table
    · rw [if_pos ht, if_pos ht'] at h
      exact (List.idxOf_inj ht).mp (by omega)
    · rw [if_pos ht, if_neg ht'] at h
      omega
  · by_cases ht' : t' ∈ table
    · have hlt := List.idxOf_lt_length_iff.mpr ht'
      rw [if_neg ht, if_pos ht'] at h
      omega
    · rw [if_neg ht, if_neg ht'] at h
      exact (exists_injective_nat BitcoinTxn).choose_spec (by omega)

/-- The id scheme of a table. -/
noncomputable def IdScheme.ofTable (table : List BitcoinTxn) : IdScheme where
  txnId := tableId table
  blkId h := Nat.pair h.prevHash (Nat.pair h.merkleRoot (Nat.pair h.proposer h.nonce)) + 1
  txnId_inj := tableId_inj table
  blkId_ne_zero _ := Nat.succ_ne_zero _
  rank := id
  rank_prev _ := Nat.lt_succ_of_le (Nat.left_le_pair _ _)

end Copycat
