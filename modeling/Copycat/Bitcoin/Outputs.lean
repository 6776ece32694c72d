import Copycat.Bitcoin.Ledger

/-!
# What a chain leaves unspent

`LedgerInv` says that the UTXO set is the replay of the main chain, and asks
for careful calls. This module is about what is left of it when nothing is
promised but that no path has a transaction twice: a block mined here may
consume an output twice, and a reorganisation may leave the output of a
self-payment in the set although it has been consumed (`Repays`).

`Left txns k` reads an output off a chain: it is made, and consumed by nothing
that follows. `Tracked` is the law: everything that is left is in the set, and
everything in the set is left, or is the one kind of output that is made twice.
The redo loop keeps it (`Redone.redo`), and that is enough to say that it never
turns away a branch that can be replayed (`redoBranch_tracked`). `OutputsInv`
carries the law over every call.
-/

namespace Copycat.Bitcoin

open Copycat.Lib

variable {ids : IdScheme} {cfg : Config}

/-! ## Outputs of a list of transactions -/

/-- Where an element of a list with one more at the end stands. -/
theorem snoc_eq_split {α : Type} {xs pre post : List α} {t x : α}
    (h : xs ++ [t] = pre ++ x :: post) :
    (pre = xs ∧ x = t ∧ post = []) ∨ ∃ post', post = post' ++ [t] ∧ xs = pre ++ x :: post' := by
  rcases List.eq_nil_or_concat post with rfl | ⟨post', y, rfl⟩
  · obtain ⟨hpre, hx⟩ := List.append_inj' h rfl
    rw [List.cons.injEq] at hx
    exact Or.inl ⟨hpre.symm, hx.1.symm, rfl⟩
  · rw [List.concat_eq_append, ← List.cons_append, ← List.append_assoc] at h
    obtain ⟨hxs, hy⟩ := List.append_inj' h rfl
    rw [List.cons.injEq] at hy
    exact Or.inr ⟨post', by rw [List.concat_eq_append, hy.1], hxs⟩

/-- `k` is made by a transaction of the list, and consumed by none that follows
it. -/
def Left (ids : IdScheme) (txns : List BitcoinTxn) (k : Utxo) : Prop :=
  ∃ pre t post, txns = pre ++ t :: post ∧ k ∈ t.outputs (ids.txnId t) ∧
    ∀ x ∈ post, k ∉ x.inputs

/-- A transaction of the list makes `k` twice. -/
def Twice (ids : IdScheme) (txns : List BitcoinTxn) (k : Utxo) : Prop :=
  ∃ t ∈ txns, List.Duplicate k (t.outputs (ids.txnId t))

/-- `k` may be in the set after `txns`. -/
def Avail (ids : IdScheme) (txns : List BitcoinTxn) (k : Utxo) : Prop :=
  Left ids txns k ∨ Twice ids txns k

/-- `k` is made by a transaction of the list. -/
def Made (ids : IdScheme) (txns : List BitcoinTxn) (k : Utxo) : Prop :=
  ∃ t ∈ txns, k ∈ t.outputs (ids.txnId t)

theorem Twice.made {txns : List BitcoinTxn} {k : Utxo} (h : Twice ids txns k) :
    Made ids txns k := by
  obtain ⟨t, ht, hc⟩ := h
  exact ⟨t, ht, hc.mem⟩

theorem Avail.made {txns : List BitcoinTxn} {k : Utxo} (h : Avail ids txns k) :
    Made ids txns k := by
  rcases h with h | h
  · obtain ⟨pre, t, post, rfl, hk, -⟩ := h
    exact ⟨t, by simp, hk⟩
  · exact h.made

theorem Made.id_mem {txns : List BitcoinTxn} {k : Utxo} (h : Made ids txns k) :
    k.1 ∈ txnIds ids txns := by
  obtain ⟨t, ht, hk⟩ := h
  rw [BitcoinTxn.outputs_fst hk]
  exact mem_txnIds.mpr ht

theorem Made.append_left {xs : List BitcoinTxn} {k : Utxo} (h : Made ids xs k)
    (ys : List BitcoinTxn) : Made ids (xs ++ ys) k := by
  obtain ⟨t, ht, hk⟩ := h
  exact ⟨t, List.mem_append_left _ ht, hk⟩

theorem Twice.append_left {xs : List BitcoinTxn} {k : Utxo} (h : Twice ids xs k)
    (ys : List BitcoinTxn) : Twice ids (xs ++ ys) k := by
  obtain ⟨t, ht, hk⟩ := h
  exact ⟨t, List.mem_append_left _ ht, hk⟩

/-- The maker of an output is the transaction its id names. -/
theorem maker_unique {t t' : BitcoinTxn} {k : Utxo} (h : k ∈ t.outputs (ids.txnId t))
    (h' : k ∈ t'.outputs (ids.txnId t')) : t = t' :=
  ids.txnId_inj ((BitcoinTxn.outputs_fst h).symm.trans (BitcoinTxn.outputs_fst h'))

/-- What is left of a list of which one more transaction is applied. -/
theorem left_snoc {xs : List BitcoinTxn} {t : BitcoinTxn} {k : Utxo} :
    Left ids (xs ++ [t]) k ↔
      k ∈ t.outputs (ids.txnId t) ∨ (Left ids xs k ∧ k ∉ t.inputs) := by
  constructor
  · intro h
    obtain ⟨pre, m, post, he, hk, hpost⟩ := h
    rcases snoc_eq_split he with ⟨-, rfl, -⟩ | ⟨post', rfl, hxs⟩
    · exact Or.inl hk
    · exact Or.inr ⟨⟨pre, m, post', hxs, hk, fun x hx => hpost x (by simp [hx])⟩,
        hpost t (by simp)⟩
  · intro h
    rcases h with h | ⟨h, hin⟩
    · exact ⟨xs, t, [], rfl, h, fun x hx => absurd hx (by simp)⟩
    · obtain ⟨pre, m, post, rfl, hk, hpost⟩ := h
      refine ⟨pre, m, post ++ [t], by simp, hk, fun x hx => ?_⟩
      rcases List.mem_append.mp hx with hx | hx
      · exact hpost x hx
      · rw [List.mem_singleton.mp hx]
        exact hin

/-- What two lists leave: what the first leaves and the second does not consume,
and what the second leaves. -/
theorem left_append {xs ys : List BitcoinTxn} {k : Utxo} :
    Left ids (xs ++ ys) k ↔
      (Left ids xs k ∧ ∀ y ∈ ys, k ∉ y.inputs) ∨ Left ids ys k := by
  constructor
  · intro h
    obtain ⟨pre, t, post, he, hk, hpost⟩ := h
    rcases List.append_eq_append_iff.mp he with ⟨mid, rfl, hys⟩ | ⟨mid, hxs, hys⟩
    · exact Or.inr ⟨mid, t, post, hys, hk, hpost⟩
    · cases mid with
      | nil => exact Or.inr ⟨[], t, post, by simpa using hys.symm, hk, hpost⟩
      | cons m mid =>
        rw [List.cons_append, List.cons.injEq] at hys
        obtain ⟨rfl, rfl⟩ := hys
        exact Or.inl ⟨⟨pre, t, mid, hxs, hk, fun x hx => hpost x (by simp [hx])⟩,
          fun y hy => hpost y (by simp [hy])⟩
  · intro h
    rcases h with ⟨h, hys⟩ | h
    · obtain ⟨pre, t, post, rfl, hk, hpost⟩ := h
      refine ⟨pre, t, post ++ ys, by simp, hk, fun x hx => ?_⟩
      rcases List.mem_append.mp hx with hx | hx
      · exact hpost x hx
      · exact hys x hx
    · obtain ⟨pre, t, post, rfl, hk, hpost⟩ := h
      exact ⟨xs ++ pre, t, post, by simp, hk, hpost⟩

theorem twice_append {xs ys : List BitcoinTxn} {k : Utxo} :
    Twice ids (xs ++ ys) k ↔ Twice ids xs k ∨ Twice ids ys k := by
  constructor
  · intro h
    obtain ⟨t, ht, hc⟩ := h
    rcases List.mem_append.mp ht with ht | ht
    · exact Or.inl ⟨t, ht, hc⟩
    · exact Or.inr ⟨t, ht, hc⟩
  · intro h
    rcases h with ⟨t, ht, hc⟩ | ⟨t, ht, hc⟩
    · exact ⟨t, List.mem_append_left _ ht, hc⟩
    · exact ⟨t, List.mem_append_right _ ht, hc⟩

/-- What may be there after two lists. -/
theorem Avail.append {xs ys : List BitcoinTxn} {k : Utxo} (h : Avail ids (xs ++ ys) k) :
    Avail ids xs k ∨ Avail ids ys k := by
  rcases h with h | h
  · rcases left_append.mp h with ⟨h, -⟩ | h
    · exact Or.inl (Or.inl h)
    · exact Or.inr (Or.inl h)
  · rcases twice_append.mp h with h | h
    · exact Or.inl (Or.inr h)
    · exact Or.inr (Or.inr h)

/-- What a replay has is left. -/
theorem left_of_replay {txns : List BitcoinTxn} : ∀ {S : Finset Utxo},
    replay ids ∅ txns = some S → ∀ k ∈ S, Left ids txns k := by
  induction txns using List.reverseRecOn with
  | nil =>
    intro S h k hk
    have he : S = ∅ := (Option.some.inj h).symm
    rw [he] at hk
    exact absurd hk (by simp)
  | append_singleton xs t ih =>
    intro S h k hk
    obtain ⟨T, hT, ht⟩ := replay_append_eq_some.mp h
    rw [replay_singleton] at ht
    obtain ⟨-, -, rfl⟩ := replayTxn_eq_some.mp ht
    rw [left_snoc]
    rcases Finset.mem_union.mp hk with hk | hk
    · rw [Finset.mem_sdiff, List.mem_toFinset] at hk
      exact Or.inr ⟨ih hT k hk.1, hk.2⟩
    · exact Or.inl (List.mem_toFinset.mp hk)

/-! ## The law -/

/-- `V` is what the transactions leave, up to outputs that are made twice, and
what they consume was there. -/
structure Tracked (ids : IdScheme) (txns : List BitcoinTxn) (V : Finset Utxo) : Prop where
  left : ∀ k, Left ids txns k → k ∈ V
  avail : ∀ k ∈ V, Avail ids txns k
  ordered : ∀ pre x post, txns = pre ++ x :: post → ∀ k ∈ x.inputs, Avail ids pre k

theorem tracked_nil (ids : IdScheme) : Tracked ids [] ∅ := by
  refine ⟨?_, fun k hk => absurd hk (by simp), ?_⟩
  · intro k h
    obtain ⟨pre, t, post, he, -⟩ := h
    exact absurd he (by simp)
  · intro pre x post he
    exact absurd he (by simp)

/-- The order of one more transaction. -/
theorem ordered_snoc {xs : List BitcoinTxn} {t : BitcoinTxn}
    (h : ∀ pre x post, xs = pre ++ x :: post → ∀ k ∈ x.inputs, Avail ids pre k)
    (ht : ∀ k ∈ t.inputs, Avail ids xs k) :
    ∀ pre x post, xs ++ [t] = pre ++ x :: post → ∀ k ∈ x.inputs, Avail ids pre k := by
  intro pre x post he k hk
  rcases snoc_eq_split he with ⟨rfl, rfl, -⟩ | ⟨post', -, hxs⟩
  · exact ht k hk
  · exact h pre x post' hxs k hk

/-- What one more transaction does to what may be there. -/
theorem Avail.snoc {xs : List BitcoinTxn} {t : BitcoinTxn} {k : Utxo} (h : Avail ids xs k)
    (hk : k ∉ t.inputs) : Avail ids (xs ++ [t]) k := by
  rcases h with h | h
  · exact Or.inl (left_snoc.mpr (Or.inr ⟨h, hk⟩))
  · exact Or.inr (h.append_left [t])

/-- A transaction whose inputs are in the set is applied. -/
theorem Tracked.apply {txns : List BitcoinTxn} {V : Finset Utxo} (h : Tracked ids txns V)
    {t : BitcoinTxn} (hin : ∀ k ∈ t.inputs, k ∈ V) :
    Tracked ids (txns ++ [t]) (V \ t.inputs.toFinset ∪ (t.outputs (ids.txnId t)).toFinset) := by
  refine ⟨?_, ?_, ordered_snoc h.ordered fun k hk => h.avail k (hin k hk)⟩
  · intro k hk
    rw [Finset.mem_union, Finset.mem_sdiff, List.mem_toFinset, List.mem_toFinset]
    rcases left_snoc.mp hk with hk | ⟨hk, hnot⟩
    · exact Or.inr hk
    · exact Or.inl ⟨h.left k hk, hnot⟩
  · intro k hk
    rw [Finset.mem_union, Finset.mem_sdiff, List.mem_toFinset, List.mem_toFinset] at hk
    rcases hk with ⟨hk, hnot⟩ | hk
    · exact (h.avail k hk).snoc hnot
    · exact Or.inl (left_snoc.mpr (Or.inl hk))

/-! ## Undoing -/

/-- `xs` has no transaction twice, and none of `prior`. -/
structure Unrepeated (ids : IdScheme) (prior xs : List BitcoinTxn) : Prop where
  nodup : (txnIds ids xs).Nodup
  apart : ∀ h ∈ txnIds ids prior, h ∉ txnIds ids xs

theorem unrepeated_of_nodup {prior xs : List BitcoinTxn}
    (hnd : (txnIds ids (prior ++ xs)).Nodup) : Unrepeated ids prior xs := by
  rw [txnIds_append] at hnd
  obtain ⟨-, hxs, hdisj⟩ := List.nodup_append.mp hnd
  exact ⟨hxs, fun h hp hx => hdisj h hp h hx rfl⟩

/-- The first transaction of the rest is moved over. -/
theorem Unrepeated.shift {prior xs : List BitcoinTxn} {t : BitcoinTxn}
    (h : Unrepeated ids prior (t :: xs)) : Unrepeated ids (prior ++ [t]) xs := by
  have hcons : txnIds ids (t :: xs) = ids.txnId t :: txnIds ids xs := rfl
  obtain ⟨hnd, hapart⟩ := h
  rw [hcons] at hnd hapart
  obtain ⟨ht, hxs⟩ := List.nodup_cons.mp hnd
  refine ⟨hxs, fun x hx hmem => ?_⟩
  rw [txnIds_append] at hx
  rcases List.mem_append.mp hx with hx | hx
  · exact hapart x hx (List.mem_cons_of_mem _ hmem)
  · obtain rfl : x = ids.txnId t := List.mem_singleton.mp hx
    exact ht hmem

/-- Nothing is made both before and after, where no transaction repeats. -/
theorem made_apart {xs ys : List BitcoinTxn} {k : Utxo} (h : Unrepeated ids xs ys)
    (hx : Made ids xs k) : ¬ Made ids ys k :=
  fun hy => h.apart _ hx.id_mem hy.id_mem

/-- The delta after the end `xs` of a chain has been undone: it deletes what
`xs` left or made twice, and adds what `xs` consumed and did not make. -/
theorem undo_spec {prior xs : List BitcoinTxn} (hnd : Unrepeated ids prior xs)
    (hord : ∀ pre x post, prior ++ xs = pre ++ x :: post → ∀ k ∈ x.inputs, Avail ids pre k) :
    ∀ k, (k ∈ (xs.reverse.foldl (undoTxn ids) ⟨⟨∅, ∅⟩, ∅⟩).delta.del ↔ Avail ids xs k) ∧
      (k ∈ (xs.reverse.foldl (undoTxn ids) ⟨⟨∅, ∅⟩, ∅⟩).delta.add ↔
        (∃ x ∈ xs, k ∈ x.inputs) ∧ ¬ Made ids xs k) := by
  induction xs generalizing prior with
  | nil =>
    intro k
    refine ⟨?_, by simp⟩
    have hno : ¬ Avail ids [] k := fun h => by
      obtain ⟨t, ht, -⟩ := h.made
      exact absurd ht (by simp)
    simp [hno]
  | cons t xs ih =>
    intro k
    have hcat : prior ++ t :: xs = (prior ++ [t]) ++ xs := by simp
    obtain ⟨hdel, hadd⟩ := ih hnd.shift (hcat ▸ hord) k
    set u := xs.reverse.foldl (undoTxn ids) ⟨⟨∅, ∅⟩, ∅⟩ with hu
    rw [List.reverse_cons, List.foldl_append, List.foldl_cons, List.foldl_nil, ← hu]
    -- what `t` consumes was made before it, so neither by `t` nor after it
    have hin : k ∈ t.inputs → ¬ Made ids (t :: xs) k := fun hk =>
      made_apart hnd (hord prior t xs rfl k hk).made
    have hcons : Made ids (t :: xs) k ↔ k ∈ t.outputs (ids.txnId t) ∨ Made ids xs k := by
      unfold Made
      simp
    show (k ∈ ((t.outputs (ids.txnId t)).foldl Delta.unput
        (t.inputs.foldl Delta.untake u.delta)).del ↔ _) ∧
      (k ∈ ((t.outputs (ids.txnId t)).foldl Delta.unput
        (t.inputs.foldl Delta.untake u.delta)).add ↔ _)
    by_cases hk : k ∈ t.outputs (ids.txnId t)
    · obtain ⟨hnadd, hdel'⟩ := Delta.unputs_self hk (t.inputs.foldl Delta.untake u.delta)
      have hxs : ¬ Made ids xs k := made_apart hnd.shift ⟨t, by simp, hk⟩
      have hkin : k ∉ t.inputs := fun h => hin h (hcons.mpr (Or.inl hk))
      rw [hdel', Delta.untakes_del, Delta.untakes_add, hdel, hadd]
      constructor
      · constructor
        · intro h
          rcases h with h | h | h
          · exact absurd h.made hxs
          · refine Or.inl ⟨[], t, xs, rfl, hk, fun x hx hkx => h (Or.inl ⟨⟨x, hx, hkx⟩, hxs⟩)⟩
          · exact Or.inr ⟨t, by simp, h⟩
        · intro h
          have hcat' : t :: xs = [t] ++ xs := rfl
          rw [hcat'] at h
          rcases h with h | h
          · rcases left_append.mp h with ⟨-, h⟩ | h
            · refine Or.inr (Or.inl fun h' => ?_)
              rcases h' with ⟨⟨x, hx, hkx⟩, -⟩ | h'
              · exact h x hx hkx
              · exact hkin h'
            · exact absurd (Avail.made (Or.inl h)) hxs
          · rcases twice_append.mp h with ⟨t', ht', hc⟩ | h
            · rw [List.mem_singleton.mp ht'] at hc
              exact Or.inr (Or.inr hc)
            · exact absurd h.made hxs
      · constructor
        · intro h
          exact absurd h hnadd
        · intro h
          exact absurd (hcons.mpr (Or.inl hk)) h.2
    · obtain ⟨hadd', hdel'⟩ := Delta.unputs_other hk (t.inputs.foldl Delta.untake u.delta)
      rw [hadd', hdel', Delta.untakes_del, Delta.untakes_add, hdel, hadd, hcons]
      constructor
      · constructor
        · intro h
          rcases h with h | h
          · exact Or.inl (show Left ids ([t] ++ xs) k from left_append.mpr (Or.inr h))
          · exact Or.inr (show Twice ids ([t] ++ xs) k from twice_append.mpr (Or.inr h))
        · intro h
          rcases Avail.append (show Avail ids ([t] ++ xs) k from h) with h | h
          · obtain ⟨t', ht', hk'⟩ := h.made
            rw [List.mem_singleton.mp ht'] at hk'
            exact absurd hk' hk
          · exact h
      · constructor
        · intro h
          rcases h with ⟨⟨x, hx, hkx⟩, hno⟩ | h
          · exact ⟨⟨x, by simp [hx], hkx⟩, fun h => h.elim hk hno⟩
          · exact ⟨⟨t, by simp, h⟩, fun h' => hin h (hcons.mpr h')⟩
        · intro h
          obtain ⟨⟨x, hx, hkx⟩, hno⟩ := h
          rcases List.mem_cons.mp hx with rfl | hx
          · exact Or.inr hkx
          · exact Or.inl ⟨⟨x, hx, hkx⟩, fun h => hno (Or.inr h)⟩

/-! ## Redoing -/

/-- The delta `d` over `U` once `old` has been undone and `txns` is the chain
so far: everything that is left can be consumed. This much holds also where the
redone transactions repeat others. -/
structure Supplied (ids : IdScheme) (U : Finset Utxo) (old txns : List BitcoinTxn)
    (d : Delta Utxo) : Prop where
  left : ∀ k, Left ids txns k → k ∉ d.del ∧ (k ∈ d.add ∨ k ∈ U)
  del : ∀ k ∈ d.del, k ∈ U ∨ Twice ids old k

/-- And what can be consumed may be there, and what can be consumed from both
sides is made twice. -/
structure Redone (ids : IdScheme) (U : Finset Utxo) (old txns : List BitcoinTxn)
    (d : Delta Utxo) : Prop extends Supplied ids U old txns d where
  avail : ∀ k, d.Has U k → Avail ids txns k
  both : ∀ k, k ∈ d.add → k ∈ U → k ∉ d.del → Twice ids txns k
  ordered : ∀ pre x post, txns = pre ++ x :: post → ∀ k ∈ x.inputs, Avail ids pre k

theorem Supplied.start {anc old : List BitcoinTxn} {U : Finset Utxo}
    (hleft : ∀ k, Left ids (anc ++ old) k → k ∈ U) (hnd : Unrepeated ids anc old)
    (hord : ∀ pre x post, anc ++ old = pre ++ x :: post → ∀ k ∈ x.inputs, Avail ids pre k) :
    Supplied ids U old anc (old.reverse.foldl (undoTxn ids) ⟨⟨∅, ∅⟩, ∅⟩).delta := by
  have hundo := undo_spec hnd hord
  refine ⟨fun k hk => ?_, fun k hk => ?_⟩
  · have hno : ¬ Made ids old k := made_apart hnd (Avail.made (Or.inl hk))
    refine ⟨fun hdel => hno ((hundo k).1.mp hdel).made, ?_⟩
    by_cases hcons : ∃ x ∈ old, k ∈ x.inputs
    · exact Or.inl ((hundo k).2.mpr ⟨hcons, hno⟩)
    · refine Or.inr (hleft k (left_append.mpr (Or.inl ⟨hk, fun x hx hkx => ?_⟩)))
      exact hcons ⟨x, hx, hkx⟩
  · rcases (hundo k).1.mp hk with ha | ha
    · exact Or.inl (hleft k (left_append.mpr (Or.inr ha)))
    · exact Or.inr ha

theorem Redone.start {anc old : List BitcoinTxn} {U : Finset Utxo}
    (h : Tracked ids (anc ++ old) U) (hnd : Unrepeated ids anc old) :
    Redone ids U old anc (old.reverse.foldl (undoTxn ids) ⟨⟨∅, ∅⟩, ∅⟩).delta := by
  have hundo := undo_spec hnd h.ordered
  have hcov := Supplied.start h.left hnd h.ordered
  set d := (old.reverse.foldl (undoTxn ids) ⟨⟨∅, ∅⟩, ∅⟩).delta
  -- an output that `old` made is not available unless it is deleted
  have hside : ∀ k, k ∉ d.del → ¬ Avail ids old k := fun k hk ha => hk ((hundo k).1.mpr ha)
  -- an added output was consumed by `old` and made before it
  have hadded : ∀ k ∈ d.add, (∃ x ∈ old, k ∈ x.inputs) ∧ ¬ Made ids old k :=
    fun k hk => (hundo k).2.mp hk
  refine ⟨hcov, ?_, ?_, ?_⟩
  · intro k hk
    rcases hk with hk | ⟨hU, hdel⟩
    · obtain ⟨⟨x, hx, hkx⟩, hno⟩ := hadded k hk
      obtain ⟨pre, post, rfl⟩ := List.append_of_mem hx
      have ha := h.ordered (anc ++ pre) x post (by simp) k hkx
      rcases ha.append with ha | ha
      · exact ha
      · exact absurd (ha.made.append_left _) hno
    · rcases (h.avail k hU).append with ha | ha
      · exact ha
      · exact absurd ha (hside k hdel)
  · intro k hk hU hdel
    obtain ⟨⟨x, hx, hkx⟩, hno⟩ := hadded k hk
    rcases h.avail k hU with ha | ha
    · rcases left_append.mp ha with ⟨-, hall⟩ | ha
      · exact absurd hkx (hall x hx)
      · exact absurd (Avail.made (Or.inl ha)) hno
    · rcases twice_append.mp ha with ha | ha
      · exact ha
      · exact absurd ha.made hno
  · intro pre x post he
    exact h.ordered pre x (post ++ old) (by rw [he]; simp)

/-- What redoing one transaction does to the delta: its inputs are taken, then
its outputs are put. -/
theorem redoTxn_cases {U : Finset Utxo} {r r' : Redo} {t : BitcoinTxn}
    (hr : redoTxn ids U r t = some r') :
    ∃ d, r.delta.Taken U t.inputs d ∧
      r'.delta = (t.outputs (ids.txnId t)).foldl Delta.put d := by
  unfold redoTxn at hr
  obtain ⟨d, hd, hr⟩ := Option.bind_eq_some_iff.mp hr
  split at hr
  · rw [Option.some.injEq] at hr
    exact ⟨d, Delta.takes_taken hd, by rw [← hr]⟩
  · exact absurd hr (by simp)

/-- Redoing one transaction keeps what is left. -/
theorem Supplied.step {U : Finset Utxo} {old txns : List BitcoinTxn} {r r' : Redo}
    {t : BitcoinTxn} (h : Supplied ids U old txns r.delta) (hr : redoTxn ids U r t = some r') :
    Supplied ids U old (txns ++ [t]) r'.delta := by
  obtain ⟨d, ht, hdelta⟩ := redoTxn_cases hr
  rw [hdelta]
  refine ⟨fun k hk => ?_, fun k hk => ?_⟩
  · by_cases hout : k ∈ t.outputs (ids.txnId t)
    · obtain ⟨hndel, hadd⟩ := Delta.puts_self hout d
      refine ⟨hndel, ?_⟩
      rw [hadd]
      by_cases hdel : k ∈ d.del
      · have hsrc : k ∈ U ∨ Twice ids old k := by
          rcases ht.del k hdel with hdel | hU
          · exact h.del k hdel
          · exact Or.inl hU
        rcases hsrc with hU | ⟨t', -, hdup⟩
        · exact Or.inr hU
        · rw [← maker_unique hout hdup.mem] at hdup
          exact Or.inl (Or.inr (Or.inr hdup))
      · exact Or.inl (Or.inr (Or.inl hdel))
    · obtain ⟨hadd, hdel⟩ := Delta.puts_other hout d
      rcases left_snoc.mp hk with hk | ⟨hk, hnin⟩
      · exact absurd hk hout
      · obtain ⟨hadd', hdel'⟩ := ht.other k hnin
        rw [hadd, hdel, hadd', hdel']
        exact h.left k hk
  · have hout : k ∉ t.outputs (ids.txnId t) := fun hout =>
      (Delta.puts_self hout d).1 hk
    rw [(Delta.puts_other hout d).2] at hk
    rcases ht.del k hk with hk | hU
    · exact h.del k hk
    · exact Or.inl hU

/-- Redoing one transaction that is new keeps the rest too. -/
theorem Redone.step {U : Finset Utxo} {old txns : List BitcoinTxn} {r r' : Redo}
    {t : BitcoinTxn} (h : Redone ids U old txns r.delta)
    (hfresh : ids.txnId t ∉ txnIds ids txns) (hr : redoTxn ids U r t = some r') :
    Redone ids U old (txns ++ [t]) r'.delta := by
  have hcov := h.toSupplied.step hr
  obtain ⟨d, ht, hdelta⟩ := redoTxn_cases hr
  rw [hdelta] at hcov ⊢
  -- the outputs of `t` could not be consumed before
  have hnew : ∀ k ∈ t.outputs (ids.txnId t), ¬ r.delta.Has U k := by
    intro k hk hhas
    have := (h.avail k hhas).made.id_mem
    rw [BitcoinTxn.outputs_fst hk] at this
    exact hfresh this
  refine ⟨hcov, ?_, ?_, ordered_snoc h.ordered fun k hk => h.avail k (ht.had k hk)⟩
  · intro k hk
    by_cases hout : k ∈ t.outputs (ids.txnId t)
    · exact Or.inl (left_snoc.mpr (Or.inl hout))
    · obtain ⟨hadd, hdel⟩ := Delta.puts_other hout d
      have hk : d.Has U k := by
        unfold Delta.Has at hk ⊢
        rwa [hadd, hdel] at hk
      by_cases hin : k ∈ t.inputs
      · obtain ⟨ha, hU, hnd⟩ := ht.again k hin hk
        exact Or.inr ((h.both k ha hU hnd).append_left [t])
      · exact (h.avail k (ht.has hk)).snoc hin
  · intro k hk hU hdel
    by_cases hout : k ∈ t.outputs (ids.txnId t)
    · obtain ⟨-, hadd⟩ := Delta.puts_self hout d
      -- it was deleted before, so it has to be made twice to be added
      have hnot := hnew k hout
      unfold Delta.Has at hnot
      push Not at hnot
      have hnin : k ∉ t.inputs := fun hin => hnew k hout (ht.had k hin)
      obtain ⟨hadd', hdel'⟩ := ht.other k hnin
      rcases hadd.mp hk with hk | hk | hk
      · exact absurd (hadd'.mp hk) hnot.1
      · exact absurd (hdel'.mpr (hnot.2 hU)) hk
      · exact ⟨t, by simp, hk⟩
    · obtain ⟨hadd, hdel'⟩ := Delta.puts_other hout d
      rw [hadd] at hk
      rw [hdel'] at hdel
      by_cases hin : k ∈ t.inputs
      · obtain ⟨ha, -, hnd⟩ := ht.again k hin (Or.inl hk)
        exact (h.both k ha hU hnd).append_left [t]
      · obtain ⟨hadd', hdel''⟩ := ht.other k hin
        exact (h.both k (hadd'.mp hk) hU fun hd => hdel (hdel''.mpr hd)).append_left [t]

/-- A transaction that can be replayed is redone. -/
theorem Supplied.step_some {U : Finset Utxo} {old txns : List BitcoinTxn} {r : Redo}
    {t : BitcoinTxn} {S S' : Finset Utxo} (h : Supplied ids U old txns r.delta)
    (hS : replay ids ∅ txns = some S) (ht : replayTxn ids S t = some S') (hok : t.scriptOk) :
    ∃ r', redoTxn ids U r t = some r' := by
  obtain ⟨hnd, hin, -⟩ := replayTxn_eq_some.mp ht
  obtain ⟨d, hd⟩ := Delta.takes_some (d := r.delta) (U := U) hnd (by
    intro k hk
    obtain ⟨hdel, hor⟩ := h.left k (left_of_replay hS k (hin k hk))
    rcases hor with hadd | hU
    · exact Or.inl hadd
    · exact Or.inr ⟨hU, hdel⟩)
  unfold redoTxn
  rw [hd, Option.bind_some, if_pos hok]
  exact ⟨_, rfl⟩

/-- Redoing a branch that can be replayed, transaction by transaction. -/
theorem Supplied.redo {U : Finset Utxo} {old xs : List BitcoinTxn} :
    ∀ {txns : List BitcoinTxn} {r : Redo} {S : Finset Utxo}, Supplied ids U old txns r.delta →
      replay ids ∅ (txns ++ xs) = some S → (∀ t ∈ xs, t.scriptOk) →
      ∃ r', xs.foldlM (redoTxn ids U) r = some r' ∧
        Supplied ids U old (txns ++ xs) r'.delta := by
  induction xs with
  | nil =>
    intro txns r S h _ _
    exact ⟨r, rfl, by rw [List.append_nil]; exact h⟩
  | cons t xs ih =>
    intro txns r S h hS hok
    have hcat : txns ++ t :: xs = (txns ++ [t]) ++ xs := by simp
    rw [hcat] at hS ⊢
    obtain ⟨S₁, hS₁, -⟩ := replay_append_eq_some.mp hS
    obtain ⟨S₀, hS₀, ht⟩ := replay_append_eq_some.mp hS₁
    rw [replay_singleton] at ht
    obtain ⟨r₁, h₁⟩ := h.step_some hS₀ ht (hok t (by simp))
    obtain ⟨r', hr', hcov⟩ := ih (h.step h₁) hS fun x hx => hok x (by simp [hx])
    refine ⟨r', ?_, hcov⟩
    rw [List.foldlM_cons, h₁]
    exact hr'

/-- Redoing a branch without repeated transactions. -/
theorem Redone.redo {U : Finset Utxo} {old xs : List BitcoinTxn} :
    ∀ {txns : List BitcoinTxn} {r r' : Redo}, Redone ids U old txns r.delta →
      (txnIds ids (txns ++ xs)).Nodup → xs.foldlM (redoTxn ids U) r = some r' →
      Redone ids U old (txns ++ xs) r'.delta := by
  induction xs with
  | nil =>
    intro txns r r' h _ hr
    have he : r = r' := Option.some.inj hr
    rw [List.append_nil, ← he]
    exact h
  | cons t xs ih =>
    intro txns r r' h hnd hr
    have hcat : txns ++ t :: xs = (txns ++ [t]) ++ xs := by simp
    rw [hcat] at hnd ⊢
    have hfresh : ids.txnId t ∉ txnIds ids txns := by
      rw [txnIds_append, txnIds_append] at hnd
      intro hmem
      have := (List.nodup_append.mp (List.nodup_append.mp hnd).1).2.2
      exact this _ hmem _ (by simp [txnIds]) rfl
    rw [List.foldlM_cons] at hr
    obtain ⟨r₁, h₁, hr⟩ := Option.bind_eq_some_iff.mp hr
    exact ih (h.step hfresh h₁) hnd hr

/-- The redo loop on a branch, as a fold over transactions. -/
theorem redoBranch_eq {U : Finset Utxo} (old new : List Block) :
    redoBranch ids U old new = (chainTxns new).foldlM (redoTxn ids U)
      ⟨((chainTxns old).reverse.foldl (undoTxn ids) ⟨⟨∅, ∅⟩, ∅⟩).delta,
        ((chainTxns old).reverse.foldl (undoTxn ids) ⟨⟨∅, ∅⟩, ∅⟩).undoTxns, ∅⟩ := by
  unfold redoBranch
  rw [undoChain_eq, redoChain_eq]

/-- What a replay consumes was left by what comes before. -/
theorem ordered_of_replay {txns : List BitcoinTxn} {S : Finset Utxo}
    (h : replay ids ∅ txns = some S) :
    ∀ pre x post, txns = pre ++ x :: post → ∀ k ∈ x.inputs, Avail ids pre k := by
  intro pre x post he k hk
  rw [he] at h
  obtain ⟨T, hT, hrest⟩ := replay_append_eq_some.mp h
  obtain ⟨T', hx, -⟩ := replay_cons_eq_some.mp hrest
  obtain ⟨-, hmem, -⟩ := replayTxn_eq_some.mp hx
  exact Or.inl (left_of_replay hT k (hmem k hk))

/-- Where the set has all that a valid chain leaves, and what is undone repeats
nothing, a reorganisation accepts every branch that can be replayed with
succeeding scripts, and the set has all that the new chain leaves. -/
theorem redoBranch_covers {U S S' : Finset Utxo} (anc new old : List Block)
    (hleft : ∀ k, Left ids (chainTxns (anc ++ old)) k → k ∈ U)
    (hold : replay ids ∅ (chainTxns (anc ++ old)) = some S)
    (hnd : Unrepeated ids (chainTxns anc) (chainTxns old))
    (hnew : replay ids ∅ (chainTxns (anc ++ new)) = some S')
    (hok : ∀ t ∈ chainTxns new, t.scriptOk) :
    ∃ rd, redoBranch ids U old new = some rd ∧
      ∀ k, Left ids (chainTxns (anc ++ new)) k → k ∈ (U ∪ rd.delta.add) \ rd.delta.del := by
  rw [chainTxns_append] at hleft hold hnew ⊢
  obtain ⟨rd, hrd, hcov⟩ := (Supplied.start hleft hnd (ordered_of_replay hold)).redo
    (r := ⟨_, ((chainTxns old).reverse.foldl (undoTxn ids) ⟨⟨∅, ∅⟩, ∅⟩).undoTxns, ∅⟩) hnew hok
  refine ⟨rd, (redoBranch_eq old new).trans hrd, fun k hk => ?_⟩
  obtain ⟨hdel, hor⟩ := hcov.left k hk
  rw [Finset.mem_sdiff, Finset.mem_union]
  exact ⟨hor.symm, hdel⟩

/-- **What a reorganisation accepts.** What it makes of the UTXO set tracks the
new chain, and it accepts every branch that can be replayed with succeeding
scripts. -/
theorem redoBranch_tracked {U : Finset Utxo} (anc new old : List Block)
    (hold : Tracked ids (chainTxns (anc ++ old)) U)
    (hndold : (txnIds ids (chainTxns (anc ++ old))).Nodup)
    (hndnew : (txnIds ids (chainTxns (anc ++ new))).Nodup) :
    (∀ rd, redoBranch ids U old new = some rd →
      Tracked ids (chainTxns (anc ++ new)) ((U ∪ rd.delta.add) \ rd.delta.del)) ∧
    (∀ S, replay ids ∅ (chainTxns (anc ++ new)) = some S → (∀ t ∈ chainTxns new, t.scriptOk) →
      ∃ rd, redoBranch ids U old new = some rd) := by
  rw [chainTxns_append] at hold hndold hndnew ⊢
  have hstart := Redone.start hold (unrepeated_of_nodup hndold)
  constructor
  · intro rd hrd
    rw [redoBranch_eq] at hrd
    have h := hstart.redo
      (r := ⟨_, ((chainTxns old).reverse.foldl (undoTxn ids) ⟨⟨∅, ∅⟩, ∅⟩).undoTxns, ∅⟩) hndnew hrd
    refine ⟨?_, ?_, h.ordered⟩
    · intro k hk
      obtain ⟨hdel, hor⟩ := h.left k hk
      rw [Finset.mem_sdiff, Finset.mem_union]
      exact ⟨hor.symm, hdel⟩
    · intro k hk
      rw [Finset.mem_sdiff, Finset.mem_union] at hk
      rcases hk.1 with hU | hadd
      · exact h.avail k (Or.inr ⟨hU, hk.2⟩)
      · exact h.avail k (Or.inl hadd)
  · intro S hS hok
    obtain ⟨rd, hrd, -⟩ := hstart.toSupplied.redo
      (r := ⟨_, ((chainTxns old).reverse.foldl (undoTxn ids) ⟨⟨∅, ∅⟩, ∅⟩).undoTxns, ∅⟩) hS hok
    exact ⟨rd, (redoBranch_eq old new).trans hrd⟩

/-! ## Over the calls -/

/-- The law of the outputs, over the main chain `p` and the block under
construction. -/
structure OutputsInv (ids : IdScheme) (s : BlockManagement) (p : List Block) : Prop
    extends MempoolInv ids s p where
  utxo : Tracked ids (chainTxns p) s.utxo
  build : ∃ txns, s.blockUnderConstruction.mapM s.txnPool = some txns ∧
    Tracked ids (chainTxns p ++ txns) ((s.utxo ∪ s.newUtxo) \ s.utxoSpent)
  spent : ∀ k ∈ s.utxoSpent, k.1 ∈ txnIds ids (chainTxns p) ++ s.blockUnderConstruction

theorem outputsInv_new : OutputsInv ids BlockManagement.new [] where
  toQueueInv := queueInv_new
  path := .genesis
  nodup := by simp [BlockManagement.new, txnIds]
  utxo := tracked_nil ids
  build := ⟨[], rfl, tracked_nil ids⟩
  spent := by simp [BlockManagement.new]

/-- A call that only adds transactions and blocks keeps the law. -/
theorem OutputsInv.grow {s s' : BlockManagement} {p : List Block} (hinv : OutputsInv ids s p)
    (hmem : MempoolInv ids s' p) (hsteady : Steady s s') : OutputsInv ids s' p := by
  obtain ⟨hmono, hu, hn, hs, hb⟩ := hsteady
  refine ⟨hmem, hu ▸ hinv.utxo, ?_, ?_⟩
  · obtain ⟨txns, htxns, htracked⟩ := hinv.build
    refine ⟨txns, ?_, ?_⟩
    · rw [hb]
      exact mapM_mono hmono htxns
    · rw [hu, hn, hs]
      exact htracked
  · rw [hs, hb]
    exact hinv.spent

/-- The state right after a tail has been set: nothing is under construction. -/
theorem outputsInv_of_empty {s : BlockManagement} {p : List Block} (hmem : MempoolInv ids s p)
    (hu : Tracked ids (chainTxns p) s.utxo) (hb : s.blockUnderConstruction = [])
    (hn : s.newUtxo = ∅) (hs : s.utxoSpent = ∅) : OutputsInv ids s p := by
  refine ⟨hmem, hu, ⟨[], by rw [hb]; rfl, ?_⟩, by rw [hs]; simp⟩
  rw [hn, hs]
  simpa using hu

/-- Putting a transaction in the block, an input listed twice or not. -/
theorem OutputsInv.take {enumSize : Nat} {s : BlockManagement} {p : List Block}
    (hinv : OutputsInv ids s p) {txnHash : Hash} {rest : List Hash} {txn : BitcoinTxn}
    (hq : s.pendingTxns = txnHash :: rest) (htxn : s.txnPool txnHash = some txn)
    (hinc : txn.isIncentive = false) (hok : s.includable txn) :
    OutputsInv ids (includeTxn enumSize { s with pendingTxns := rest } txnHash txn) p := by
  obtain ⟨txns, htxns, htracked⟩ := hinv.build
  have hid : ids.txnId txn = txnHash := (hinv.stored txnHash txn htxn).1
  obtain ⟨hids, -⟩ := txnIds_of_mapM hinv.stored htxns
  have hmade : ∀ k ∈ (s.utxo ∪ s.newUtxo) \ s.utxoSpent,
      k.1 ∈ txnIds ids (chainTxns p) ++ s.blockUnderConstruction := by
    intro k hk
    have := (htracked.avail k hk).made.id_mem
    rwa [txnIds_append, hids] at this
  obtain ⟨hspend, hset, hspent⟩ := hinv.toMempoolInv.take_outputs hq hok hmade hinv.spent
  refine ⟨hinv.toMempoolInv.build (.take hq htxn hinc hok), hinv.utxo, ?_, hspent⟩
  refine ⟨txns ++ [txn], ?_, ?_⟩
  · show (s.blockUnderConstruction ++ [txnHash]).mapM s.txnPool = _
    rw [List.mapM_append, htxns]
    simp [htxn]
  · show Tracked ids (chainTxns p ++ (txns ++ [txn]))
      ((s.utxo ∪ (s.newUtxo ∪ (txn.outputs txnHash).toFinset))
        \ (s.utxoSpent ∪ txn.inputs.toFinset))
    rw [hset, ← hid, ← List.append_assoc]
    exact htracked.apply hspend

theorem OutputsInv.prepare {enumSize fuel : Nat} {root : Hash} {s s' : BlockManagement}
    {c : CurBlockState} {p : List Block} (hinv : OutputsInv ids s p)
    (h : prepareNewBlock enumSize fuel root s = .ok (s', c)) : OutputsInv ids s' p := by
  refine prepareNewBlock_invariant (fun s => OutputsInv ids s p) ?_ ?_ h hinv
  · intro s s' hstep hinv
    have hmem := hinv.toMempoolInv.build hstep
    cases hstep with
    | take hq htxn hinc hok => exact hinv.take hq htxn hinc hok
    | rotate hq htxn hinc hok => exact hinv.grow hmem ⟨fun _ _ ht => ht, rfl, rfl, rfl, rfl⟩
  · intro s hinv
    have hmem : MempoolInv ids { s with merkleRoot := some root, powTime := true } p :=
      hinv.toMempoolInv.keep ⟨hinv.stored, hinv.blocks, hinv.queued⟩ hinv.path rfl rfl
    exact hinv.grow hmem ⟨fun _ _ ht => ht, rfl, rfl, rfl, rfl⟩

/-- Mining applies the block under construction. -/
theorem OutputsInv.mined {s : BlockManagement} {p : List Block} (hinv : OutputsInv ids s p)
    {block : Block} {n : Nat} (hprev : block.prev = s.chainTail)
    (hfresh : s.blockPool (ids.blkId block.header) = none)
    (htxns : s.blockUnderConstruction.mapM s.txnPool = some block.txns) :
    OutputsInv ids (mined ids s block n) (p ++ [block]) := by
  refine outputsInv_of_empty (hinv.toMempoolInv.mined hprev hfresh htxns) ?_ rfl rfl rfl
  obtain ⟨txns, htxns', htracked⟩ := hinv.build
  rw [htxns, Option.some.injEq] at htxns'
  subst htxns'
  rw [chainTxns_append, chainTxns_singleton]
  exact htracked

/-- Every way `validate_block` can end keeps the law. -/
theorem OutputsInv.outcome {ord : HashOrder} {s : BlockManagement} {block : Block} {v : Validated}
    {p : List Block} (hchain : ChainInv ids s) (hinv : OutputsInv ids s p)
    (hrepeat : Connectable ids s block →
      ∀ h q, PathTo (withBlock ids s.blockPool block) h q → (txnIds ids (chainTxns q)).Nodup)
    (h : Outcome ids ord s block v) : ∃ q, OutputsInv ids v.state q := by
  rcases hinv.toMempoolInv.outcome hchain h with ⟨hmem, hsteady⟩ |
    ⟨txnPool, r, anc, new, old, rd, hc, hbr, hrd, hmem, hstate⟩
  · exact ⟨p, hinv.grow hmem hsteady⟩
  · have hp := hinv.path.mono hc.extends
    obtain rfl := hp.unique (hc.pools hchain).keyed hbr.oldPath
    have hnew := hrepeat hc.connectable _ _ (hbr.newPath.mono (hc.extends_withBlock hchain))
    rw [hstate]
    have hmem := hmem.moveOver ord hbr.newPath hnew hrd
    refine ⟨anc ++ new, outputsInv_of_empty hmem ?_ rfl rfl rfl⟩
    exact (redoBranch_tracked anc new old hinv.utxo (List.nodup_append.mp hinv.nodup).1 hnew).1
      rd hrd

/-- Every call keeps the law of the outputs, where no path repeats a
transaction. -/
theorem outputsInv_step {s s' : BlockManagement} {l : Label} {p : List Block}
    (hchain : ChainInv cfg.ids s) (hinv : OutputsInv cfg.ids s p) (hfresh : FreshId cfg s l)
    (hplain : PlainRecord l) (hrepeat : NoRepeat cfg s l) (h : Step cfg s l s') :
    ∃ q, OutputsInv cfg.ids s' q := by
  cases h with
  | record txn =>
    refine ⟨p, hinv.grow (hinv.toMempoolInv.record (hplain txn rfl)) (steady_record ?_)⟩
    exact (stored_step hchain hinv.stored hplain (fun _ hx => absurd hx (by simp))
      (.record s txn)).2
  | prepare h => exact ⟨p, hinv.prepare h⟩
  | mine h =>
    obtain ⟨chainLength, root, -, htxns, hhdr, rfl⟩ := getNewBlock_cases h
    obtain ⟨hnone, -⟩ := hfresh rfl _ (List.mem_singleton.mpr rfl)
    exact ⟨_, hinv.mined (prev_of_newHeader hhdr) hnone htxns⟩
  | @validate ord fuel block v h =>
    exact hinv.outcome hchain (hrepeat block rfl) ((validateBlock_spec ord hchain block).1 _ _ h)

end Copycat.Bitcoin
