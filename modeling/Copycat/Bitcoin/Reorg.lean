import Copycat.Bitcoin.Outcomes
import Copycat.Bitcoin.Replay

/-!
# Undo and redo against replay

A reorganisation never rebuilds the UTXO set. It collects the undo of the old
branch as a delta over `utxo`, feeds that delta to the redo loop of the new
branch, and merges. `Tracks` relates such a delta to the set a replay would
have at the same point; `Tracks.undo` carries it down the old branch,
`Tracks.redo` up the new one, and `redoBranch_spec` is the result: the redo
loop accepts exactly the branches that can be replayed with succeeding
scripts, and the merge is the replayed set.

One kind of transaction does not fit. A self-payment with a remainder creates
one key twice, and the redo loop adds it twice. If the key is in `utxo` and
the undo has deleted it, the first addition cancels the deletion and the
second makes a new copy beside the one in the base. `Repays` names the
situation, and the lemmas ask that it does not occur.
-/

namespace Copycat.Bitcoin

open Copycat.Lib

variable {ids : IdScheme}

/-- The two outputs of a transaction are one key. -/
def RepeatsOutput (ids : IdScheme) (t : BitcoinTxn) : Prop :=
  ¬ (t.outputs (ids.txnId t)).Nodup

/-- A self-payment with a remainder, unspent in `U`, is on both branches. -/
def Repays (ids : IdScheme) (U : Finset Utxo) (old new : List BitcoinTxn) : Prop :=
  ∃ t ∈ old, t ∈ new ∧ RepeatsOutput ids t ∧ ∃ k ∈ t.outputs (ids.txnId t), k ∈ U

/-- `d` over `U` stands for `S`, where the transactions `undone` have been
undone and `done` have been redone: what it deletes is in the base, or is the
key of an undone transaction that repeats its output. -/
structure Tracks (ids : IdScheme) (U : Finset Utxo) (undone done : List BitcoinTxn)
    (d : Delta Utxo) (S : Finset Utxo) : Prop where
  reps : d.Reps U S
  real : ∀ k ∈ d.del, k ∈ U ∨
    ∃ t ∈ undone, RepeatsOutput ids t ∧ k ∈ t.outputs (ids.txnId t)
  owner : ∀ k ∈ d.del, k.1 ∈ txnIds ids undone ∨ k.1 ∈ txnIds ids done

/-! ## Undo -/

/-- Undoing the last transaction of a chain. -/
theorem Tracks.undoTxn {U S₀ S : Finset Utxo} {prior undone : List BitcoinTxn} {t : BitcoinTxn}
    {u : Undo} (hnd : (txnIds ids (prior ++ t :: undone)).Nodup)
    (hprior : replay ids ∅ prior = some S₀) (ht : replayTxn ids S₀ t = some S)
    (h : Tracks ids U undone [] u.delta S) :
    Tracks ids U (t :: undone) [] (undoTxn ids u t).delta S₀ := by
  obtain ⟨hin, hmem, rfl⟩ := replayTxn_eq_some.mp ht
  set I := t.inputs with hI
  set O := t.outputs (ids.txnId t) with hO
  rw [txnIds_append] at hnd
  have hdisj := (List.nodup_append.mp hnd).2.2
  -- what is there before `t` was made by `prior`
  have hmade : ∀ k ∈ S₀, k.1 ∈ txnIds ids prior := fun k hk =>
    (made_of_replay hprior k hk).resolve_left (by simp)
  have hout : ∀ k ∈ O, k ∉ S₀ := by
    intro k hk hk₀
    have h1 := hmade k hk₀
    rw [BitcoinTxn.outputs_fst hk] at h1
    exact hdisj _ h1 _ (by simp [txnIds]) rfl
  have hnodel : ∀ k ∈ S₀, k ∉ u.delta.del := by
    intro k hk₀ hkd
    have h1 := (h.owner k hkd).resolve_right (by simp [txnIds])
    exact hdisj _ (hmade k hk₀) _ (List.mem_cons_of_mem _ h1) rfl
  have hinputs : ∀ k ∈ I, k ∉ u.delta.del ∧
      (k ∉ S₀ \ I.toFinset ∪ O.toFinset ∨ k ∈ u.delta.add) := by
    intro k hk
    refine ⟨hnodel k (hmem k hk), Or.inl ?_⟩
    have hkO : k ∉ O := fun hx => hout k hx (hmem k hk)
    simp [hk, hkO]
  obtain ⟨hreps₁, hdel₁⟩ := h.reps.untakes hinputs
  obtain ⟨hreps₂, hdel₂⟩ := Delta.Reps.unputs O hreps₁
  have hset : (S₀ \ I.toFinset ∪ O.toFinset ∪ I.toFinset) \ O.toFinset = S₀ := by
    ext k
    have h1 := hmem k
    have h2 := hout k
    simp only [Finset.mem_sdiff, Finset.mem_union, List.mem_toFinset]
    tauto
  rw [hset] at hreps₂
  have howner : ∀ k ∈ (O.foldl Delta.unput (I.foldl Delta.untake u.delta)).del,
      k ∈ u.delta.del ∨ k ∈ O := by
    intro k hk
    rcases hdel₂ k hk with h1 | h1
    · exact Or.inl (hdel₁ ▸ h1)
    · exact Or.inr h1
  have hold : ∀ k ∈ u.delta.del, k ∈ U ∨
      ∃ t' ∈ t :: undone, RepeatsOutput ids t' ∧ k ∈ t'.outputs (ids.txnId t') := by
    intro k hk
    rcases h.real k hk with h1 | ⟨t', ht', h1⟩
    · exact Or.inl h1
    · exact Or.inr ⟨t', List.mem_cons_of_mem _ ht', h1⟩
  refine ⟨hreps₂, fun k hk => ?_, fun k hk => ?_⟩
  · by_cases hOnd : O.Nodup
    · have hall : ∀ j ∈ O, j ∈ S₀ \ I.toFinset ∪ O.toFinset ∪ I.toFinset := by
        intro j hj
        simp [hj]
      rcases hreps₁.unputs_del hOnd hall k hk with h1 | h1
      · exact hold k (hdel₁ ▸ h1)
      · exact Or.inl h1
    · rcases howner k hk with h1 | h1
      · exact hold k h1
      · exact Or.inr ⟨t, List.mem_cons_self .., hOnd, h1⟩
  · left
    rcases howner k hk with h1 | h1
    · exact List.mem_cons_of_mem _ ((h.owner k h1).resolve_right (by simp [txnIds]))
    · rw [BitcoinTxn.outputs_fst h1]
      exact List.mem_cons_self ..

/-- Undoing the end of a chain, last transaction first. -/
theorem Tracks.undo {U S₀ : Finset Utxo} {prior xs : List BitcoinTxn}
    (hprior : replay ids ∅ prior = some S₀) :
    ∀ {S : Finset Utxo} {undone : List BitcoinTxn} {u : Undo},
      (txnIds ids (prior ++ xs ++ undone)).Nodup → replay ids S₀ xs = some S →
      Tracks ids U undone [] u.delta S →
      Tracks ids U (xs ++ undone) [] (xs.reverse.foldl (Bitcoin.undoTxn ids) u).delta S₀ := by
  induction xs using List.reverseRecOn with
  | nil =>
    intro S undone u _ hS h
    have : S₀ = S := Option.some.inj hS
    exact this ▸ h
  | append_singleton xs t ih =>
    intro S undone u hnd hS h
    obtain ⟨T, hT, ht⟩ := replay_append_eq_some.mp hS
    rw [replay_singleton] at ht
    have hprior' : replay ids ∅ (prior ++ xs) = some T :=
      replay_append_eq_some.mpr ⟨S₀, hprior, hT⟩
    have hassoc : prior ++ (xs ++ [t]) ++ undone = (prior ++ xs) ++ t :: undone := by simp
    rw [hassoc] at hnd
    have hone := Tracks.undoTxn hnd hprior' ht h
    rw [List.reverse_append, List.append_assoc]
    exact ih (by simpa using hnd) hT hone

/-! ## Redo -/

section Redo

variable {U S : Finset Utxo} {undone done : List BitcoinTxn}

/-- Redoing one transaction succeeds iff it can be replayed and its script
succeeds. -/
theorem Tracks.redoTxn {r : Redo} {t : BitcoinTxn} (hdone : replay ids ∅ done = some S)
    (hfresh : ids.txnId t ∉ txnIds ids done)
    (hcare : t ∈ undone → RepeatsOutput ids t → ∀ k ∈ t.outputs (ids.txnId t), k ∉ U)
    (h : Tracks ids U undone done r.delta S) :
    (∀ r', redoTxn ids U r t = some r' →
      ∃ S', replayTxn ids S t = some S' ∧ t.scriptOk ∧
        Tracks ids U undone (done ++ [t]) r'.delta S') ∧
    (∀ S', replayTxn ids S t = some S' → t.scriptOk → ∃ r', redoTxn ids U r t = some r') := by
  set I := t.inputs with hI
  set O := t.outputs (ids.txnId t) with hO
  have hmade : ∀ k ∈ S, k.1 ∈ txnIds ids done := fun k hk =>
    (made_of_replay hdone k hk).resolve_left (by simp)
  constructor
  · intro r' hr'
    obtain ⟨d, hd, hr'⟩ := Option.bind_eq_some_iff.mp hr'
    by_cases hscript : t.scriptOk = true
    · rw [if_pos hscript] at hr'
      obtain ⟨hnd, hmem⟩ := h.reps.takes_inv hd
      obtain ⟨d', hd', hreps, hdel⟩ := h.reps.takes hnd hmem
      rw [hd, Option.some.injEq] at hd'
      subst hd'
      rw [← Option.some.inj hr']
      refine ⟨_, replayTxn_eq_some.mpr ⟨hnd, hmem, rfl⟩, hscript, ?_⟩
      -- after consuming the inputs
      have howner : ∀ k ∈ d.del, k.1 ∈ txnIds ids undone ∨ k.1 ∈ txnIds ids done := by
        intro k hk
        rcases hdel k hk with h1 | h1
        · exact h.owner k h1
        · exact Or.inr (hmade k (hmem k h1.1))
      have hreal : ∀ k ∈ d.del, k ∈ U ∨
          ∃ t ∈ undone, RepeatsOutput ids t ∧ k ∈ t.outputs (ids.txnId t) := by
        intro k hk
        rcases hdel k hk with h1 | h1
        · exact h.real k h1
        · exact Or.inl h1.2
      -- a deleted output of `t` was deleted by undoing `t` itself
      have hundone : ∀ k ∈ O, k ∈ d.del → t ∈ undone := by
        intro k hk hkd
        have h1 := howner k hkd
        rw [BitcoinTxn.outputs_fst hk] at h1
        exact mem_txnIds.mp (h1.resolve_right hfresh)
      have hout : ∀ k ∈ O, k ∉ S \ I.toFinset := by
        intro k hk hkS
        have h1 := hmade k (Finset.mem_sdiff.mp hkS).1
        rw [BitcoinTxn.outputs_fst hk] at h1
        exact hfresh h1
      have hreps' : (O.foldl Delta.put d).Reps U (S \ I.toFinset ∪ O.toFinset) := by
        rcases BitcoinTxn.outputs_cases (ids.txnId t) t with hOnd | ⟨k, hk⟩
        · refine hreps.puts hOnd fun k hk => ⟨hout k hk, fun hkd => ?_⟩
          rcases hreal k hkd with h1 | ⟨t', -, hrep, hk'⟩
          · exact h1
          · have he : t' = t := by
              apply ids.txnId_inj
              rw [← BitcoinTxn.outputs_fst hk', BitcoinTxn.outputs_fst hk]
            exact absurd hOnd (he ▸ hrep)
        · have hkO : k ∈ O := by simp [hO, hk]
          have hrep : RepeatsOutput ids t := by
            unfold RepeatsOutput
            simp [hk]
          have hset : S \ I.toFinset ∪ O.toFinset = insert k (S \ I.toFinset) := by
            ext j
            simp [hO, hk]
          rw [hset]
          have := hreps.put_put (hout k hkO) fun hkd => hcare (hundone k hkO hkd) hrep k hkO
          rw [hO, hk]
          exact this
      refine ⟨hreps', fun k hk => hreal k (Delta.puts_del_subset _ _ hk), fun k hk => ?_⟩
      rcases howner k (Delta.puts_del_subset _ _ hk) with h1 | h1
      · exact Or.inl h1
      · exact Or.inr (by rw [txnIds_append]; exact List.mem_append_left _ h1)
    · rw [if_neg hscript] at hr'
      exact absurd hr' (by simp)
  · intro S' hS' hscript
    obtain ⟨hnd, hmem, -⟩ := replayTxn_eq_some.mp hS'
    obtain ⟨d, hd, -, -⟩ := h.reps.takes hnd hmem
    unfold Bitcoin.redoTxn
    rw [hd, Option.bind_some, if_pos hscript]
    exact ⟨_, rfl⟩

/-- Redoing a list of transactions, one by one. -/
theorem Tracks.redo {xs : List BitcoinTxn} :
    ∀ {r : Redo} {done : List BitcoinTxn} {S : Finset Utxo}, replay ids ∅ done = some S →
      (txnIds ids (done ++ xs)).Nodup → ¬ Repays ids U undone xs →
      Tracks ids U undone done r.delta S →
      (∀ r', xs.foldlM (Bitcoin.redoTxn ids U) r = some r' →
        ∃ S', replay ids S xs = some S' ∧ (∀ t ∈ xs, t.scriptOk) ∧
          Tracks ids U undone (done ++ xs) r'.delta S') ∧
      (∀ S', replay ids S xs = some S' → (∀ t ∈ xs, t.scriptOk) →
        ∃ r', xs.foldlM (Bitcoin.redoTxn ids U) r = some r') := by
  induction xs with
  | nil =>
    intro r done S _ _ _ h
    refine ⟨fun r' hr' => ⟨S, rfl, by simp, ?_⟩, fun _ _ _ => ⟨r, rfl⟩⟩
    have : r = r' := Option.some.inj hr'
    rw [List.append_nil, ← this]
    exact h
  | cons t xs ih =>
    intro r done S hdone hnd hcare h
    have hassoc : done ++ t :: xs = (done ++ [t]) ++ xs := by simp
    have hfresh : ids.txnId t ∉ txnIds ids done := by
      intro hx
      rw [txnIds_append] at hnd
      exact (List.nodup_append.mp hnd).2.2 _ hx _ (by simp [txnIds]) rfl
    have hcare₁ : t ∈ undone → RepeatsOutput ids t → ∀ k ∈ t.outputs (ids.txnId t), k ∉ U :=
      fun ht hrep k hk hkU => hcare ⟨t, ht, List.mem_cons_self .., hrep, k, hk, hkU⟩
    have hcare₂ : ¬ Repays ids U undone xs := by
      intro hrepays
      obtain ⟨t', h1, h2, h3⟩ := hrepays
      exact hcare ⟨t', h1, List.mem_cons_of_mem _ h2, h3⟩
    obtain ⟨hfwd, hbwd⟩ := Tracks.redoTxn hdone hfresh hcare₁ h
    rw [hassoc] at hnd
    constructor
    · intro r' hr'
      rw [List.foldlM_cons] at hr'
      obtain ⟨r₁, hr₁, hrest⟩ := Option.bind_eq_some_iff.mp hr'
      obtain ⟨S₁, hS₁, hscript, htr⟩ := hfwd r₁ hr₁
      have hdone₁ : replay ids ∅ (done ++ [t]) = some S₁ :=
        replay_append_eq_some.mpr ⟨S, hdone, replay_singleton.trans hS₁⟩
      obtain ⟨S', hS', hscripts, htr'⟩ := (ih hdone₁ hnd hcare₂ htr).1 r' hrest
      refine ⟨S', replay_cons_eq_some.mpr ⟨S₁, hS₁, hS'⟩, ?_, hassoc ▸ htr'⟩
      intro t' ht'
      rcases List.mem_cons.mp ht' with rfl | ht'
      · exact hscript
      · exact hscripts t' ht'
    · intro S' hS' hscripts
      obtain ⟨S₁, hS₁, hrest⟩ := replay_cons_eq_some.mp hS'
      obtain ⟨r₁, hr₁⟩ := hbwd S₁ hS₁ (hscripts t (List.mem_cons_self ..))
      obtain ⟨S₁', hS₁', -, htr⟩ := hfwd r₁ hr₁
      rw [hS₁, Option.some.injEq] at hS₁'
      subst hS₁'
      have hdone₁ : replay ids ∅ (done ++ [t]) = some S₁ :=
        replay_append_eq_some.mpr ⟨S, hdone, replay_singleton.trans hS₁⟩
      obtain ⟨r', hr'⟩ := (ih hdone₁ hnd hcare₂ htr).2 S' hrest
        fun t' ht' => hscripts t' (List.mem_cons_of_mem _ ht')
      refine ⟨r', ?_⟩
      rw [List.foldlM_cons, hr₁]
      exact hr'

end Redo

/-! ## A whole branch -/

theorem undoChain_eq (old : List Block) :
    undoChain ids old.reverse =
      (chainTxns old).reverse.foldl (undoTxn ids) { delta := ⟨∅, ∅⟩, undoTxns := ∅ } := by
  unfold undoChain
  generalize ({ delta := ⟨∅, ∅⟩, undoTxns := ∅ } : Undo) = u
  induction old using List.reverseRecOn generalizing u with
  | nil => rfl
  | append_singleton old b ih =>
    rw [List.reverse_append, List.foldl_append, chainTxns_append, List.reverse_append,
      List.foldl_append, chainTxns_singleton]
    exact ih _

theorem redoChain_eq (U : Finset Utxo) (new : List Block) : ∀ r : Redo,
    redoChain ids U r new = (chainTxns new).foldlM (redoTxn ids U) r := by
  induction new with
  | nil => intro r; rfl
  | cons b new ih =>
    intro r
    have hsplit : chainTxns (b :: new) = b.txns ++ chainTxns new := by
      simp [chainTxns]
    unfold redoChain
    rw [List.foldlM_cons, hsplit, List.foldlM_append]
    congr 1
    funext r'
    exact ih r'

/-- **A reorganisation computes what a replay of the new branch would.** -/
theorem redoBranch_spec {U : Finset Utxo} (anc new old : List Block)
    (hold : replay ids ∅ (chainTxns (anc ++ old)) = some U)
    (hndold : (txnIds ids (chainTxns (anc ++ old))).Nodup)
    (hndnew : (txnIds ids (chainTxns (anc ++ new))).Nodup)
    (hcare : ¬ Repays ids U (chainTxns old) (chainTxns new)) :
    (∀ rd, redoBranch ids U old new = some rd →
      replay ids ∅ (chainTxns (anc ++ new)) = some ((U ∪ rd.delta.add) \ rd.delta.del)) ∧
    (∀ S, replay ids ∅ (chainTxns (anc ++ new)) = some S → (∀ t ∈ chainTxns new, t.scriptOk) →
      ∃ rd, redoBranch ids U old new = some rd) := by
  rw [chainTxns_append] at hold hndold hndnew ⊢
  obtain ⟨A, hA, hAold⟩ := replay_append_eq_some.mp hold
  have hstart : Tracks ids U [] [] (⟨∅, ∅⟩ : Delta Utxo) U :=
    ⟨Delta.reps_empty U, by simp, by simp⟩
  have hundo := Tracks.undo (u := { delta := ⟨∅, ∅⟩, undoTxns := ∅ }) hA
    (by simpa using hndold) hAold hstart
  rw [← undoChain_eq, List.append_nil] at hundo
  have hundo' : Tracks ids U (chainTxns old) (chainTxns anc) (undoChain ids old.reverse).delta A :=
    ⟨hundo.reps, hundo.real,
      fun k hk => Or.inl ((hundo.owner k hk).resolve_right (by simp [txnIds]))⟩
  obtain ⟨hfwd, hbwd⟩ := Tracks.redo
    (r := ⟨(undoChain ids old.reverse).delta, (undoChain ids old.reverse).undoTxns, ∅⟩)
    hA hndnew hcare hundo'
  unfold redoBranch
  dsimp only
  rw [redoChain_eq]
  constructor
  · intro rd hrd
    obtain ⟨S', hS', -, htr⟩ := hfwd rd hrd
    rw [htr.reps.merge]
    exact replay_append_eq_some.mpr ⟨A, hA, hS'⟩
  · intro S hS hscripts
    obtain ⟨A', hA', hnew⟩ := replay_append_eq_some.mp hS
    rw [hA, Option.some.injEq] at hA'
    subst hA'
    exact hbwd S hnew hscripts

end Copycat.Bitcoin
