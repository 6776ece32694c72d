import Copycat.Avalanche.Preference

/-!
# The walks return

Every walk of the decision stage ends, and none of the lookups it makes in the
maps of the ledger fails. The recursive walks follow parents, whose rank falls;
the worklist of `invalidate` follows children without remembering where it has
been, and ends because the DAG has no cycles: each transaction weighs more than
its children together. A query changes the DAG while it is being walked, but
only by taking transactions out (`Below`), so the weights of the DAG as it was
at the start remain good.
-/

namespace Copycat.Avalanche

open Copycat.Lib

variable {C : Type} {cfg : Config C}

/-! ## Weights -/

/-- A DAG with some of the transactions of another. -/
def Below (dag dag₀ : TxnDag) : Prop :=
  ∀ x, dag x = dag₀ x ∨ dag x = none

theorem Below.refl (dag : TxnDag) : Below dag dag :=
  fun _ => Or.inl rfl

/-- Dropping committed transactions only takes nodes and edges away. -/
theorem Shrinks.below {l l' : Ledger C} {gone : List Hash} {dag₀ : TxnDag}
    (h : Shrinks l l' gone) (hb : Below l.txnDag dag₀) : Below l'.txnDag dag₀ := by
  intro x
  rcases h x with he | ⟨he, -⟩
  · rw [he]
    exact hb x
  · exact Or.inr he

/-- A weight that falls along the edges of the larger DAG falls along those of
the smaller one. -/
theorem Below.down_weight {dag dag₀ : TxnDag} (h : Below dag dag₀) {w : Hash → Nat}
    (hw : ∀ a, ((down dag₀ a).map w).sum < w a) : ∀ a, ((down dag a).map w).sum < w a := by
  intro a
  have := hw a
  rcases h a with he | he
  · unfold down at this ⊢
    rwa [he]
  · simp [down, he]
    omega

/-- The same upwards, along the edges to the parents. -/
theorem Below.up_weight {dag dag₀ : TxnDag} (h : Below dag dag₀) {w : Hash → Nat}
    (hw : ∀ a, ((up dag₀ a).map w).sum < w a) : ∀ a, ((up dag a).map w).sum < w a := by
  intro a
  have := hw a
  rcases h a with he | he
  · unfold up at this ⊢
    rwa [he]
  · simp [up, he]
    omega

/-- The children of a transaction were made after it, and there is a last one. -/
theorem LedgerInv.exists_down_weight {ids : TxnIds} {l : Ledger C} (hinv : LedgerInv ids l) :
    ∃ w : Hash → Nat, ∀ a, ((down l.txnDag a).map w).sum < w a := by
  obtain ⟨B, hB⟩ := hinv.bounded
  refine exists_weight (m := fun h => B - ids.rank h) fun a b hb => ?_
  cases hn : l.txnDag a with
  | none => exact absurd hb (by simp [down, hn])
  | some node =>
    rw [down_some hn] at hb
    obtain ⟨txn, -, -, hchild⟩ := hinv.node a node hn
    obtain ⟨txn', ht', hpar⟩ := hchild b hb
    have hlt := ids.rank_parent txn' a hpar
    rw [(hinv.keyed b txn' ht').1] at hlt
    have hbound := hB b txn' ht'
    show B - ids.rank b < B - ids.rank a
    omega

/-- The walk over the offspring ends: each round takes a transaction off the
frontier and puts its children there, which weigh less together. -/
theorem invalidate_returns {dag : TxnDag} {w : Hash → Nat}
    (hw : ∀ a, ((down dag a).map w).sum < w a) :
    ∀ {fuel : Nat} (cache : PrefCache) {frontier : List Hash}, (frontier.map w).sum ≤ fuel →
      ∃ cache', invalidate dag fuel cache frontier = .ok cache' := by
  intro fuel
  induction fuel with
  | zero =>
    intro cache frontier hle
    cases frontier with
    | nil => exact ⟨cache, rfl⟩
    | cons h rest =>
      have := hw h
      rw [List.map_cons, List.sum_cons] at hle
      omega
  | succ fuel ih =>
    intro cache frontier hle
    cases frontier with
    | nil => exact ⟨cache, rfl⟩
    | cons h rest =>
      have hlt := drain_lt hw h rest
      rw [invalidate]
      cases hn : dag h with
      | none =>
        rw [show down dag h = [] by simp [down, hn], List.append_nil] at hlt
        exact ih _ (by omega)
      | some node =>
        rw [down_some hn] at hlt
        exact ih _ (by omega)

/-! ## A successful query -/

/-- A comparison returns because the preferred transaction still has a
confidence; the preference stays or goes to `h`. -/
theorem switchPref_returns {l : Ledger C} {w : Hash → Nat}
    (hw : ∀ a, ((down l.txnDag a).map w).sum < w a) {fuel : Nat} {h : Hash} (score : Nat)
    (cache : PrefCache) {ct : ConflictSet C} (hfuel : 2 * w h ≤ fuel)
    (hpref : l.confidence ct.pref ≠ none) :
    ∃ r, switchPref fuel l h score cache ct = .ok r ∧ (r.1.pref = ct.pref ∨ r.1.pref = h) := by
  unfold switchPref
  split
  · exact ⟨_, rfl, Or.inl rfl⟩
  · obtain ⟨n, hn⟩ := Option.ne_none_iff_exists'.mp hpref
    rw [hn]
    show ∃ r, (if n < score then _ else _) = Except.ok r ∧ _
    split
    · have hsum : (([h, h] : List Hash).map w).sum ≤ fuel := by
        simp
        omega
      obtain ⟨cache', hc⟩ := invalidate_returns hw cache hsum
      refine ⟨({ ct with pref := h }, cache'), ?_, Or.inr rfl⟩
      show (invalidate l.txnDag fuel cache [h, h] >>= _) = _
      rw [hc]
      rfl
    · exact ⟨_, rfl, Or.inl rfl⟩

/-- One input of a `Send` is raised in the conflict set that the map has for it. -/
theorem bumpInput_returns {l : Ledger C} {w : Hash → Nat}
    (hw : ∀ a, ((down l.txnDag a).map w).sum < w a) {fuel : Nat} {h : Hash} (score : Nat)
    {t : Tally C} {u : Utxo} {ct : ConflictSet C} (hct : t.conflictSets u = some ct)
    (hfuel : 2 * w h ≤ fuel) (hpref : l.confidence ct.pref ≠ none) :
    ∃ t' ct', bumpInput cfg fuel l h score t u = .ok t' ∧
      t'.conflictSets = Function.update t.conflictSets u (some ct') ∧
      (ct'.pref = ct.pref ∨ ct'.pref = h) := by
  obtain ⟨⟨ct', cache'⟩, hs, hp⟩ := switchPref_returns hw score t.preferenceCache hfuel hpref
  refine ⟨⟨Function.update t.conflictSets u (some { ct' with ctr := cfg.rule.bump h ct'.ctr }),
    cache', t.hasConflicts || ct'.hasConflicts,
    cfg.rule.tally score (cfg.rule.bump h ct'.ctr) t.count⟩, _, ?_, rfl, hp⟩
  unfold bumpInput
  rw [hct, bind_eq_ok]
  refine ⟨ct, rfl, ?_⟩
  rw [hs]
  rfl

/-- A bump returns: every input of a pooled `Send` has a conflict set, and the
transaction preferred there has a confidence. -/
theorem bump_returns (slot : Slot) {l : Ledger C} (hinv : LedgerInv cfg.ids l) {w : Hash → Nat}
    (hw : ∀ a, ((down l.txnDag a).map w).sum < w a) {fuel : Nat} {h : Hash} {txn : AvalancheTxn}
    (ht : l.txnPool h = some txn) (hfuel : 2 * w h ≤ fuel) (node : DagNode) :
    ∃ r, bump cfg slot fuel l h node = .ok r := by
  obtain ⟨n, hn⟩ := hinv.counted h txn ht
  have hph := (hinv.keyed h txn ht).2
  -- the preferred transaction of every conflict set has a confidence
  have hconf : ∀ x, l.txnPool x ≠ none → (raised l h (n + 1)).confidence x ≠ none := by
    intro x hx
    obtain ⟨tx, htx⟩ := Option.ne_none_iff_exists'.mp hx
    obtain ⟨m, hm⟩ := hinv.counted x tx htx
    show Function.update l.confidence h (some (n + 1)) x ≠ none
    by_cases hxh : x = h
    · simp [hxh]
    · simp [Function.update_of_ne hxh, hm]
  have hloop : ∃ t, txn.utxos.foldlM (bumpInput cfg fuel (raised l h (n + 1)) h (n + 1))
      ⟨l.conflictSets, l.preferenceCache, false, cfg.rule.start (n + 1)⟩ = .ok t ∧
      ∀ u ∈ txn.utxos, ∃ ct, t.conflictSets u = some ct ∧
        (raised l h (n + 1)).confidence ct.pref ≠ none := by
    refine foldlM_returns (fun t : Tally C => ∀ u ∈ txn.utxos, ∃ ct, t.conflictSets u = some ct ∧
      (raised l h (n + 1)).confidence ct.pref ≠ none) ?_ ?_
    · intro t u hu hP
      obtain ⟨ct, hct, hpref⟩ := hP u hu
      obtain ⟨t', ct', ht', hsets, hp⟩ := bumpInput_returns (l := raised l h (n + 1)) hw (n + 1)
        hct hfuel hpref
      refine ⟨t', ht', fun v hv => ?_⟩
      rw [hsets]
      by_cases hvu : v = u
      · subst hvu
        refine ⟨ct', Function.update_self .., ?_⟩
        rcases hp with hp | hp
        · rw [hp]
          exact hpref
        · rw [hp]
          exact hconf h (by simp [ht])
      · rw [Function.update_of_ne hvu]
        exact hP v hv
    · intro u hu
      obtain ⟨ct, hct⟩ := hinv.entered h txn ht u hu
      obtain ⟨tx, htx, -⟩ := hinv.pref u ct hct
      exact ⟨ct, hct, hconf _ (by simp [htx])⟩
  obtain ⟨t, hfold, -⟩ := hloop
  unfold bump
  rw [hn]
  show ∃ r, (unwrap (l.txnPool h) >>= _) = Except.ok r
  rw [ht]
  cases txn with
  | placeHolder => exact absurd rfl hph
  | send => exact ⟨_, bind_eq_ok.mpr ⟨_, rfl, bind_eq_ok.mpr ⟨t, hfold, rfl⟩⟩⟩
  | grant => exact ⟨_, bind_eq_ok.mpr ⟨_, rfl, bind_eq_ok.mpr ⟨t, hfold, rfl⟩⟩⟩
  | noop => exact ⟨_, bind_eq_ok.mpr ⟨_, rfl, bind_eq_ok.mpr ⟨t, hfold, rfl⟩⟩⟩

/-- The walk of a successful query, on every ledger below a given DAG: the rank
of a transaction bounds the depth, and at each level there is fuel enough for
the cache. -/
theorem handleVotesHelper_returns (cfg : Config C) (slot : Slot) {dag₀ : TxnDag} {w : Hash → Nat}
    (hrank : ∀ a, ∀ b ∈ up dag₀ a, cfg.ids.rank b < cfg.ids.rank a)
    (hw : ∀ a, ((down dag₀ a).map w).sum < w a) :
    ∀ h, ∃ N, ∀ fuel, N ≤ fuel → ∀ (l : Ledger C) (D : Finset Hash), LedgerInv cfg.ids l →
      Below l.txnDag dag₀ → ∃ r, handleVotesHelper cfg slot fuel l D h = .ok r := by
  intro h
  induction hr : cfg.ids.rank h using Nat.strongRecOn generalizing h with
  | _ r ih =>
    obtain ⟨M, hM⟩ := enough_fuel (l := up dag₀ h) fun p hp =>
      ih (cfg.ids.rank p) (hr ▸ hrank h p hp) p rfl
    refine ⟨max M (2 * w h) + 1, fun fuel hfuel l D hinv hbelow => ?_⟩
    obtain ⟨fuel, rfl⟩ : ∃ f, fuel = f + 1 := ⟨fuel - 1, by omega⟩
    rw [handleVotesHelper]
    split
    · exact ⟨_, rfl⟩
    · cases hn : l.txnDag h with
      | none => exact ⟨_, rfl⟩
      | some node =>
        obtain ⟨txn, ht, -⟩ := hinv.node h node hn
        have hup : up dag₀ h = node.parents := by
          rcases hbelow h with he | he
          · exact up_some (he ▸ hn)
          · rw [hn] at he
            exact absurd he (by simp)
        -- the parents
        obtain ⟨⟨l₁, D₁, c₁⟩, hfold, hinv₁, hbelow₁, ht₁⟩ := foldlM_returns
          (f := fun (acc : Ledger C × Finset Hash × List Hash) parent =>
            handleVotesHelper cfg slot fuel acc.1 acc.2.1 parent >>= fun r =>
            .ok (r.1, r.2.1, acc.2.2 ++ r.2.2))
          (fun acc : Ledger C × Finset Hash × List Hash => LedgerInv cfg.ids acc.1 ∧
            Below acc.1.txnDag dag₀ ∧ acc.1.txnPool h = some txn) (l := node.parents) (by
            rintro ⟨l₁, D₁, c₁⟩ p hp ⟨hi, hb, hpool⟩
            obtain ⟨⟨l₂, D₂, c₂⟩, hcall⟩ := hM fuel (by omega) p (hup ▸ hp) l₁ D₁ hi hb
            obtain ⟨ops, hwalk⟩ := handleVotesHelper_spec hcall
            refine ⟨(l₂, D₂, c₁ ++ c₂), bind_eq_ok.mpr ⟨_, hcall, rfl⟩, ?_, ?_, ?_⟩
            · exact ledgerInv_ops hwalk.path hi
            · exact hwalk.shrinks.below hb
            · rw [← hpool]
              exact congrFun hwalk.pool h)
          (b := (l, insert h D, [])) ⟨hinv, hbelow, ht⟩
        obtain ⟨⟨l₂, accepted⟩, hbump⟩ := bump_returns slot hinv₁
          (hbelow₁.down_weight hw) ht₁ (show 2 * w h ≤ fuel by omega) node
        cases accepted with
        | true =>
          exact ⟨_, bind_eq_ok.mpr ⟨_, hfold, bind_eq_ok.mpr ⟨_, hbump, rfl⟩⟩⟩
        | false =>
          exact ⟨_, bind_eq_ok.mpr ⟨_, hfold, bind_eq_ok.mpr ⟨_, hbump, rfl⟩⟩⟩

/-! ## A failed query -/

/-- A reset looks up the same conflict sets, so it returns too. -/
theorem resetTxn_returns {l : Ledger C} (hinv : LedgerInv cfg.ids l) (reset : C → C) (slot : Slot)
    {h : Hash} {txn : AvalancheTxn} (ht : l.txnPool h = some txn) :
    ∃ l', resetTxn reset slot l h = .ok l' := by
  obtain ⟨sets, hsets, -⟩ := foldlM_returns
    (f := fun (sets : Utxo → Option (ConflictSet C)) utxo => unwrap (sets utxo) >>= fun ct =>
      .ok (Function.update sets utxo (some { ct with ctr := reset ct.ctr })))
    (fun sets => ∀ u ∈ txn.utxos, sets u ≠ none) (l := txn.utxos) (by
      intro sets u hu hP
      obtain ⟨ct, hct⟩ := Option.ne_none_iff_exists'.mp (hP u hu)
      refine ⟨_, bind_eq_ok.mpr ⟨ct, unwrap_eq_ok.mpr hct, rfl⟩, fun v hv => ?_⟩
      by_cases hvu : v = u
      · simp [hvu]
      · rw [Function.update_of_ne hvu]
        exact hP v hv)
    (b := l.conflictSets) (fun u hu => by
      obtain ⟨ct, hct⟩ := hinv.entered h txn ht u hu
      simp [hct])
  exact ⟨_, bind_eq_ok.mpr ⟨txn, unwrap_eq_ok.mpr ht, bind_eq_ok.mpr ⟨sets, hsets, rfl⟩⟩⟩

/-- The walk of a failed vote goes to the parents, and ends as the one to the
offspring does. -/
theorem resetWalk_returns {slot : Slot} {reset : C → C} (hrule : cfg.rule.reset = some reset)
    {w : Hash → Nat} : ∀ {fuel : Nat} {l : Ledger C} {D : Finset Hash} {frontier : List Hash},
      LedgerInv cfg.ids l → (∀ a, ((up l.txnDag a).map w).sum < w a) →
      (frontier.map w).sum ≤ fuel →
      ∃ l', resetWalk reset slot fuel l D frontier = .ok l' := by
  intro fuel
  induction fuel with
  | zero =>
    intro l D frontier hinv hw hle
    cases frontier with
    | nil => exact ⟨l, rfl⟩
    | cons h rest =>
      have := hw h
      rw [List.map_cons, List.sum_cons] at hle
      omega
  | succ fuel ih =>
    intro l D frontier hinv hw hle
    cases frontier with
    | nil => exact ⟨l, rfl⟩
    | cons h rest =>
      have hlt := drain_lt hw h rest
      have hrest : (rest.map w).sum ≤ fuel := by
        rw [List.map_cons, List.sum_cons] at hle
        have := hw h
        omega
      rw [resetWalk]
      split
      · exact ih hinv hw hrest
      · cases hn : l.txnDag h with
        | none => exact ih hinv hw hrest
        | some node =>
          obtain ⟨txn, ht, -⟩ := hinv.node h node hn
          obtain ⟨l₁, hl₁⟩ := resetTxn_returns hinv reset slot ht
          have hinv₁ : LedgerInv cfg.ids l₁ :=
            ledgerInv_op hinv (.reset hrule (by simp [hn]) hl₁)
          have hdag : l₁.txnDag = l.txnDag := by
            obtain ⟨-, sets, -, rfl, -⟩ := resetTxn_spec hl₁
            rfl
          rw [up_some hn] at hlt
          have hnext : ∃ l', resetWalk reset slot fuel l₁ (insert h D) (rest ++ node.parents) =
              .ok l' := ih hinv₁ (by rw [hdag]; exact hw) (by omega)
          obtain ⟨l', hl'⟩ := hnext
          exact ⟨l', bind_eq_ok.mpr ⟨l₁, hl₁, hl'⟩⟩

/-! ## The slots of a block -/

/-- A slot is decided, on every ledger below a given DAG. -/
theorem decideSlot_returns {l₀ : Ledger C} (hinv₀ : LedgerInv cfg.ids l₀) (slot : Slot) (h : Hash)
    (votes : Nat) :
    ∃ N, ∀ fuel, N ≤ fuel → ∀ l : Ledger C, LedgerInv cfg.ids l → Below l.txnDag l₀.txnDag →
      ∃ r, decideSlot cfg fuel slot l h votes = .ok r := by
  obtain ⟨w, hw⟩ := hinv₀.exists_down_weight
  obtain ⟨w', hw'⟩ := exists_weight hinv₀.rank_up
  obtain ⟨N, hN⟩ := handleVotesHelper_returns cfg slot hinv₀.rank_up hw h
  refine ⟨max N (w' h), fun fuel hfuel l hinv hbelow => ?_⟩
  have hinv' : LedgerInv cfg.ids { l with history := l.history ++ [.ask slot h votes] } :=
    ledgerInv_op hinv .ask
  unfold decideSlot
  dsimp only
  split
  · obtain ⟨r, hr⟩ := hN fuel (by omega) _ ∅ hinv' hbelow
    exact ⟨_, bind_eq_ok.mpr ⟨r, hr, rfl⟩⟩
  · cases hrule : cfg.rule.reset with
    | none => exact ⟨_, rfl⟩
    | some reset =>
      have hsum : (([h] : List Hash).map w').sum ≤ fuel := by
        simp
        omega
      obtain ⟨l', hl'⟩ := resetWalk_returns hrule hinv' (hbelow.up_weight hw') hsum
      exact ⟨_, bind_eq_ok.mpr ⟨l', hl', rfl⟩⟩

/-- The loop of `handle_votes` returns. -/
theorem handleSlots_returns {l₀ : Ledger C} (hinv₀ : LedgerInv cfg.ids l₀) (blkId : Nat)
    (slots : List ((Option Hash × Nat) × Nat)) :
    ∃ N, ∀ fuel, N ≤ fuel → ∃ r, slots.foldlM (handleSlot cfg fuel blkId) (l₀, []) = .ok r := by
  obtain ⟨N, hN⟩ := enough_fuel (l := slots) (Q := fun x fuel => ∀ l : Ledger C,
      LedgerInv cfg.ids l → Below l.txnDag l₀.txnDag → ∀ h, x.1.1 = some h →
      ∃ r, decideSlot cfg fuel (blkId, x.2) l h x.1.2 = .ok r) (by
    rintro ⟨⟨q, votes⟩, i⟩ -
    cases q with
    | none => exact ⟨0, fun _ _ _ _ _ h hh => absurd hh (by simp)⟩
    | some h =>
      obtain ⟨N, hN⟩ := decideSlot_returns hinv₀ (blkId, i) h votes
      refine ⟨N, fun fuel hfuel l hl hb h' hh => ?_⟩
      rw [← Option.some.inj hh]
      exact hN fuel hfuel l hl hb)
  refine ⟨N, fun fuel hfuel => ?_⟩
  obtain ⟨r, hr, -⟩ := foldlM_returns (fun acc : Ledger C × List Hash => LedgerInv cfg.ids acc.1 ∧
    Below acc.1.txnDag l₀.txnDag) (f := handleSlot cfg fuel blkId) (l := slots) (by
      rintro ⟨l, c⟩ x hx ⟨hinv, hbelow⟩
      unfold handleSlot
      cases hq : x.1.1 with
      | none => exact ⟨_, rfl, hinv, hbelow⟩
      | some h =>
        obtain ⟨⟨l', c'⟩, hd⟩ := hN fuel hfuel x hx l hinv hbelow h hq
        obtain ⟨ops, hdec⟩ := decideSlot_spec hd
        refine ⟨_, bind_eq_ok.mpr ⟨_, hd, rfl⟩, ?_, ?_⟩
        · exact ledgerInv_ops hdec.path hinv
        · exact hdec.shrinks.below hbelow)
    (b := (l₀, [])) ⟨hinv₀, Below.refl _⟩
  exact ⟨r, hr⟩

/-! ## The transactions of a block -/

/-- More fuel does not change what `new_tail` does with a transaction. -/
theorem newTxn_mono {fuel fuel' : Nat} (hle : fuel ≤ fuel') {b b' : Batch C} {txn : AvalancheTxn}
    (h : newTxn cfg fuel b txn = .ok b') : newTxn cfg fuel' b txn = .ok b' := by
  have hcheck : ∀ {l : Ledger C} {x : Hash} {r : Ledger C × Bool},
      isStronglyPreferred fuel l x = .ok r → isStronglyPreferred fuel' l x = .ok r := by
    intro l x r hs
    unfold isStronglyPreferred at hs ⊢
    rw [bind_eq_ok] at hs ⊢
    obtain ⟨a, ha, hs⟩ := hs
    exact ⟨a, stronglyPreferred_mono hle ha, hs⟩
  unfold newTxn at h ⊢
  cases txn with
  | grant => exact h
  | placeHolder => exact h
  | send =>
    dsimp only at h ⊢
    rw [bind_eq_ok] at h ⊢
    obtain ⟨r, hr, h⟩ := h
    exact ⟨r, hcheck hr, h⟩
  | noop =>
    dsimp only at h ⊢
    rw [bind_eq_ok] at h ⊢
    obtain ⟨r, hr, h⟩ := h
    exact ⟨r, hcheck hr, h⟩

/-- A transaction is taken in with more fuel than its id has rank: the preference
check follows parents only, and the rank falls on the way. -/
theorem newTxn_returns {fuel : Nat} {b : Batch C} {txn : AvalancheTxn}
    (hinv : LedgerInv cfg.ids b.ledger) (hfuel : cfg.ids.rank (cfg.ids.txnId txn) < fuel) :
    ∃ b', newTxn cfg fuel b txn = .ok b' := by
  have hcheck : txn ≠ .placeHolder → ∃ r,
      isStronglyPreferred fuel (recordIfNew cfg b.ledger txn) (cfg.ids.txnId txn) = .ok r := by
    intro hph
    obtain ⟨ops, hops, -⟩ := recordIfNew_ops cfg b.ledger hph
    obtain ⟨⟨c, v⟩, hs⟩ := stronglyPreferred_returns (ledgerInv_ops hops hinv)
      (recordIfNew cfg b.ledger txn).preferenceCache hfuel
    exact ⟨_, isStronglyPreferred_eq hs⟩
  unfold newTxn
  cases txn with
  | grant => exact ⟨_, rfl⟩
  | placeHolder => exact ⟨_, rfl⟩
  | send =>
    obtain ⟨r, hr⟩ := hcheck (by simp)
    exact ⟨_, bind_eq_ok.mpr ⟨r, hr, rfl⟩⟩
  | noop =>
    obtain ⟨r, hr⟩ := hcheck (by simp)
    exact ⟨_, bind_eq_ok.mpr ⟨r, hr, rfl⟩⟩

/-- The loop of `new_tail` returns, and what it returns does not depend on the
fuel. -/
theorem newTxns_returns {l : Ledger C} (hinv : LedgerInv cfg.ids l) (txns : List AvalancheTxn) :
    ∃ N b, ∀ fuel, N ≤ fuel → txns.foldlM (newTxn cfg fuel) ⟨l, [], []⟩ = .ok b := by
  obtain ⟨N, hN⟩ := enough_fuel (l := txns)
    (Q := fun txn fuel => cfg.ids.rank (cfg.ids.txnId txn) < fuel)
    fun txn _ => ⟨cfg.ids.rank (cfg.ids.txnId txn) + 1, fun _ h => h⟩
  obtain ⟨b, hb, -⟩ := foldlM_returns (fun b : Batch C => LedgerInv cfg.ids b.ledger)
    (f := newTxn cfg N) (l := txns) (by
      intro b txn htxn hb
      obtain ⟨b', hb'⟩ := newTxn_returns hb (hN N (Nat.le_refl N) txn htxn)
      obtain ⟨⟨ops, hops, -⟩, -⟩ := newTxn_ops hb'
      exact ⟨b', hb', ledgerInv_ops hops hb⟩) (b := ⟨l, [], []⟩) hinv
  exact ⟨N, b, fun fuel hfuel => foldlM_mono (fun _ _ _ h => newTxn_mono hfuel h) hb⟩

end Copycat.Avalanche
