import Copycat.Bitcoin.Heights

/-!
# What `validate_block` can do

`validate_block` is looked at once. `Outcome` lists everything it can do to a
state that satisfies `ChainInv`, with the branch point of a reorganisation made
explicit: `anc` is the common beginning of the two chains, `old` and `new` what
follows on either side. `validateBlock_spec` proves that a returning call is
one of these, and that the call does return: no `assert!` or `unwrap` fails and
both walk-back loops end. Every later invariant is derived from `Outcome` and
not from the function.

What a caller has to see to about a peer block is asked of `Connectable` blocks
only: any other block leaves the tree and the chain alone.
-/

namespace Copycat.Bitcoin

open Copycat.Lib

variable {ids : IdScheme}

/-- `newTail` branches off the chain of `oldTail` right after `anc` and is
longer. -/
structure Branch (pool : Hash → Option (Block × Nat)) (oldTail newTail : Hash)
    (anc new old : List Block) : Prop where
  newPath : PathTo pool newTail (anc ++ new)
  oldPath : PathTo pool oldTail (anc ++ old)
  apart : Apart new old
  longer : old.length < new.length

/-- The redo loop on a branch, started from the undone old side. -/
def redoBranch (ids : IdScheme) (utxo : Finset Utxo) (old new : List Block) : Option Redo :=
  let undo := undoChain ids old.reverse
  redoChain ids utxo ⟨undo.delta, undo.undoTxns, ∅⟩ new

/-- The deepest descendant is at most as high as the tail, or it lies on a
longer branch, and then the redo loop on that branch decides. -/
theorem tryNewTail_cases (ord : HashOrder) {s : BlockManagement}
    (hinv : PoolInv ids s.toPools) {P Q : List Block}
    {newTail : Hash} {x : Block × Nat} (hQ : PathTo s.blockPool s.chainTail Q)
    (hP : PathTo s.blockPool newTail P) (hx : s.blockPool newTail = some x) :
    (P.length ≤ Q.length ∧
      ∀ fuel, tryNewTail ids ord fuel s newTail P.length = .ok ⟨s, [], none⟩) ∨
    ∃ anc new old, P = anc ++ new ∧ Q = anc ++ old ∧ Apart new old ∧ old.length < new.length ∧
      ∃ m ≤ P.length, ∀ fuel, tryNewTail ids ord fuel s newTail P.length =
        if m < fuel then
          .ok (match redoBranch ids s.utxo old new with
            | none => ⟨s, [], none⟩
            | some r => ⟨moveOver ord s newTail r, new, none⟩)
        else .error .diverge := by
  have hlen := getChainLength_eq hinv hQ
  by_cases hle : P.length ≤ Q.length
  · refine Or.inl ⟨hle, fun fuel => ?_⟩
    rw [tryNewTail, hx, hlen]
    show (if P.length ≤ Q.length then _ else _) = _
    rw [if_pos hle]
  · right
    obtain ⟨b, n⟩ := x
    rcases hP.end_cases with ⟨-, rfl⟩ | ⟨b', n', P', rfl, hb', hP'⟩
    · simp at hle
    · rw [hx, Option.some.injEq, Prod.mk.injEq] at hb'
      obtain ⟨rfl, rfl⟩ := hb'
      rw [List.length_append, List.length_singleton] at hle
      obtain ⟨a, lo, hi, rfl, hlo, hpath, hdesc⟩ :=
        descendTo_eq hinv.keyed hinv.heights Q.length hP' rfl (by omega)
      obtain ⟨anc, new, old, rfl, rfl, hapart, hcommon⟩ :=
        findCommonAncester_eq hinv.keyed hinv.heights rfl hpath hQ hlo
      simp only [List.length_append] at hlo hle
      have hapart' : Apart (new ++ hi ++ [b]) old := by
        intro x new' old' hn ho
        subst ho
        cases new with
        | nil =>
          simp only [List.length_nil, List.length_cons] at hlo
          omega
        | cons y new =>
          simp only [List.cons_append, List.cons.injEq] at hn
          exact hapart x new old' (by rw [hn.1]) rfl
      refine ⟨anc, new ++ hi ++ [b], old, by simp, rfl, hapart', by simp; omega, new.length,
        by simp; omega, fun fuel => ?_⟩
      rw [tryNewTail, hx, hlen]
      show (if (anc ++ new ++ hi ++ [b]).length ≤ (anc ++ old).length then _ else _) = _
      rw [if_neg (by simp; omega)]
      have hpred : (anc ++ new ++ hi ++ [b]).length - 1 = (anc ++ new ++ hi).length := by
        rw [List.length_append, List.length_singleton]
        omega
      rw [hpred, hdesc]
      show (findCommonAncester s.blockPool fuel a s.chainTail _ _ >>= _) = _
      rw [hcommon]
      by_cases hf : new.length < fuel
      · rw [if_pos hf, if_pos hf]
        show (match redoChain ids s.utxo _ _ with | none => _ | some r => _) = _
        have hrev : ([b] ++ hi.reverse ++ new.reverse).reverse = new ++ hi ++ [b] := by simp
        rw [hrev, List.nil_append]
        unfold redoBranch
        cases redoChain ids s.utxo _ _ with
        | none => rfl
        | some r => rfl
      · rw [if_neg hf, if_neg hf]
        rfl

/-- `validate_block` gets as far as connecting the block: it is new, its nonce
is right, its transactions are valid, and its parent is in the tree. -/
structure Connectable (ids : IdScheme) (s : BlockManagement) (block : Block) : Prop where
  fresh : s.blockPool (ids.blkId block.header) = none
  nonce : block.header.nonce = 1
  txns : ∃ txnPool, validateTxns ids s.txnPool block.txns = .ok (txnPool, true)
  pos : 0 < blkHeight s.blockPool block.prev

/-- What the call has established once the block is connected. -/
structure Connects (ids : IdScheme) (s : BlockManagement) (block : Block)
    (txnPool : Hash → Option BitcoinTxn) (r : Pools × Hash × Nat) : Prop where
  fresh : s.blockPool (ids.blkId block.header) = none
  nonce : block.header.nonce = 1
  txns : validateTxns ids s.txnPool block.txns = .ok (txnPool, true)
  pos : 0 < blkHeight s.blockPool block.prev
  updated : Updated s.orphanBlocks
    (connect s.toPools (ids.blkId block.header) block (blkHeight s.blockPool block.prev))
    (ids.blkId block.header) (blkHeight s.blockPool block.prev) r

/-- Everything a returning call of `validate_block` can do. -/
inductive Outcome (ids : IdScheme) (ord : HashOrder) (s : BlockManagement) (block : Block) :
    Validated → Prop
  | ignored :
      (s.blockPool (ids.blkId block.header)).isSome ∨ block.header.nonce ≠ 1 →
      Outcome ids ord s block ⟨s, [], none⟩
  | rejected {txnPool : Hash → Option BitcoinTxn} :
      s.blockPool (ids.blkId block.header) = none →
      validateTxns ids s.txnPool block.txns = .ok (txnPool, false) →
      Outcome ids ord s block ⟨{ s with txnPool := txnPool }, [], none⟩
  | parked {txnPool : Hash → Option BitcoinTxn} {parent : Hash} :
      s.blockPool (ids.blkId block.header) = none →
      validateTxns ids s.txnPool block.txns = .ok (txnPool, true) →
      blkHeight s.blockPool block.prev = 0 →
      Outcome ids ord s block
        ⟨{ s with
            txnPool := txnPool
            blockPool := Function.update s.blockPool (ids.blkId block.header) (some (block, 0))
            orphanBlocks := addOrphan s.orphanBlocks block.prev (ids.blkId block.header) },
          [], some parent⟩
  | shorter {txnPool : Hash → Option BitcoinTxn} {r : Pools × Hash × Nat} {Q : List Block} :
      Connects ids s block txnPool r →
      PathTo r.1.blockPool s.chainTail Q → r.2.2 ≤ Q.length →
      Outcome ids ord s block ⟨{ s with txnPool := txnPool, toPools := r.1 }, [], none⟩
  | invalid {txnPool : Hash → Option BitcoinTxn} {r : Pools × Hash × Nat}
      {anc new old : List Block} :
      Connects ids s block txnPool r →
      Branch r.1.blockPool s.chainTail r.2.1 anc new old →
      redoBranch ids s.utxo old new = none →
      Outcome ids ord s block ⟨{ s with txnPool := txnPool, toPools := r.1 }, [], none⟩
  | adopted {txnPool : Hash → Option BitcoinTxn} {r : Pools × Hash × Nat}
      {anc new old : List Block} {rd : Redo} :
      Connects ids s block txnPool r →
      Branch r.1.blockPool s.chainTail r.2.1 anc new old →
      redoBranch ids s.utxo old new = some rd →
      Outcome ids ord s block
        ⟨moveOver ord { s with txnPool := txnPool, toPools := r.1 } r.2.1 rd, new, none⟩

section Connected

variable {s : BlockManagement} {block : Block} {txnPool : Hash → Option BitcoinTxn}
  {r : Pools × Hash × Nat}

theorem Connects.connectable (hc : Connects ids s block txnPool r) : Connectable ids s block :=
  ⟨hc.fresh, hc.nonce, ⟨txnPool, hc.txns⟩, hc.pos⟩

theorem Connects.pools (hinv : ChainInv ids s) (hc : Connects ids s block txnPool r) :
    PoolInv ids r.1 :=
  hinv.pools.connected hc.fresh rfl hc.pos hc.updated

theorem Connects.extends (hc : Connects ids s block txnPool r) :
    Extends s.blockPool r.1.blockPool :=
  Updated.extends hc.fresh hc.updated

/-- The deepest descendant has its whole path pooled. -/
theorem Connects.tail_path (hinv : ChainInv ids s) (hc : Connects ids s block txnPool r) :
    ∃ P x, PathTo r.1.blockPool r.2.1 P ∧ P.length = r.2.2 ∧ r.1.blockPool r.2.1 = some x := by
  have hp := hc.pools hinv
  obtain ⟨b, hb⟩ := hc.updated.tail_pooled hinv.pools
  obtain ⟨d, _, hd⟩ := hc.updated.tail
  have hpos : 0 < r.2.2 := by
    have := hc.pos
    omega
  obtain ⟨P, hP⟩ := (height_pos_iff hp.keyed hp.heights hb).mp hpos
  exact ⟨P, _, hP, ((hP.height hp.keyed hp.heights hb).1).symm, hb⟩

/-- The connected block is on the path to its deepest descendant. -/
theorem Connects.block_mem (hinv : ChainInv ids s) (hc : Connects ids s block txnPool r)
    {P : List Block} (hP : PathTo r.1.blockPool r.2.1 P) : block ∈ P := by
  have hwalk : ∀ (d : Nat) {z : Hash} {P : List Block},
      Desc (Listed s.orphanBlocks) (ids.blkId block.header) d z → PathTo r.1.blockPool z P →
      block ∈ P := by
    intro d
    induction d with
    | zero =>
      intro z P hd hP
      obtain rfl := Desc.zero_iff.mp hd
      have hroot : r.1.blockPool (ids.blkId block.header) =
          some (block, blkHeight s.blockPool block.prev) := by
        rw [hc.updated.pool_frame _ hinv.pools.not_below_self]
        exact Function.update_self ..
      rcases hP.end_cases with ⟨h0, -⟩ | ⟨b, n, q, rfl, hb, -⟩
      · exact absurd h0 (ids.blkId_ne_zero _)
      · rw [hroot, Option.some.injEq, Prod.mk.injEq] at hb
        rw [← hb.1]
        simp
    | succ d ih =>
      intro z P hd hP
      obtain ⟨y, hy, hyz⟩ := hd.snoc_inv
      obtain ⟨b, hb, rfl⟩ := (hinv.pools.orphans y z).mp hyz
      rcases hP.end_cases with ⟨h0, -⟩ | ⟨b', n, q, rfl, hb', hq⟩
      · exact absurd h0 (hinv.pools.keyed.ne_zero hb)
      · obtain ⟨n', hn'⟩ := hc.extends z b 0 hb
        rw [hb', Option.some.injEq, Prod.mk.injEq] at hn'
        rw [hn'.1] at hq
        exact List.mem_append_left _ (ih hy hq)
  obtain ⟨d, hd, -⟩ := hc.updated.tail
  exact hwalk d hd hP

/-- From the connected state on, the call ends in one of the last three ways. -/
theorem Connects.outcome (ord : HashOrder) (hinv : ChainInv ids s)
    (hc : Connects ids s block txnPool r) :
    ∃ v, Outcome ids ord s block v ∧
      (∀ fuel, r.2.2 < fuel →
        tryNewTail ids ord fuel { s with txnPool := txnPool, toPools := r.1 } r.2.1 r.2.2
          = .ok v) ∧
      ∀ fuel v',
        tryNewTail ids ord fuel { s with txnPool := txnPool, toPools := r.1 } r.2.1 r.2.2
          = .ok v' → v' = v := by
  obtain ⟨Q, hQ⟩ := hinv.tail
  have hQ' : PathTo r.1.blockPool s.chainTail Q := hQ.mono hc.extends
  obtain ⟨P, x, hP, hlen, hx⟩ := hc.tail_path hinv
  rw [← hlen]
  rcases tryNewTail_cases ord (s := { s with txnPool := txnPool, toPools := r.1 })
      (hc.pools hinv) hQ' hP hx with
    ⟨hle, heq⟩ | ⟨anc, new, old, rfl, rfl, hapart, hlt, m, hm, heq⟩
  · refine ⟨_, .shorter hc hQ' (by omega), fun fuel _ => heq fuel, fun fuel v' hv' => ?_⟩
    rw [heq] at hv'
    exact (Except.ok.inj hv').symm
  · have hbr : Branch r.1.blockPool s.chainTail r.2.1 anc new old :=
      ⟨hP, hQ', hapart, hlt⟩
    have hout : ∀ v, Outcome ids ord s block v →
        (match redoBranch ids s.utxo old new with
          | none => (⟨{ s with txnPool := txnPool, toPools := r.1 }, [], none⟩ : Validated)
          | some rd =>
            ⟨moveOver ord { s with txnPool := txnPool, toPools := r.1 } r.2.1 rd, new, none⟩) = v →
        ∃ v, Outcome ids ord s block v ∧
          (∀ fuel, (anc ++ new).length < fuel → tryNewTail ids ord fuel
            { s with txnPool := txnPool, toPools := r.1 } r.2.1 (anc ++ new).length = .ok v) ∧
          ∀ fuel v', tryNewTail ids ord fuel
            { s with txnPool := txnPool, toPools := r.1 } r.2.1 (anc ++ new).length = .ok v' →
            v' = v := by
      intro v hv hmatch
      refine ⟨v, hv, fun fuel hf => ?_, fun fuel v' hv' => ?_⟩
      · rw [heq, if_pos (by omega), ← hmatch]
      · rw [heq] at hv'
        split at hv'
        · rw [← hmatch]
          exact (Except.ok.inj hv').symm
        · exact absurd hv' (by simp)
    cases hrd : redoBranch ids s.utxo old new with
    | none => exact hout _ (.invalid hc hbr hrd) (by rw [hrd])
    | some rd => exact hout _ (.adopted hc hbr hrd) (by rw [hrd])

end Connected

/-- Without an `Incentive` the transaction loop returns. -/
theorem validateTxns_ok (ids : IdScheme) {txns : List BitcoinTxn}
    (hno : ∀ t ∈ txns, t.isIncentive = false) :
    ∀ txnPool, ∃ r, validateTxns ids txnPool txns = .ok r := by
  induction txns with
  | nil => intro txnPool; exact ⟨_, rfl⟩
  | cons t txns ih =>
    intro txnPool
    have ih' := ih (fun t' ht' => hno t' (List.mem_cons_of_mem _ ht'))
    rw [validateTxns]
    split
    · exact ih' txnPool
    · have hv : ∃ valid, validateTxn txnPool t = .ok valid := by
        have ht := hno t (List.mem_cons_self ..)
        cases t with
        | incentive o r => exact absurd ht (by simp [BitcoinTxn.isIncentive])
        | send t => exact ⟨_, rfl⟩
        | grant o r => exact ⟨_, rfl⟩
      obtain ⟨valid, hv⟩ := hv
      rw [hv]
      show ∃ r, (if valid then _ else _) = Except.ok r
      split
      · exact ih' _
      · exact ⟨_, rfl⟩

/-- The call on a newly connected block, for a lawful pool. -/
theorem updateOrphans_connect (ord : HashOrder) {s : Pools} (hinv : PoolInv ids s) {h : Hash}
    {b : Block} (ht : Nat) {B : Nat} (hB : ∀ h b n, s.blockPool h = some (b, n) → ids.rank h < B)
    (hh : ids.rank h < B) (fuel : Nat) :
    (∃ r, updateOrphansAndReturnTail ord fuel (connect s h b ht) h ht = .ok r ∧
      Updated s.orphanBlocks (connect s h b ht) h ht r) ∨
    (updateOrphansAndReturnTail ord fuel (connect s h b ht) h ht = .error .diverge ∧
      fuel ≤ B) := by
  have hlist : ∀ p c, Listed s.orphanBlocks p c → ids.rank c < B := by
    intro p c hpc
    obtain ⟨b', hb', _⟩ := (hinv.orphans p c).mp hpc
    exact hB c b' 0 hb'
  rcases updateOrphans_cases ord hinv.forest hlist fuel (connect s h b ht) h ht hh
      hinv.ready with hok | ⟨hdiv, hf⟩
  · exact Or.inl hok
  · exact Or.inr ⟨hdiv, by omega⟩

/-- A call that ends the same way at every fuel does what that way is and returns. -/
theorem spec_of_eq {ord : HashOrder} {s : BlockManagement} {block : Block} {v : Validated}
    (heq : ∀ fuel, validateBlock ids ord fuel s block = .ok v) (hout : Outcome ids ord s block v) :
    (∀ fuel v, validateBlock ids ord fuel s block = .ok v → Outcome ids ord s block v) ∧
    ∃ N, ∀ fuel, N < fuel → ∃ v, validateBlock ids ord fuel s block = .ok v := by
  refine ⟨fun fuel v' hv => ?_, 0, fun fuel _ => ⟨v, heq fuel⟩⟩
  rw [heq] at hv
  rw [← Except.ok.inj hv]
  exact hout

section Branches

variable {s : BlockManagement} {block : Block} {txnPool : Hash → Option BitcoinTxn}

/-- The branch for a block whose parent is not in the tree. -/
theorem validateBlock_parks (ord : HashOrder)
    (hfresh : s.blockPool (ids.blkId block.header) = none) (hnonce : block.header.nonce = 1)
    (htx : validateTxns ids s.txnPool block.txns = .ok (txnPool, true))
    (h0 : blkHeight s.blockPool block.prev = 0) (fuel : Nat) :
    validateBlock ids ord fuel s block =
      (findMissingAncestor
        (Function.update s.blockPool (ids.blkId block.header) (some (block, 0)))
        fuel block.prev >>= fun parent => .ok
        ⟨{ s with
            txnPool := txnPool
            blockPool := Function.update s.blockPool (ids.blkId block.header) (some (block, 0))
            orphanBlocks := addOrphan s.orphanBlocks block.prev (ids.blkId block.header) },
          [], some parent⟩) := by
  unfold validateBlock
  rw [if_neg (by simp [hfresh]), if_neg (by simp [hnonce]), htx]
  show (if blkHeight s.blockPool block.prev = 0 then _ else _) = _
  rw [if_pos h0, h0]

/-- The branch for a block whose parent is in the tree. -/
theorem validateBlock_connects (ord : HashOrder)
    (hfresh : s.blockPool (ids.blkId block.header) = none) (hnonce : block.header.nonce = 1)
    (htx : validateTxns ids s.txnPool block.txns = .ok (txnPool, true))
    (h0 : blkHeight s.blockPool block.prev ≠ 0) (fuel : Nat) :
    validateBlock ids ord fuel s block =
      (updateOrphansAndReturnTail ord fuel
        (connect s.toPools (ids.blkId block.header) block (blkHeight s.blockPool block.prev))
        (ids.blkId block.header) (blkHeight s.blockPool block.prev) >>= fun r =>
        tryNewTail ids ord fuel { s with txnPool := txnPool, toPools := r.1 } r.2.1 r.2.2) := by
  unfold validateBlock
  rw [if_neg (by simp [hfresh]), if_neg (by simp [hnonce]), htx]
  show (if blkHeight s.blockPool block.prev = 0 then _ else _) = _
  rw [if_neg h0]
  rfl

/-- A parked block: the search for its missing ancestor ends. -/
theorem validateBlock_spec_parked (ord : HashOrder) (hinv : ChainInv ids s)
    (hfresh : s.blockPool (ids.blkId block.header) = none) (hnonce : block.header.nonce = 1)
    (htx : validateTxns ids s.txnPool block.txns = .ok (txnPool, true))
    (h0 : blkHeight s.blockPool block.prev = 0) :
    (∀ fuel v, validateBlock ids ord fuel s block = .ok v → Outcome ids ord s block v) ∧
    ∃ N, ∀ fuel, N < fuel → ∃ v, validateBlock ids ord fuel s block = .ok v := by
  have heq := validateBlock_parks ord hfresh hnonce htx h0
  constructor
  · intro fuel v hv
    rw [heq, bind_eq_ok] at hv
    obtain ⟨parent, -, hv⟩ := hv
    rw [← Except.ok.inj hv]
    exact .parked hfresh htx h0
  · have hpark := hinv.pools.park hfresh h0
    have hprev : block.prev ≠ 0 := by
      intro hz
      rw [blkHeight, if_pos hz] at h0
      exact absurd h0 (by omega)
    have hself : block.prev ≠ ids.blkId block.header := by
      intro he
      have := ids.rank_prev block.header
      rw [← he] at this
      exact absurd this (Nat.lt_irrefl _)
    obtain ⟨a, -, -, hfind⟩ := findMissingAncestor_ok hpark.keyed hpark.heights
      (ids.rank block.prev) (Nat.le_refl _) hprev
      ((blkHeight_insert hself).trans h0)
    refine ⟨ids.rank block.prev, fun fuel hf => ?_⟩
    rw [heq, hfind fuel hf]
    exact ⟨_, rfl⟩

/-- A connected block: fuel above every pooled rank is enough. -/
theorem validateBlock_spec_connected (ord : HashOrder) (hinv : ChainInv ids s)
    (hfresh : s.blockPool (ids.blkId block.header) = none) (hnonce : block.header.nonce = 1)
    (htx : validateTxns ids s.txnPool block.txns = .ok (txnPool, true))
    (h0 : blkHeight s.blockPool block.prev ≠ 0) :
    (∀ fuel v, validateBlock ids ord fuel s block = .ok v → Outcome ids ord s block v) ∧
    ∃ N, ∀ fuel, N < fuel → ∃ v, validateBlock ids ord fuel s block = .ok v := by
  have hpos : 0 < blkHeight s.blockPool block.prev := Nat.pos_of_ne_zero h0
  have heq := validateBlock_connects ord hfresh hnonce htx h0
  obtain ⟨B, hB⟩ := hinv.pools.bounded
  have hB' : ∀ h b n, s.blockPool h = some (b, n) →
      ids.rank h < max B (ids.rank (ids.blkId block.header) + 1) := by
    intro h b n hb
    have := hB h b n hb
    omega
  have hup := updateOrphans_connect ord hinv.pools (b := block)
    (blkHeight s.blockPool block.prev) hB'
    (show ids.rank (ids.blkId block.header) < _ by omega)
  constructor
  · intro fuel v hv
    rw [heq, bind_eq_ok] at hv
    obtain ⟨r, hr, hv⟩ := hv
    rcases hup fuel with ⟨r', hr', hu⟩ | ⟨hdiv, -⟩
    · rw [hr, Except.ok.injEq] at hr'
      subst hr'
      obtain ⟨v', hout, -, huniq⟩ :=
        Connects.outcome ord hinv ⟨hfresh, hnonce, htx, hpos, hu⟩
      rw [huniq fuel v hv]
      exact hout
    · rw [hr] at hdiv
      exact absurd hdiv (by simp)
  · refine ⟨max B (ids.rank (ids.blkId block.header) + 1), fun fuel hf => ?_⟩
    rcases hup fuel with ⟨r, hr, hu⟩ | ⟨-, hle⟩
    · have hc : Connects ids s block txnPool r := ⟨hfresh, hnonce, htx, hpos, hu⟩
      obtain ⟨v, -, hv, -⟩ := hc.outcome ord hinv
      obtain ⟨P, x, hP, hlen, hx⟩ := hc.tail_path hinv
      have hrank := hP.length_le_rank (hc.pools hinv).keyed
      have htop : ids.rank r.2.1 < max B (ids.rank (ids.blkId block.header) + 1) := by
        obtain ⟨b', n'⟩ := x
        rcases hu.block_cases hinv.pools hx with ⟨he, -, -⟩ | ⟨-, d, -, hb', -⟩ | ⟨-, -, hb'⟩
        · rw [he]
          omega
        · exact hB' _ _ _ hb'
        · exact hB' _ _ _ hb'
      refine ⟨v, ?_⟩
      rw [heq, hr]
      exact hv fuel (by omega)
    · omega

end Branches

/-- **`validate_block` does one of the things `Outcome` lists, and returns.** -/
theorem validateBlock_spec (ord : HashOrder) {s : BlockManagement} (hinv : ChainInv ids s)
    (block : Block) :
    (∀ fuel v, validateBlock ids ord fuel s block = .ok v → Outcome ids ord s block v) ∧
    ((∀ t ∈ block.txns, t.isIncentive = false) →
      ∃ N, ∀ fuel, N < fuel → ∃ v, validateBlock ids ord fuel s block = .ok v) := by
  by_cases hdup : (s.blockPool (ids.blkId block.header)).isSome
  · have heq : ∀ fuel, validateBlock ids ord fuel s block = .ok ⟨s, [], none⟩ := by
      intro fuel
      unfold validateBlock
      rw [if_pos hdup]
    exact (spec_of_eq heq (.ignored (Or.inl hdup))).imp_right fun h _ => h
  by_cases hnonce : block.header.nonce ≠ 1
  · have heq : ∀ fuel, validateBlock ids ord fuel s block = .ok ⟨s, [], none⟩ := by
      intro fuel
      unfold validateBlock
      rw [if_neg hdup, if_pos hnonce]
    exact (spec_of_eq heq (.ignored (Or.inr hnonce))).imp_right fun h _ => h
  have hfresh : s.blockPool (ids.blkId block.header) = none := by
    simpa using hdup
  cases htx : validateTxns ids s.txnPool block.txns with
  | error e =>
    constructor
    · intro fuel v hv
      unfold validateBlock at hv
      rw [if_neg hdup, if_neg hnonce, htx] at hv
      exact absurd hv (by simp [bind, Except.bind])
    · intro hno
      obtain ⟨q, hq⟩ := validateTxns_ok ids hno s.txnPool
      rw [htx] at hq
      exact absurd hq (by simp)
  | ok q =>
    obtain ⟨txnPool, valid⟩ := q
    cases valid with
    | false =>
      have heq : ∀ fuel, validateBlock ids ord fuel s block =
          .ok ⟨{ s with txnPool := txnPool }, [], none⟩ := by
        intro fuel
        unfold validateBlock
        rw [if_neg hdup, if_neg hnonce, htx]
        rfl
      exact (spec_of_eq heq (.rejected hfresh htx)).imp_right fun h _ => h
    | true =>
      have hnonce : block.header.nonce = 1 := by simpa using hnonce
      by_cases h0 : blkHeight s.blockPool block.prev = 0
      · exact (validateBlock_spec_parked ord hinv hfresh hnonce htx h0).imp_right fun h _ => h
      · exact (validateBlock_spec_connected ord hinv hfresh hnonce htx h0).imp_right fun h _ => h

end Copycat.Bitcoin
