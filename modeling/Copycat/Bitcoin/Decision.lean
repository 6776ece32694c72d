import Copycat.Bitcoin.Pooled

/-!
# `BitcoinDecision` and the pipeline in front of it

The decision stage (`src/stage/consensus/decide/bitcoin/basic.rs`) keeps its
own block pool and a deque of the blocks it has not committed yet. It is fed
the tails that block management sends on, finds out from them how far back the
chain changed, and commits from the front once more than `commit_len` blocks
wait. It never sees the main chain itself.

`Pipeline` puts the two stages together with the channel between them, so that
block management may be any number of tails ahead. Each tail in the channel
carries a snapshot of the sender taken when it was sent; the snapshots are not
part of the program and nothing reads them, they only let the invariant say
which main chain the decision stage is at. `Follows` is that invariant: the
deque is the end of that chain, and every block of it is in the pool at its
height. `newTail_spec` is the step lemma, `pipeline_simulation` the result.
-/

namespace Copycat.Bitcoin

open Copycat.Lib

variable {ids : IdScheme}

/-- `BitcoinDecision`. The front of the deque is the head of the list. -/
structure Decision where
  blockPool : Hash → Option (Block × Nat)
  chainTail : List Hash
  firstBlockSeen : Bool
  minersBlkCnt : NodeId → Nat

namespace Decision

/-- `BitcoinDecision::new`. -/
def new : Decision where
  blockPool := fun _ => none
  chainTail := []
  firstBlockSeen := false
  minersBlkCnt := fun _ => 0

/-- The height of the first block of a tail whose parent is `prevHash`. -/
def firstBlockHeight (d : Decision) (prevHash : Hash) : Res Nat :=
  if prevHash = 0 then .ok 1
  else match d.blockPool prevHash with
    | some (_, height) => .ok (height + 1)
    | none => .error .panic

/-- The loop that drops the overwritten blocks. The deque is given back to
front. -/
def dropOverwritten (blockPool : Hash → Option (Block × Nat)) (ancesterHash : Hash)
    (firstBlockHeight : Nat) : List Hash → Res (List Hash)
  | [] => .ok []
  | oldTail :: rest =>
    match blockPool oldTail with
    | none => .error .panic
    | some (_, oldHeight) =>
      if oldHeight ≥ firstBlockHeight then
        dropOverwritten blockPool ancesterHash firstBlockHeight rest
      else if oldHeight = firstBlockHeight - 1 then
        if oldTail = ancesterHash then .ok (oldTail :: rest) else .error .panic
      else .error .panic

/-- The loop that adds the new blocks. -/
def pushTail (ids : IdScheme) : Decision → Nat → List Block → Decision
  | d, _, [] => d
  | d, blkHeight, blk :: rest =>
    let blkHash := ids.blkId blk.header
    pushTail ids
      { d with
        blockPool := Function.update d.blockPool blkHash (some (blk, blkHeight))
        chainTail := d.chainTail ++ [blkHash] } (blkHeight + 1) rest

/-- `new_tail`. -/
def newTail (ids : IdScheme) (d : Decision) : List Block → Res Decision
  | [] => .ok d
  | blk :: rest =>
    d.firstBlockHeight blk.prev >>= fun height =>
    dropOverwritten d.blockPool blk.prev height d.chainTail.reverse >>= fun kept =>
    .ok (pushTail ids
      { d with
        chainTail := kept.reverse
        -- set when the loop ends on an empty deque
        firstBlockSeen := d.firstBlockSeen || kept.isEmpty } height (blk :: rest))

/-- `next_to_commit`. -/
def nextToCommit (d : Decision) : Res (Decision × Nat × List BitcoinTxn) :=
  match d.chainTail with
  | [] => .error .panic
  | blkHash :: rest =>
    unwrap (d.blockPool blkHash) >>= fun (blk, height) =>
    .ok ({ d with
            chainTail := rest
            minersBlkCnt := Function.update d.minersBlkCnt blk.header.proposer
              (d.minersBlkCnt blk.header.proposer + 1) }, height, blk.txns)

end Decision

/-! ## Parent-linked lists of blocks -/

/-- `T` is linked by parent pointers from `h` up to the block named `t`. -/
inductive Linked (ids : IdScheme) : Hash → List Block → Hash → Prop
  | nil (h : Hash) : Linked ids h [] h
  | cons {h t : Hash} {b : Block} {T : List Block} :
      b.prev = h → Linked ids (ids.blkId b.header) T t → Linked ids h (b :: T) t

theorem Linked.append {h m t : Hash} {S T : List Block} (hS : Linked ids h S m)
    (hT : Linked ids m T t) : Linked ids h (S ++ T) t := by
  induction hS with
  | nil => exact hT
  | cons hb _ ih => exact .cons hb (ih hT)

/-- A linked list ends in the block its end names. -/
theorem Linked.last {a : Hash} {S : List Block} {b : Block} :
    ∀ {h : Hash}, Linked ids h (S ++ [b]) a → ids.blkId b.header = a := by
  induction S with
  | nil =>
    intro h hS
    cases hS with
    | cons _ hrest =>
      cases hrest
      rfl
  | cons x S ih =>
    intro h hS
    cases hS with
    | cons _ hrest => exact ih hrest

/-- The end of a path is linked to its beginning. -/
theorem PathTo.linked {pool : Hash → Option (Block × Nat)} (hk : Keyed ids pool)
    {anc T : List Block} : ∀ {t : Hash}, PathTo pool t (anc ++ T) →
      ∃ h, PathTo pool h anc ∧ Linked ids h T t := by
  induction T using List.reverseRecOn with
  | nil =>
    intro t hp
    rw [List.append_nil] at hp
    exact ⟨t, hp, .nil t⟩
  | append_singleton T b ih =>
    intro t hp
    rw [← List.append_assoc] at hp
    obtain ⟨n, hb, hprev⟩ := hp.snoc_inv
    obtain ⟨h, hh, hT⟩ := ih hprev
    refine ⟨h, hh, hT.append (.cons rfl ?_)⟩
    rw [hk t b n hb]
    exact .nil t

/-- A path names its end, whichever pool it is in. -/
theorem PathTo.end_unique {pool pool' : Hash → Option (Block × Nat)} (hk : Keyed ids pool)
    (hk' : Keyed ids pool') {h h' : Hash} {p : List Block} (hp : PathTo pool h p)
    (hp' : PathTo pool' h' p) : h = h' := by
  rcases hp.end_cases with ⟨h0, rfl⟩ | ⟨b, n, q, rfl, hb, -⟩
  · rw [h0, PathTo.nil_iff.mp hp']
  · obtain ⟨n', hb', -⟩ := hp'.snoc_inv
    rw [← hk h b n hb, hk' h' b n' hb']

/-- A linked list climbs, so it names no block twice. -/
theorem Linked.rank_lt {h t : Hash} {T : List Block} (hT : Linked ids h T t) :
    (∀ b ∈ T, ids.rank h < ids.rank (ids.blkId b.header)) ∧
      (T.map fun b => ids.blkId b.header).Nodup := by
  induction hT with
  | nil => exact ⟨by simp, by simp⟩
  | @cons h t b T hb _ ih =>
    have hlt : ids.rank h < ids.rank (ids.blkId b.header) := hb ▸ ids.rank_prev b.header
    refine ⟨fun b' hb' => ?_, ?_⟩
    · rcases List.mem_cons.mp hb' with rfl | hb'
      · exact hlt
      · exact hlt.trans (ih.1 b' hb')
    · rw [List.map_cons, List.nodup_cons]
      refine ⟨fun hmem => ?_, ih.2⟩
      obtain ⟨b', hb', he⟩ := List.mem_map.mp hmem
      have := ih.1 b' hb'
      rw [he] at this
      exact absurd this (Nat.lt_irrefl _)

/-! ## Following the main chain -/

/-- Every block of `M` is in the pool, at its height. -/
def Heighted (ids : IdScheme) (pool : Hash → Option (Block × Nat)) (M : List Block) : Prop :=
  ∀ pre b suf, M = pre ++ b :: suf → pool (ids.blkId b.header) = some (b, pre.length + 1)

/-- The decision stage is at the main chain `M`: the deque is its end. -/
structure Follows (ids : IdScheme) (d : Decision) (M : List Block) : Prop where
  pool : Heighted ids d.blockPool M
  tail : ∃ pre suf, M = pre ++ suf ∧ d.chainTail = suf.map fun b => ids.blkId b.header

/-- Above height `n`, the loop drops everything. -/
theorem dropOverwritten_above {pool : Hash → Option (Block × Nat)} {a : Hash} {n : Nat}
    (pre : List Block) (hn : n ≤ pre.length) (rest : List Hash) :
    ∀ {suf : List Block}, Heighted ids pool (pre ++ suf) →
      Decision.dropOverwritten pool a (n + 1)
        ((suf.map fun b => ids.blkId b.header).reverse ++ rest) =
      Decision.dropOverwritten pool a (n + 1) rest := by
  intro suf
  induction suf using List.reverseRecOn with
  | nil => intro _; rfl
  | append_singleton suf b ih =>
    intro hM
    have hb := hM (pre ++ suf) b [] (by simp)
    have hsub : Heighted ids pool (pre ++ suf) := fun p x q hx =>
      hM p x (q ++ [b]) (by rw [← List.append_assoc, hx]; simp)
    rw [List.map_append, List.reverse_append]
    show Decision.dropOverwritten pool a (n + 1) (ids.blkId b.header :: _) = _
    rw [Decision.dropOverwritten, hb]
    dsimp only
    rw [if_pos (by rw [List.length_append]; omega)]
    exact ih hsub

/-- On the end of `anc` itself, the loop stops at once. -/
theorem dropOverwritten_below {pool : Hash → Option (Block × Nat)} {anc pre suf : List Block}
    {a : Hash} (hM : Heighted ids pool anc) (ha : Linked ids 0 anc a) (he : anc = pre ++ suf) :
    Decision.dropOverwritten pool a (anc.length + 1)
      (suf.map fun b => ids.blkId b.header).reverse =
      .ok (suf.map fun b => ids.blkId b.header).reverse := by
  rcases List.eq_nil_or_concat suf with rfl | ⟨suf', b, rfl⟩
  · rfl
  · rw [List.concat_eq_append] at he ⊢
    have hb := hM (pre ++ suf') b [] (by rw [he]; simp)
    have hlast : ids.blkId b.header = a := by
      rw [he, ← List.append_assoc] at ha
      exact ha.last
    rw [List.map_append, List.reverse_append]
    show Decision.dropOverwritten pool a (anc.length + 1) (ids.blkId b.header :: _) = _
    rw [Decision.dropOverwritten, hb]
    dsimp only
    have hlen : (pre ++ suf').length + 1 = anc.length := by
      rw [he]
      simp
      omega
    rw [if_neg (by omega), if_pos (by omega), if_pos hlast]
    rfl

/-- Adding the new blocks puts them in the pool at their heights and at the
back of the deque. -/
theorem pushTail_spec {T : List Block} : ∀ {d : Decision} {anc : List Block},
    ((anc ++ T).map fun b => ids.blkId b.header).Nodup → Heighted ids d.blockPool anc →
    Heighted ids (Decision.pushTail ids d (anc.length + 1) T).blockPool (anc ++ T) ∧
      (Decision.pushTail ids d (anc.length + 1) T).chainTail =
        d.chainTail ++ T.map fun b => ids.blkId b.header := by
  induction T with
  | nil =>
    intro d anc _ h
    rw [List.append_nil, List.map_nil, List.append_nil]
    exact ⟨h, rfl⟩
  | cons b T ih =>
    intro d anc hnd h
    have hassoc : anc ++ b :: T = (anc ++ [b]) ++ T := by simp
    rw [hassoc] at hnd ⊢
    have hnew : Heighted ids
        (Function.update d.blockPool (ids.blkId b.header) (some (b, anc.length + 1)))
        (anc ++ [b]) := by
      intro pre x suf hx
      by_cases hxb : suf = []
      · subst hxb
        obtain ⟨rfl, hbx⟩ := List.append_inj' hx rfl
        simp only [List.cons.injEq, and_true] at hbx
        subst hbx
        simp
      · -- an older block, under another id
        obtain ⟨suf', y, rfl⟩ := List.eq_nil_or_concat suf |>.resolve_left hxb
        rw [List.concat_eq_append, ← List.cons_append, ← List.append_assoc] at hx
        obtain ⟨hanc, hby⟩ := List.append_inj' hx rfl
        have hne : ids.blkId x.header ≠ ids.blkId b.header := by
          intro he
          rw [List.map_append, List.map_append] at hnd
          have hnd' := (List.nodup_append.mp (List.nodup_append.mp hnd).1).2.2
          refine hnd' (ids.blkId x.header) ?_ (ids.blkId b.header) (by simp) he
          rw [hanc]
          simp
        rw [Function.update_of_ne hne]
        exact h pre x suf' hanc
    have hlen : (anc ++ [b]).length = anc.length + 1 := by simp
    have := @ih { d with
      blockPool := Function.update d.blockPool (ids.blkId b.header) (some (b, anc.length + 1))
      chainTail := d.chainTail ++ [ids.blkId b.header] } (anc ++ [b]) hnd hnew
    rw [hlen] at this
    refine ⟨this.1, ?_⟩
    rw [Decision.pushTail, this.2, List.map_cons, List.append_assoc]
    rfl

/-- The first block of a tail is one above the branch point. -/
theorem firstBlockHeight_eq {d : Decision} {anc : List Block} {a : Hash}
    (hanc : Linked ids 0 anc a) (hpool : Heighted ids d.blockPool anc) :
    d.firstBlockHeight a = .ok (anc.length + 1) := by
  unfold Decision.firstBlockHeight
  rcases List.eq_nil_or_concat anc with rfl | ⟨anc', x, rfl⟩
  · cases hanc
    rw [if_pos rfl]
    rfl
  · rw [List.concat_eq_append] at hanc hpool ⊢
    have hx := hpool anc' x [] (by simp)
    rw [← hanc.last, if_neg (ids.blkId_ne_zero _), hx]
    simp

/-- **A tail that branches off the main chain is taken.** What was committed stays
committed up to the branch point at most, so the next height to commit does not
grow, and it is the same where the branch point is above. -/
theorem newTail_front {d : Decision} {anc old T pre suf : List Block} {a t : Hash} (hT : T ≠ [])
    (hanc : Linked ids 0 anc a) (htail : Linked ids a T t)
    (hpool : Heighted ids d.blockPool (anc ++ old)) (hM : anc ++ old = pre ++ suf)
    (hdeque : d.chainTail = suf.map fun b => ids.blkId b.header) :
    ∃ d' pre' suf', Decision.newTail ids d T = .ok d' ∧ Heighted ids d'.blockPool (anc ++ T) ∧
      anc ++ T = pre' ++ suf' ∧ d'.chainTail = suf'.map (fun b => ids.blkId b.header) ∧
      pre' <+: pre ∧ (pre <+: anc → pre' = pre) := by
  have hpoolAnc : Heighted ids d.blockPool anc := fun p b q he =>
    hpool p b (q ++ old) (by rw [he]; simp)
  cases htail with
  | nil => exact absurd rfl hT
  | @cons _ _ blk rest hprev hrest =>
  have hheight : d.firstBlockHeight blk.prev = .ok (anc.length + 1) :=
    hprev ▸ firstBlockHeight_eq hanc hpoolAnc
  -- the part of the deque that stays
  have hkept : ∃ pre' suf', anc = pre' ++ suf' ∧ pre' <+: pre ∧ (pre <+: anc → pre' = pre) ∧
      Decision.dropOverwritten d.blockPool blk.prev (anc.length + 1) d.chainTail.reverse =
        .ok (suf'.map fun b => ids.blkId b.header).reverse := by
    rw [hprev, hdeque]
    rcases List.append_eq_append_iff.mp hM with ⟨c, hpre, hold⟩ | ⟨c, hpre, hsuf⟩
    · -- the deque begins above the branch point
      refine ⟨anc, [], by simp, hpre ▸ List.prefix_append _ _, fun hle => ?_, ?_⟩
      · exact List.IsPrefix.eq_of_length_le (hpre ▸ List.prefix_append _ _) hle.length_le
      have hdrop := dropOverwritten_above (a := a) (n := anc.length) pre
        (by rw [hpre, List.length_append]; omega) [] (hM ▸ hpool)
      rw [List.append_nil] at hdrop
      exact hdrop
    · refine ⟨pre, c, hpre, List.prefix_rfl, fun _ => rfl, ?_⟩
      rw [hsuf, List.map_append, List.reverse_append,
        dropOverwritten_above anc (Nat.le_refl _) _ hpool]
      exact dropOverwritten_below hpoolAnc hanc hpre
  obtain ⟨pre', suf', hanc', hprefix, hsame, hkept⟩ := hkept
  have hnd : ((anc ++ blk :: rest).map fun b => ids.blkId b.header).Nodup :=
    (hanc.append (.cons hprev hrest)).rank_lt.2
  obtain ⟨hpool', htail'⟩ := pushTail_spec (d := { d with
    chainTail := (suf'.map fun b => ids.blkId b.header).reverse.reverse
    firstBlockSeen := d.firstBlockSeen || (suf'.map fun b => ids.blkId b.header).reverse.isEmpty })
    hnd hpoolAnc
  refine ⟨_, pre', suf' ++ blk :: rest, ?_, hpool', ?_, ?_, hprefix, hsame⟩
  · rw [Decision.newTail, hheight]
    show (Decision.dropOverwritten d.blockPool blk.prev (anc.length + 1) _ >>= _) = _
    rw [hkept]
    rfl
  · rw [hanc', List.append_assoc]
  · rw [htail', List.reverse_reverse, List.map_append]

/-- The decision stage goes on following. -/
theorem newTail_spec {d : Decision} {anc old T : List Block} {a t : Hash} (hT : T ≠ [])
    (hanc : Linked ids 0 anc a) (htail : Linked ids a T t) (h : Follows ids d (anc ++ old)) :
    ∃ d', Decision.newTail ids d T = .ok d' ∧ Follows ids d' (anc ++ T) := by
  obtain ⟨pre, suf, hM, hdeque⟩ := h.tail
  obtain ⟨d', pre', suf', hd', hpool', hM', hdeque', -⟩ :=
    newTail_front hT hanc htail h.pool hM hdeque
  exact ⟨d', hd', hpool', pre', suf', hM', hdeque'⟩

/-- The block at the front of the deque is committed, with its height. -/
theorem nextToCommit_front {d : Decision} {pre suf : List Block} {b : Block}
    (hpool : Heighted ids d.blockPool (pre ++ b :: suf))
    (hdeque : d.chainTail = (b :: suf).map fun b => ids.blkId b.header) :
    ∃ d', d.nextToCommit = .ok (d', pre.length + 1, b.txns) ∧ d'.blockPool = d.blockPool ∧
      d'.chainTail = suf.map fun b => ids.blkId b.header := by
  refine ⟨{ d with
    chainTail := suf.map fun b => ids.blkId b.header
    minersBlkCnt := Function.update d.minersBlkCnt b.header.proposer
      (d.minersBlkCnt b.header.proposer + 1) }, ?_, rfl, rfl⟩
  unfold Decision.nextToCommit
  rw [hdeque]
  show (unwrap (d.blockPool (ids.blkId b.header)) >>= _) = _
  rw [hpool pre b suf rfl]
  rfl

/-- A waiting block can be committed; what is above it on the main chain is
what waits behind it. -/
theorem nextToCommit_spec {d : Decision} {M : List Block} (h : Follows ids d M)
    (hne : d.chainTail ≠ []) :
    ∃ pre b suf d', M = pre ++ b :: suf ∧ d.chainTail.length = suf.length + 1 ∧
      d.nextToCommit = .ok (d', pre.length + 1, b.txns) ∧ Follows ids d' M := by
  obtain ⟨pre, suf, hM, hdeque⟩ := h.tail
  cases suf with
  | nil => exact absurd hdeque hne
  | cons b suf =>
    obtain ⟨d', hd', hpool', hdeque'⟩ := nextToCommit_front (hM ▸ h.pool) hdeque
    refine ⟨pre, b, suf, d', hM, by rw [hdeque]; simp, hd', ?_, pre ++ [b], suf, by simp [hM],
      hdeque'⟩
    rw [hpool']
    exact h.pool

/-! ## The tails block management sends on -/

variable {cfg : Config}

/-- What a call does to the main chain. A non-empty result is a linked path
from the zero hash or a block of the old main chain to the new tail, which is
strictly higher; a block that is validated with an empty result leaves the tail
and the mempool alone. -/
structure Moves (ids : IdScheme) (s : BlockManagement) (l : Label) (s' : BlockManagement) :
    Prop where
  sent : l.2 ≠ [] → ∃ anc old a, PathTo s.blockPool s.chainTail (anc ++ old) ∧
    PathTo s.blockPool a anc ∧ (a = 0 ∨ ∃ b ∈ anc, ids.blkId b.header = a) ∧
    Linked ids a l.2 s'.chainTail ∧ PathTo s'.blockPool s'.chainTail (anc ++ l.2) ∧
    getChainLength s = .ok (anc ++ old).length ∧
    getChainLength s' = .ok (anc ++ l.2).length ∧ (anc ++ old).length < (anc ++ l.2).length
  unsent : l.2 = [] → ∀ block, l.1 = .validateBlock block →
    s'.chainTail = s.chainTail ∧ s'.utxo = s.utxo ∧ s'.pendingTxns = s.pendingTxns ∧
      s'.blockUnderConstruction = s.blockUnderConstruction

theorem Branch.new_ne_nil {pool : Hash → Option (Block × Nat)} {oldTail newTail : Hash}
    {anc new old : List Block} (h : Branch pool oldTail newTail anc new old) : new ≠ [] := by
  intro hnil
  have hlong := h.longer
  rw [hnil] at hlong
  exact absurd hlong (Nat.not_lt_zero _)

/-- Only a tail that is sent on changes the main chain. -/
theorem step_path {s s' : BlockManagement} {l : Label} (hinv : ChainInv cfg.ids s)
    (hfresh : FreshId cfg s l) (h : Step cfg s l s') {p : List Block}
    (hp : PathTo s.blockPool s.chainTail p) :
    (l.2 = [] → PathTo s'.blockPool s'.chainTail p) ∧
    (l.2 ≠ [] → ∃ anc old, p = anc ++ old ∧ PathTo s'.blockPool s'.chainTail (anc ++ l.2) ∧
      old.length < l.2.length) := by
  cases h with
  | record txn =>
    refine ⟨fun _ => ?_, fun h => absurd rfl h⟩
    unfold recordNewTxn
    dsimp only
    split
    · exact hp
    · exact hp
  | prepare h =>
    refine ⟨fun _ => ?_, fun h => absurd rfl h⟩
    obtain ⟨hpools, -, -, htail⟩ := prepareNewBlock_frame h
    rw [hpools, htail]
    exact hp
  | @mine _ block h =>
    obtain ⟨chainLength, root, hlen, -, hhdr, rfl⟩ := getNewBlock_cases h
    obtain ⟨hnone, -⟩ := hfresh rfl _ (List.mem_singleton.mpr rfl)
    refine ⟨fun h => absurd h (by simp), fun _ => ⟨p, [], by simp, ?_, by simp⟩⟩
    have hprev : block.prev = s.chainTail := by
      rw [Block.prev, hhdr]
      rfl
    refine .snoc (n := chainLength + 1) (Function.update_self ..) ?_
    rw [hprev]
    exact hp.mono (extends_insert hnone)
  | @validate ord fuel block v h =>
    have hout := (validateBlock_spec ord hinv block).1 _ _ h
    cases hout with
    | ignored => exact ⟨fun _ => hp, fun h => absurd rfl h⟩
    | rejected => exact ⟨fun _ => hp, fun h => absurd rfl h⟩
    | parked hnone => exact ⟨fun _ => hp.mono (extends_insert hnone), fun h => absurd rfl h⟩
    | shorter hc => exact ⟨fun _ => hp.mono hc.extends, fun h => absurd rfl h⟩
    | invalid hc => exact ⟨fun _ => hp.mono hc.extends, fun h => absurd rfl h⟩
    | adopted hc hbr _ =>
      have hp' := (hp.mono hc.extends).unique (hc.pools hinv).keyed hbr.oldPath
      exact ⟨fun hnil => absurd hnil hbr.new_ne_nil,
        fun _ => ⟨_, _, hp', hbr.newPath, hbr.longer⟩⟩

/-- A block that is validated with an empty result leaves the mempool alone. -/
theorem validate_unsent {s : BlockManagement} {ord : HashOrder} {block : Block} {v : Validated}
    (h : Outcome cfg.ids ord s block v) (hnil : v.newTail = []) :
    v.state.chainTail = s.chainTail ∧ v.state.utxo = s.utxo ∧
      v.state.pendingTxns = s.pendingTxns ∧
      v.state.blockUnderConstruction = s.blockUnderConstruction := by
  cases h with
  | ignored => exact ⟨rfl, rfl, rfl, rfl⟩
  | rejected => exact ⟨rfl, rfl, rfl, rfl⟩
  | parked => exact ⟨rfl, rfl, rfl, rfl⟩
  | shorter => exact ⟨rfl, rfl, rfl, rfl⟩
  | invalid => exact ⟨rfl, rfl, rfl, rfl⟩
  | adopted _ hbr _ => exact absurd hnil hbr.new_ne_nil

/-- Every call moves the main chain the way `Moves` says. -/
theorem moves_of_step {s s' : BlockManagement} {l : Label} (hinv : ChainInv cfg.ids s)
    (hfresh : FreshId cfg s l) (h : Step cfg s l s') : Moves cfg.ids s l s' := by
  have hinv' := chainInv_step hinv hfresh h
  obtain ⟨p, hp⟩ := hinv.tail
  refine ⟨fun hne => ?_, fun hnil block hl => ?_⟩
  · obtain ⟨anc, old, rfl, hnew, hlt⟩ := (step_path hinv hfresh h hp).2 hne
    obtain ⟨a, ha, hlink⟩ := hnew.linked hinv'.pools.keyed
    obtain ⟨a', ha', hlink'⟩ := hp.linked hinv.pools.keyed
    have haa : a = a' := ha.end_unique hinv'.pools.keyed hinv.pools.keyed ha'
    subst haa
    refine ⟨anc, old, a, hp, ha', ?_, hlink, hnew, getChainLength_eq hinv.pools hp,
      getChainLength_eq hinv'.pools hnew, by simp; omega⟩
    rcases ha'.end_cases with ⟨h0, -⟩ | ⟨b, n, q, rfl, hb, -⟩
    · exact Or.inl h0
    · exact Or.inr ⟨b, by simp, hinv.pools.keyed _ _ _ hb⟩
  · cases h with
    | record txn => exact absurd hl (by simp)
    | prepare h => exact absurd hl (by simp)
    | mine h => exact absurd hl (by simp)
    | validate h => exact validate_unsent ((validateBlock_spec _ hinv _).1 _ _ h) hnil

/-! ## The two stages and the channel between them -/

/-- Block management, the tails on their way, and the decision stage. A tail
comes with the state block management was in when it sent it; `asOf` is that
state for the last tail delivered. -/
structure Pipeline where
  management : BlockManagement
  channel : List (List Block × BlockManagement)
  decision : Decision
  asOf : BlockManagement

/-- What can happen in the pipeline. -/
inductive PipelineCall where
  | manage (l : Label)
  | deliver (newTail : List Block)
  | commit (height : Nat) (txns : List BitcoinTxn)

/-- One call of either stage. `commit_ready` lets `next_to_commit` through only
when more than `commit_len` blocks wait. -/
inductive PipelineStep (cfg : Config) (commitLen : Nat) :
    Pipeline → PipelineCall → Pipeline → Prop
  | manage {p : Pipeline} {l : Label} {s' : BlockManagement} :
      Step cfg p.management l s' →
      PipelineStep cfg commitLen p (.manage l)
        { p with
          management := s'
          channel := p.channel ++ if l.2 = [] then [] else [(l.2, s')] }
  | deliver {p : Pipeline} {newTail : List Block} {s : BlockManagement}
      {rest : List (List Block × BlockManagement)} {d : Decision} :
      p.channel = (newTail, s) :: rest → p.decision.newTail cfg.ids newTail = .ok d →
      PipelineStep cfg commitLen p (.deliver newTail)
        { p with channel := rest, decision := d, asOf := s }
  | commit {p : Pipeline} {d : Decision} {height : Nat} {txns : List BitcoinTxn} :
      commitLen < p.decision.chainTail.length →
      p.decision.nextToCommit = .ok (d, height, txns) →
      PipelineStep cfg commitLen p (.commit height txns) { p with decision := d }

/-- The pipeline as a machine. -/
def pipeline (cfg : Config) (commitLen : Nat) : Machine Pipeline PipelineCall where
  start := ⟨BlockManagement.new, [], Decision.new, BlockManagement.new⟩
  step := PipelineStep cfg commitLen

/-- Mined ids are fresh. -/
def PipelineFresh (cfg : Config) (p : Pipeline) (c : PipelineCall) : Prop :=
  ∀ l, c = .manage l → FreshId cfg p.management l

/-- The tails in the channel lead from the main chain `M` to the main chain
`N`, each one branching off the chain before it. -/
def Feeds (ids : IdScheme) : List Block → List (List Block × BlockManagement) → List Block → Prop
  | M, [], N => M = N
  | M, (newTail, s) :: rest, N =>
    ∃ anc old, M = anc ++ old ∧ newTail ≠ [] ∧ Keyed ids s.blockPool ∧
      PathTo s.blockPool s.chainTail (anc ++ newTail) ∧ Feeds ids (anc ++ newTail) rest N

theorem Feeds.snoc {anc old newTail : List Block} {s : BlockManagement} (hne : newTail ≠ [])
    (hk : Keyed ids s.blockPool) (hp : PathTo s.blockPool s.chainTail (anc ++ newTail)) :
    ∀ {channel : List (List Block × BlockManagement)} {M : List Block},
      Feeds ids M channel (anc ++ old) →
      Feeds ids M (channel ++ [(newTail, s)]) (anc ++ newTail) := by
  intro channel
  induction channel with
  | nil =>
    intro M h
    exact ⟨anc, old, h, hne, hk, hp, rfl⟩
  | cons x channel ih =>
    intro M h
    obtain ⟨anc', old', hM, hne', hk', hp', hrest⟩ := h
    exact ⟨anc', old', hM, hne', hk', hp', ih hrest⟩

/-- The invariant of the pipeline: the decision stage is at the chain of
`asOf`, and the channel leads from there to the chain of block management. -/
structure PipelineInv (cfg : Config) (p : Pipeline) : Prop where
  chain : ChainInv cfg.ids p.management
  keyed : Keyed cfg.ids p.asOf.blockPool
  follows : ∃ M N, PathTo p.asOf.blockPool p.asOf.chainTail M ∧ Follows cfg.ids p.decision M ∧
    Feeds cfg.ids M p.channel N ∧ PathTo p.management.blockPool p.management.chainTail N

/-- The next tail in the channel is taken. -/
theorem PipelineInv.deliver {p : Pipeline} (hinv : PipelineInv cfg p) {newTail : List Block}
    {s : BlockManagement} {rest : List (List Block × BlockManagement)}
    (hch : p.channel = (newTail, s) :: rest) :
    ∃ d, p.decision.newTail cfg.ids newTail = .ok d ∧
      PipelineInv cfg { p with channel := rest, decision := d, asOf := s } := by
  obtain ⟨M, N, hM, hfol, hfeed, hN⟩ := hinv.follows
  rw [hch] at hfeed
  obtain ⟨anc, old, rfl, hne, hk, hp, hrest⟩ := hfeed
  -- the path of the sender splits at the branch point
  obtain ⟨a, ha, hlink⟩ := hp.linked hk
  obtain ⟨z, hz, hanc⟩ :=
      PathTo.linked (T := anc) hk (show PathTo s.blockPool a ([] ++ anc) from ha)
  rw [PathTo.nil_iff.mp hz] at hanc
  obtain ⟨d, hd, hfol'⟩ := newTail_spec hne hanc hlink hfol
  exact ⟨d, hd, hinv.chain, hk, anc ++ newTail, N, hp, hfol', hrest, hN⟩

theorem pipelineInv_step {commitLen : Nat} {p p' : Pipeline} {c : PipelineCall}
    (hinv : PipelineInv cfg p) (hfresh : PipelineFresh cfg p c)
    (h : PipelineStep cfg commitLen p c p') : PipelineInv cfg p' := by
  cases h with
  | @manage l s' h =>
    obtain ⟨M, N, hM, hfol, hfeed, hN⟩ := hinv.follows
    have hchain := chainInv_step hinv.chain (hfresh l rfl) h
    obtain ⟨hsame, hmove⟩ := step_path hinv.chain (hfresh l rfl) h hN
    refine ⟨hchain, hinv.keyed, M, ?_⟩
    by_cases hnil : l.2 = []
    · refine ⟨N, hM, hfol, ?_, hsame hnil⟩
      simpa [hnil] using hfeed
    · obtain ⟨anc, old, rfl, hnew, -⟩ := hmove hnil
      refine ⟨anc ++ l.2, hM, hfol, ?_, hnew⟩
      dsimp only
      rw [if_neg hnil]
      exact Feeds.snoc hnil hchain.pools.keyed hnew hfeed
  | deliver hch hd =>
    obtain ⟨d', hd', hinv'⟩ := hinv.deliver hch
    rw [hd, Except.ok.injEq] at hd'
    exact hd' ▸ hinv'
  | commit hlen hd =>
    obtain ⟨M, N, hM, hfol, hfeed, hN⟩ := hinv.follows
    obtain ⟨pre, b, suf, d', -, -, hd', hfol'⟩ :=
      nextToCommit_spec hfol (List.ne_nil_of_length_pos (by omega))
    rw [hd, Except.ok.injEq, Prod.mk.injEq] at hd'
    obtain ⟨rfl, -⟩ := hd'
    exact ⟨hinv.chain, hinv.keyed, M, N, hM, hfol', hfeed, hN⟩

theorem pipelineInv_run {commitLen : Nat} {tr : List PipelineCall} {p : Pipeline}
    (h : (pipeline cfg commitLen).Run (PipelineFresh cfg) tr p) : PipelineInv cfg p := by
  refine h.invariant (PipelineInv cfg) ?_ fun _ _ _ hinv hg hstep => pipelineInv_step hinv hg hstep
  refine ⟨chainInv_new, chainInv_new.pools.keyed, [], [], .genesis, ⟨?_, [], [], rfl, rfl⟩, rfl,
    .genesis⟩
  intro pre b suf he
  exact absurd he (by simp)

/-- **The two stages stay in simulation.** In every reachable state of the
pipeline, every call of block management moves the main chain as `Moves` says;
the next tail can be delivered; the deque is a contiguous end of the main
chain as of the last delivered tail; and when more than `commit_len` blocks
wait, `next_to_commit` returns a block of that chain, with its height, that has
at least `commit_len` blocks above it. -/
theorem pipeline_simulation (cfg : Config) (commitLen : Nat) {tr : List PipelineCall}
    {p : Pipeline} (h : (pipeline cfg commitLen).Run (PipelineFresh cfg) tr p) :
    (∀ l s', FreshId cfg p.management l → Step cfg p.management l s' →
      Moves cfg.ids p.management l s') ∧
    (∀ newTail s rest, p.channel = (newTail, s) :: rest →
      ∃ d, p.decision.newTail cfg.ids newTail = .ok d) ∧
    (∃ pre suf, PathTo p.asOf.blockPool p.asOf.chainTail (pre ++ suf) ∧
      p.decision.chainTail = suf.map fun b => cfg.ids.blkId b.header) ∧
    (commitLen < p.decision.chainTail.length → ∃ pre b suf d,
      PathTo p.asOf.blockPool p.asOf.chainTail (pre ++ b :: suf) ∧
      p.decision.nextToCommit = .ok (d, pre.length + 1, b.txns) ∧ commitLen ≤ suf.length) := by
  have hinv := pipelineInv_run h
  obtain ⟨M, N, hM, hfol, -, -⟩ := hinv.follows
  refine ⟨fun l s' hf hs => moves_of_step hinv.chain hf hs, fun newTail s rest hch => ?_, ?_,
    fun hlen => ?_⟩
  · obtain ⟨d, hd, -⟩ := hinv.deliver hch
    exact ⟨d, hd⟩
  · obtain ⟨pre, suf, rfl, hdeque⟩ := hfol.tail
    exact ⟨pre, suf, hM, hdeque⟩
  · obtain ⟨pre, b, suf, d, rfl, hdeque, hd, -⟩ :=
      nextToCommit_spec hfol (List.ne_nil_of_length_pos (by omega))
    exact ⟨pre, b, suf, d, hM, hd, by omega⟩

/-! ## Evaluation -/

/-- The calls of block management. -/
def managed (tr : List PipelineCall) : List Label :=
  tr.filterMap fun
    | .manage l => some l
    | _ => none

/-- Block management runs by itself. -/
theorem managed_run {G : Pipeline → PipelineCall → Prop} {commitLen : Nat}
    {tr : List PipelineCall} {p : Pipeline} (h : (pipeline cfg commitLen).Run G tr p) :
    (stage cfg).Run (fun _ _ => True) (managed tr) p.management := by
  refine h.project _ Pipeline.management rfl fun p c p' hstep => ?_
  cases hstep with
  | manage hs => exact Or.inr ⟨_, rfl, hs⟩
  | deliver => exact Or.inl ⟨rfl, rfl⟩
  | commit => exact Or.inl ⟨rfl, rfl⟩

/-- The labels show whether the mined ids of the pipeline are fresh. -/
theorem pipelineFresh_run {G : Pipeline → PipelineCall → Prop} {commitLen : Nat}
    {tr : List PipelineCall} {p : Pipeline} (h : (pipeline cfg commitLen).Run G tr p)
    (hmined : (managed tr).Pairwise (MinedAfter cfg.ids)) :
    (pipeline cfg commitLen).Run (fun p c => G p c ∧ PipelineFresh cfg p c) tr p := by
  refine h.strengthen fun pre c suf p he hrun hg => ⟨hg, fun l hl => ?_⟩
  have hsplit : managed tr = managed pre ++ l :: managed suf := by
    rw [he, hl]
    exact List.filterMap_append
  rw [hsplit, List.pairwise_append] at hmined
  exact freshId_of_labels (fresh_run (managed_run hrun) hmined.1) fun l' hl' =>
    hmined.2.2 l' hl' l (List.mem_cons_self ..)

/-- What is done next: a call of block management, or the decision stage takes the
next tail, or commits the next block. -/
inductive PipelineTurn where
  | call (c : Call)
  | deliver
  | commit

/-- A turn, taken. -/
def evalTurn (cfg : Config) (commitLen fuel : Nat) (p : Pipeline) :
    PipelineTurn → Option (PipelineCall × Pipeline)
  | .call c => (evalCall cfg fuel p.management c).map fun (l, s') =>
      (.manage l, { p with
        management := s'
        channel := p.channel ++ if l.2 = [] then [] else [(l.2, s')] })
  | .deliver =>
    match p.channel with
    | [] => none
    | (newTail, s) :: rest => (p.decision.newTail cfg.ids newTail).toOption.map fun d =>
        (.deliver newTail, { p with channel := rest, decision := d, asOf := s })
  | .commit =>
    if commitLen < p.decision.chainTail.length then
      p.decision.nextToCommit.toOption.map fun (d, height, txns) =>
        (.commit height txns, { p with decision := d })
    else none

theorem evalTurn_step {commitLen fuel : Nat} {p p' : Pipeline} {turn : PipelineTurn}
    {c : PipelineCall} (h : evalTurn cfg commitLen fuel p turn = some (c, p')) :
    PipelineStep cfg commitLen p c p' := by
  unfold evalTurn at h
  cases turn with
  | call call =>
    obtain ⟨⟨l, s'⟩, hcall, h⟩ := Option.map_eq_some_iff.mp h
    obtain ⟨rfl, rfl⟩ := Prod.mk.inj h
    exact .manage (evalCall_step hcall)
  | deliver =>
    dsimp only at h
    split at h
    · exact absurd h (by simp)
    · rename_i hch
      obtain ⟨d, hd, h⟩ := Option.map_eq_some_iff.mp h
      obtain ⟨rfl, rfl⟩ := Prod.mk.inj h
      exact .deliver hch (toOption_eq_some.mp hd)
  | commit =>
    dsimp only at h
    split at h
    · rename_i hlen
      obtain ⟨⟨d, height, txns⟩, hd, h⟩ := Option.map_eq_some_iff.mp h
      obtain ⟨rfl, rfl⟩ := Prod.mk.inj h
      exact .commit hlen (toOption_eq_some.mp hd)
    · exact absurd h (by simp)

/-- What the turns come to is so at the end of a run, if the mined ids are new. -/
theorem evalTurns_run (cfg : Config) (commitLen fuel : Nat)
    (check : Pipeline → PipelineCall → Bool) (turns : List PipelineTurn)
    (q : List PipelineCall × Pipeline → Bool)
    (h : (Machine.evaluate (evalTurn cfg commitLen fuel) check turns
      (pipeline cfg commitLen).start).any
        (fun r => (managed r.1).Pairwise (MinedAfter cfg.ids) && q r) = true) :
    ∃ tr p, (pipeline cfg commitLen).Run
      (fun p c => check p c = true ∧ PipelineFresh cfg p c) tr p ∧ q (tr, p) = true := by
  obtain ⟨tr, p, hrun, hq⟩ := Machine.exists_run (M := pipeline cfg commitLen)
    (evalTurn cfg commitLen fuel) (fun _ _ _ _ => evalTurn_step) check turns _ h
  obtain ⟨hmined, hq⟩ := Bool.and_eq_true_iff.mp hq
  exact ⟨tr, p, pipelineFresh_run hrun (of_decide_eq_true hmined), hq⟩

/-- A node mines a block, delivers it, and moves to two blocks of a peer. With
`commit_len = 1` the first of these can be committed. -/
theorem pipeline_simulation_demo :
    ∃ tr p, (pipeline demo 1).Run (PipelineFresh demo) tr p ∧
      (managed tr).flatMap Label.mined = [demoBlock [demoGrant, demoPay]] ∧
      p.decision.chainTail.length = 2 ∧
      p.asOf.blockPool p.asOf.chainTail = some (demoPeer 8650 [demoPay], 2) ∧
      ∃ pre b suf d, PathTo p.asOf.blockPool p.asOf.chainTail (pre ++ b :: suf) ∧
        p.decision.nextToCommit = .ok (d, pre.length + 1, b.txns) ∧ 1 ≤ suf.length := by
  obtain ⟨tr, p, hrun, hq⟩ := evalTurns_run demo 1 5 (fun _ _ => true)
    [.call (.recordNewTxn demoGrant), .call (.recordNewTxn demoPay),
      .call (.prepareNewBlock 7), .call .getNewBlock, .deliver,
      .call (.validateBlock (demoPeer 0 [demoGrant])),
      .call (.validateBlock (demoPeer 8650 [demoPay])), .deliver]
    (fun r => (managed r.1).flatMap Label.mined = [demoBlock [demoGrant, demoPay]] ∧
      r.2.decision.chainTail.length = 2 ∧
      r.2.asOf.blockPool r.2.asOf.chainTail = some (demoPeer 8650 [demoPay], 2))
    (by decide +kernel)
  obtain ⟨hmined, hlen, htail⟩ := of_decide_eq_true hq
  have hfresh := hrun.mono fun _ _ _ hg => hg.2
  exact ⟨tr, p, hfresh, hmined, hlen, htail,
    (pipeline_simulation demo 1 hfresh).2.2.2 (hlen ▸ Nat.one_lt_two)⟩

end Copycat.Bitcoin
