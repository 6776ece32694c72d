import Copycat.Bitcoin.Orphans
import Copycat.Bitcoin.Paths
import Copycat.Bitcoin.Runs

/-!
# Heights and orphans

`ChainInv` is the law spread over `block_pool`, `orphan_blocks` and
`chain_tail`: blocks are pooled under their ids, every height is the one the
parent gives, a hash waits in `orphan_blocks[p]` iff it is a pooled block of
height zero with parent `p`, and the current tail has its whole path pooled.

A block enters the pools in two ways, and both keep the law: parked under its
missing ancestor (`PoolInv.park`), or connected together with everything that
waited for it (`PoolInv.connected`, over the contract of
`update_orphans_and_return_tail`).
-/

namespace Copycat.Bitcoin

open Copycat.Lib

variable {ids : IdScheme}

/-- The law of the two pools. -/
structure PoolInv (ids : IdScheme) (s : Pools) : Prop where
  keyed : Keyed ids s.blockPool
  heights : Heights s.blockPool
  orphans : ∀ p c, Listed s.orphanBlocks p c ↔ ∃ b, s.blockPool c = some (b, 0) ∧ b.prev = p
  bounded : ∃ B, ∀ h b n, s.blockPool h = some (b, n) → ids.rank h < B

/-- The law of the pools and the tail. -/
structure ChainInv (ids : IdScheme) (s : BlockManagement) : Prop where
  pools : PoolInv ids s.toPools
  tail : ∃ p, PathTo s.blockPool s.chainTail p

theorem chainInv_new : ChainInv ids BlockManagement.new := by
  refine ⟨⟨?_, ?_, ?_, 0, ?_⟩, [], .genesis⟩
  · intro h b n hb
    exact absurd hb (by simp [BlockManagement.new])
  · intro h b n hb
    exact absurd hb (by simp [BlockManagement.new])
  · intro p c
    simp [Listed, BlockManagement.new]
  · intro h b n hb
    exact absurd hb (by simp [BlockManagement.new])

/-- `get_chain_length` is the length of the path to the tail. -/
theorem getChainLength_eq {s : BlockManagement} (hinv : PoolInv ids s.toPools) {p : List Block}
    (hp : PathTo s.blockPool s.chainTail p) : getChainLength s = .ok p.length := by
  unfold getChainLength
  rcases hp.end_cases with ⟨h0, rfl⟩ | ⟨b, n, q, rfl, hb, _⟩
  · rw [if_pos h0]
    rfl
  · have hn := (hp.height hinv.keyed hinv.heights hb).1
    rw [if_neg (hinv.keyed.ne_zero hb), hb, hn]

/-! ## Adding a block to the pools -/

theorem extends_insert {pool : Hash → Option (Block × Nat)} {h : Hash} {x : Block × Nat}
    (hfresh : pool h = none) : Extends pool (Function.update pool h (some x)) := by
  intro h' b n hb
  have hne : h' ≠ h := fun e => by rw [e, hfresh] at hb; exact absurd hb (by simp)
  exact ⟨n, by simpa [hne] using hb⟩

theorem keyed_insert {pool : Hash → Option (Block × Nat)} (hk : Keyed ids pool) {b : Block}
    {n : Nat} : Keyed ids (Function.update pool (ids.blkId b.header) (some (b, n))) := by
  intro h b' n' hb'
  by_cases he : h = ids.blkId b.header
  · subst he
    simp only [Function.update_self, Option.some.injEq, Prod.mk.injEq] at hb'
    rw [hb'.1]
  · exact hk h b' n' (by simpa [he] using hb')

theorem bounded_insert {pool : Hash → Option (Block × Nat)} {h : Hash} {x : Block × Nat}
    (hB : ∃ B, ∀ h b n, pool h = some (b, n) → ids.rank h < B) :
    ∃ B, ∀ h' b n, Function.update pool h (some x) h' = some (b, n) → ids.rank h' < B := by
  obtain ⟨B, hB⟩ := hB
  refine ⟨max B (ids.rank h + 1), fun h' b n hb => ?_⟩
  by_cases he : h' = h
  · subst he
    omega
  · have := hB h' b n (by simpa [he] using hb)
    omega

/-- The height a fresh insertion of `h` gives to other children is unchanged,
unless `h` is their parent. -/
theorem blkHeight_insert {pool : Hash → Option (Block × Nat)} {h p : Hash} {x : Block × Nat}
    (hne : p ≠ h) : blkHeight (Function.update pool h (some x)) p = blkHeight pool p := by
  unfold blkHeight
  simp [hne]

/-- Parking a block under its missing ancestor keeps the law. -/
theorem PoolInv.park {s : Pools} (hinv : PoolInv ids s) {b : Block}
    (hfresh : s.blockPool (ids.blkId b.header) = none) (h0 : blkHeight s.blockPool b.prev = 0) :
    PoolInv ids
      ⟨Function.update s.blockPool (ids.blkId b.header) (some (b, 0)),
        addOrphan s.orphanBlocks b.prev (ids.blkId b.header)⟩ := by
  set h := ids.blkId b.header with hh
  have hself : b.prev ≠ h := by
    intro he
    have := ids.rank_prev b.header
    rw [← hh, ← he] at this
    exact absurd this (Nat.lt_irrefl _)
  refine ⟨keyed_insert hinv.keyed, ?_, ?_, bounded_insert hinv.bounded⟩
  · intro h' b' n' hb'
    show n' = blkHeight (Function.update s.blockPool h (some (b, 0))) b'.prev
    by_cases he : h' = h
    · have hb'' : b = b' ∧ 0 = n' := by simpa [he] using hb'
      obtain ⟨rfl, rfl⟩ := hb''
      rw [blkHeight_insert hself, h0]
    · have hb'' : s.blockPool h' = some (b', n') := by simpa [he] using hb'
      have hn := hinv.heights h' b' n' hb''
      by_cases hp : b'.prev = h
      · -- a child of the parked block: its height was unknown and stays so
        rw [hn]
        simp [blkHeight, hp, hfresh]
      · rw [blkHeight_insert hp]
        exact hn
  · intro p c
    show Listed (addOrphan s.orphanBlocks b.prev h) p c ↔ _
    have hadd : Listed (addOrphan s.orphanBlocks b.prev h) p c ↔
        Listed s.orphanBlocks p c ∨ (p = b.prev ∧ c = h) := by
      unfold Listed addOrphan
      by_cases hp : p = b.prev
      · subst hp
        cases ho : s.orphanBlocks b.prev with
        | none => simp
        | some S => simp [or_comm]
      · simp [hp]
    rw [hadd, hinv.orphans]
    constructor
    · rintro (⟨b', hb', hp'⟩ | ⟨rfl, rfl⟩)
      · have hne : c ≠ h := fun e => by rw [e, hfresh] at hb'; exact absurd hb' (by simp)
        exact ⟨b', by simpa [hne] using hb', hp'⟩
      · exact ⟨b, by simp, rfl⟩
    · rintro ⟨b', hb', hp'⟩
      by_cases hc : c = h
      · have hbb : b = b' := by simpa [hc] using hb'
        exact Or.inr ⟨by rw [hbb, hp'], hc⟩
      · exact Or.inl ⟨b', by simpa [hc] using hb', hp'⟩

/-- In a lawful pool the orphan map is a forest. -/
theorem PoolInv.forest {s : Pools} (hinv : PoolInv ids s) :
    IsForest (Listed s.orphanBlocks) ids.rank := by
  constructor
  · intro x y z hx hy
    obtain ⟨b, hb, rfl⟩ := (hinv.orphans x z).mp hx
    obtain ⟨b', hb', rfl⟩ := (hinv.orphans y z).mp hy
    rw [hb] at hb'
    simp only [Option.some.injEq, Prod.mk.injEq, and_true] at hb'
    rw [hb']
  · intro x y hxy
    obtain ⟨b, hb, rfl⟩ := (hinv.orphans x y).mp hxy
    exact hinv.keyed.rank_prev hb

/-- A waiting block is pooled with height zero. -/
theorem PoolInv.desc_pooled {s : Pools} (hinv : PoolInv ids s) {h c : Hash} {d : Nat}
    (hd : Desc (Listed s.orphanBlocks) h (d + 1) c) : ∃ b, s.blockPool c = some (b, 0) := by
  obtain ⟨p, _, hp⟩ := hd.snoc_inv
  obtain ⟨b, hb, _⟩ := (hinv.orphans p c).mp hp
  exact ⟨b, hb⟩

/-- The pools as they stand when `update_orphans_and_return_tail` is called on a
newly connected block. -/
def connect (s : Pools) (h : Hash) (b : Block) (ht : Nat) : Pools :=
  ⟨Function.update s.blockPool h (some (b, ht)), s.orphanBlocks⟩

theorem PoolInv.ready {s : Pools} (hinv : PoolInv ids s) {h : Hash} {b : Block} {ht : Nat} :
    Ready s.orphanBlocks (connect s h b ht) h := by
  refine ⟨fun _ _ _ => rfl, fun d c hd => ?_⟩
  by_cases hc : c = h
  · subst hc
    exact ⟨b, ht, by simp [connect]⟩
  · cases d with
    | zero => exact absurd (Desc.zero_iff.mp hd).symm hc
    | succ d =>
      obtain ⟨b', hb'⟩ := hinv.desc_pooled hd
      exact ⟨b', 0, by simpa [connect, hc] using hb'⟩

section Connected

variable {s : Pools} {b : Block} {ht : Nat} {r : Pools × Hash × Nat}

/-- No block waits below itself. -/
theorem PoolInv.not_below_self (hinv : PoolInv ids s) {h : Hash} (d : Nat) :
    ¬ Desc (Listed s.orphanBlocks) h (d + 1) h := by
  intro hd
  have := hd.rank_le hinv.forest
  omega

/-- Connecting a block keeps every block where it is. -/
theorem Updated.extends {h : Hash}
    (hfresh : s.blockPool h = none)
    (hu : Updated s.orphanBlocks (connect s h b ht) h ht r) :
    Extends s.blockPool r.1.blockPool := by
  intro c b' n hb'
  have hne : c ≠ h := fun e => by rw [e, hfresh] at hb'; exact absurd hb' (by simp)
  have hc : (connect s h b ht).blockPool c = some (b', n) := by simpa [connect, hne] using hb'
  by_cases hd : ∃ d, Desc (Listed s.orphanBlocks) h (d + 1) c
  · obtain ⟨d, hd⟩ := hd
    exact ⟨_, hu.height d c b' n hd hc⟩
  · exact ⟨n, by rw [hu.pool_frame c (fun d h' => hd ⟨d, h'⟩)]; exact hc⟩

/-- What a block of the connected pool is: the new one, one that waited below
it, or an old one left as it was. -/
theorem Updated.block_cases (hinv : PoolInv ids s) {h : Hash}
    (hu : Updated s.orphanBlocks (connect s h b ht) h ht r) {c : Hash} {b' : Block} {n : Nat}
    (hc : r.1.blockPool c = some (b', n)) :
    (c = h ∧ b' = b ∧ n = ht) ∨
    (c ≠ h ∧ ∃ d, Desc (Listed s.orphanBlocks) h (d + 1) c ∧ s.blockPool c = some (b', 0) ∧
      n = ht + (d + 1)) ∨
    (c ≠ h ∧ (∀ d, ¬ Desc (Listed s.orphanBlocks) h (d + 1) c) ∧
      s.blockPool c = some (b', n)) := by
  by_cases hch : c = h
  · subst hch
    rw [hu.pool_frame c hinv.not_below_self] at hc
    have : b = b' ∧ ht = n := by simpa [connect] using hc
    exact Or.inl ⟨rfl, this.1.symm, this.2.symm⟩
  · right
    by_cases hd : ∃ d, Desc (Listed s.orphanBlocks) h (d + 1) c
    · obtain ⟨d, hd⟩ := hd
      obtain ⟨b'', hb''⟩ := hinv.desc_pooled hd
      have hcc : (connect s h b ht).blockPool c = some (b'', 0) := by
        simpa [connect, hch] using hb''
      rw [hu.height d c b'' 0 hd hcc] at hc
      simp only [Option.some.injEq, Prod.mk.injEq] at hc
      obtain ⟨rfl, rfl⟩ := hc
      exact Or.inl ⟨hch, d, hd, hb'', rfl⟩
    · have hno : ∀ d, ¬ Desc (Listed s.orphanBlocks) h (d + 1) c := fun d h' => hd ⟨d, h'⟩
      rw [hu.pool_frame c hno] at hc
      exact Or.inr ⟨hch, hno, by simpa [connect, hch] using hc⟩

/-- A block that waited below the new one, and the new one itself, is pooled at
its distance from the new one. -/
theorem Updated.pooled_below (hinv : PoolInv ids s) {h : Hash}
    (hu : Updated s.orphanBlocks (connect s h b ht) h ht r) {d : Nat} {c : Hash}
    (hd : Desc (Listed s.orphanBlocks) h d c) : ∃ b', r.1.blockPool c = some (b', ht + d) := by
  cases d with
  | zero =>
    obtain rfl := Desc.zero_iff.mp hd
    refine ⟨b, ?_⟩
    rw [hu.pool_frame h hinv.not_below_self]
    simp [connect]
  | succ d =>
    obtain ⟨b', hb'⟩ := hinv.desc_pooled hd
    have hch : c ≠ h := fun e => hinv.not_below_self d (e ▸ hd)
    exact ⟨b', hu.height d c b' 0 hd (by simpa [connect, hch] using hb')⟩

/-- A pooled child, of height zero, of the new block or of a waiting one was
waiting. -/
theorem PoolInv.below_child (hinv : PoolInv ids s) {h p c : Hash} {d : Nat} {b' : Block}
    (hd : Desc (Listed s.orphanBlocks) h d p) (hc : s.blockPool c = some (b', 0))
    (hp : b'.prev = p) : Desc (Listed s.orphanBlocks) h (d + 1) c :=
  hd.snoc ((hinv.orphans p c).mpr ⟨b', hc, hp⟩)

/-- Neither the new block nor one that waits below it is the genesis block. -/
theorem PoolInv.below_ne_zero (hinv : PoolInv ids s) {h p : Hash} {d : Nat} (hh : h ≠ 0)
    (hd : Desc (Listed s.orphanBlocks) h d p) : p ≠ 0 := by
  cases d with
  | zero =>
    obtain rfl := Desc.zero_iff.mp hd
    exact hh
  | succ d =>
    obtain ⟨b', hb'⟩ := hinv.desc_pooled hd
    exact hinv.keyed.ne_zero hb'

/-- Their heights were unknown. -/
theorem PoolInv.height_unknown (hinv : PoolInv ids s) {h p : Hash} {d : Nat} (hh : h ≠ 0)
    (hfresh : s.blockPool h = none) (hd : Desc (Listed s.orphanBlocks) h d p) :
    blkHeight s.blockPool p = 0 := by
  have hp := hinv.below_ne_zero hh hd
  cases d with
  | zero =>
    obtain rfl := Desc.zero_iff.mp hd
    simp [blkHeight, hp, hfresh]
  | succ d =>
    obtain ⟨b', hb'⟩ := hinv.desc_pooled hd
    simp [blkHeight, hp, hb']

/-- Every other height stays. -/
theorem Updated.height_other {h p : Hash}
    (hu : Updated s.orphanBlocks (connect s h b ht) h ht r)
    (hp : ∀ d, ¬ Desc (Listed s.orphanBlocks) h d p) :
    blkHeight r.1.blockPool p = blkHeight s.blockPool p := by
  have hph : p ≠ h := fun e => hp 0 (e ▸ .refl p)
  unfold blkHeight
  rw [hu.pool_frame p (fun d => hp (d + 1))]
  simp [connect, hph]

/-- The orphan map lists what waits after the call: what waited below the new
block does so no more. -/
theorem Updated.orphans (hinv : PoolInv ids s) {h : Hash} (hfresh : s.blockPool h = none)
    (hpos : 0 < ht) (hu : Updated s.orphanBlocks (connect s h b ht) h ht r) (p c : Hash) :
    Listed r.1.orphanBlocks p c ↔ ∃ b', r.1.blockPool c = some (b', 0) ∧ b'.prev = p := by
  by_cases hp : ∃ d, Desc (Listed s.orphanBlocks) h d p
  · obtain ⟨d, hd⟩ := hp
    have hnone : r.1.orphanBlocks p = none := hu.gone d p hd
    constructor
    · rintro ⟨S, hS, _⟩
      rw [hnone] at hS
      exact absurd hS (by simp)
    · rintro ⟨b', hc, hpr⟩
      exfalso
      rcases hu.block_cases hinv hc with ⟨-, -, h0⟩ | ⟨-, e, -, -, h0⟩ | ⟨-, hno, hb'⟩
      · omega
      · omega
      · exact hno d (hinv.below_child hd hb' hpr)
  · have hp' : ∀ d, ¬ Desc (Listed s.orphanBlocks) h d p := fun d h' => hp ⟨d, h'⟩
    have heq : r.1.orphanBlocks p = s.orphanBlocks p := hu.orphan_frame p hp'
    have hlist : Listed r.1.orphanBlocks p c ↔ Listed s.orphanBlocks p c := by
      unfold Listed
      rw [heq]
    rw [hlist]
    constructor
    · intro hl
      obtain ⟨b', hb', hpr⟩ := (hinv.orphans p c).mp hl
      refine ⟨b', ?_, hpr⟩
      have hno : ∀ d, ¬ Desc (Listed s.orphanBlocks) h (d + 1) c := by
        intro d hd
        obtain ⟨q, hq, hqc⟩ := hd.snoc_inv
        obtain rfl := hinv.forest.parent _ _ _ hqc hl
        exact hp' d hq
      have hch : c ≠ h := fun e => by rw [e, hfresh] at hb'; exact absurd hb' (by simp)
      rw [hu.pool_frame c hno]
      simpa [connect, hch] using hb'
    · rintro ⟨b', hc, hpr⟩
      rcases hu.block_cases hinv hc with ⟨-, -, h0⟩ | ⟨-, d, -, -, h0⟩ | ⟨-, -, hb'⟩
      · omega
      · omega
      · exact (hinv.orphans p c).mpr ⟨b', hb', hpr⟩

/-- Connecting a block, with everything that waited for it, keeps the law. -/
theorem PoolInv.connected (hinv : PoolInv ids s)
    (hfresh : s.blockPool (ids.blkId b.header) = none)
    (hht : ht = blkHeight s.blockPool b.prev) (hpos : 0 < ht)
    (hu : Updated s.orphanBlocks (connect s (ids.blkId b.header) b ht) (ids.blkId b.header) ht r) :
    PoolInv ids r.1 := by
  have hh := ids.blkId_ne_zero b.header
  refine ⟨?_, ?_, hu.orphans hinv hfresh hpos, ?_⟩
  · intro c b' n hc
    rcases hu.block_cases hinv hc with ⟨rfl, rfl, -⟩ | ⟨-, d, -, hb', -⟩ | ⟨-, -, hb'⟩
    · rfl
    · exact hinv.keyed c b' 0 hb'
    · exact hinv.keyed c b' n hb'
  · intro c b' n hc
    rcases hu.block_cases hinv hc with ⟨rfl, rfl, rfl⟩ | ⟨-, d, hd, hb', rfl⟩ | ⟨hch, hno, hb'⟩
    · rw [hu.height_other, hht]
      -- the parent of the new block has a known height, so it did not wait
      intro d hd
      have := hinv.height_unknown hh hfresh hd
      omega
    · obtain ⟨p, hp, hpc⟩ := hd.snoc_inv
      obtain ⟨b'', hb'', rfl⟩ := (hinv.orphans p c).mp hpc
      rw [hb', Option.some.injEq, Prod.mk.injEq] at hb''
      obtain ⟨rfl, -⟩ := hb''
      obtain ⟨bp, hbp⟩ := hu.pooled_below hinv hp
      rw [blkHeight, if_neg (hinv.below_ne_zero hh hp), hbp]
      dsimp only
      rw [if_pos (by omega)]
      omega
    · rw [hu.height_other]
      · exact hinv.heights c b' n hb'
      · intro d hd
        have hn : n = 0 := by rw [hinv.heights c b' n hb', hinv.height_unknown hh hfresh hd]
        subst hn
        exact hno d (hinv.below_child hd hb' rfl)
  · obtain ⟨B, hB⟩ := hinv.bounded
    refine ⟨max B (ids.rank (ids.blkId b.header) + 1), fun c b' n hc => ?_⟩
    rcases hu.block_cases hinv hc with ⟨rfl, -, -⟩ | ⟨-, d, -, hb', -⟩ | ⟨-, -, hb'⟩
    · omega
    · have := hB c b' 0 hb'
      omega
    · have := hB c b' n hb'
      omega

/-- The deepest descendant is pooled at the height returned with it. -/
theorem Updated.tail_pooled (hinv : PoolInv ids s) {h : Hash}
    (hu : Updated s.orphanBlocks (connect s h b ht) h ht r) :
    ∃ b', r.1.blockPool r.2.1 = some (b', r.2.2) := by
  obtain ⟨d, hd, hdeq⟩ := hu.tail
  rw [hdeq]
  exact hu.pooled_below hinv hd

end Connected

end Copycat.Bitcoin
