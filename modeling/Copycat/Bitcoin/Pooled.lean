import Copycat.Bitcoin.Mempool

/-!
# Where the blocks of the pool come from

A call puts one block in the pool at most, the one that it mines or validates
(`step_pooled`). So what is pooled can be read off the labels of a run
(`pooled_run`), and with it whether the ids that are mined are new (`fresh_run`) and
whether a path has a transaction twice (`noRepeat_run`). For the latter the blocks
are put in one pool, `netPool`, in which `walk` follows the parents.

`evalCall` makes a call, for runs on given inputs.
-/

namespace Copycat.Bitcoin

open Copycat.Lib

variable {ids : IdScheme} {cfg : Config}

/-- A list of blocks as a pool. -/
def netPool (ids : IdScheme) : List Block → Hash → Option (Block × Nat)
  | [] => fun _ => none
  | block :: blocks => withBlock ids (netPool ids blocks) block

theorem netPool_keyed (blocks : List Block) : Keyed ids (netPool ids blocks) := by
  induction blocks with
  | nil =>
    intro h b n hb
    exact absurd hb (by simp [netPool])
  | cons block blocks ih => exact keyed_insert ih

theorem netPool_mem {blocks : List Block} {h : Hash} {b : Block} {n : Nat}
    (hb : netPool ids blocks h = some (b, n)) : b ∈ blocks := by
  induction blocks with
  | nil => exact absurd hb (by simp [netPool])
  | cons block blocks ih =>
    by_cases hh : h = ids.blkId block.header
    · have : block = b ∧ 0 = n := by simpa [netPool, withBlock, hh] using hb
      rw [this.1]
      exact List.mem_cons_self ..
    · refine List.mem_cons_of_mem _ (ih ?_)
      simpa [netPool, withBlock, hh] using hb

theorem netPool_of_mem {blocks : List Block}
    (hd : (blocks.map fun b => ids.blkId b.header).Nodup) :
    ∀ b ∈ blocks, netPool ids blocks (ids.blkId b.header) = some (b, 0) := by
  induction blocks with
  | nil => intro b hb; exact absurd hb (by simp)
  | cons block blocks ih =>
    intro b hb
    rw [List.map_cons, List.nodup_cons] at hd
    show Function.update (netPool ids blocks) _ _ _ = _
    rcases List.mem_cons.mp hb with rfl | hb
    · exact Function.update_self ..
    · have hne : ids.blkId b.header ≠ ids.blkId block.header := fun he =>
        hd.1 (he ▸ List.mem_map.mpr ⟨b, hb, rfl⟩)
      rw [Function.update_of_ne hne]
      exact ih hd.2 b hb

/-! ## Paths in a pool -/

/-- A path is one of every pool that has its blocks. -/
theorem PathTo.transfer {pool pool' : Hash → Option (Block × Nat)} (hk : Keyed ids pool)
    {h : Hash} {p : List Block} (hp : PathTo pool h p)
    (hall : ∀ b ∈ p, ∃ n, pool' (ids.blkId b.header) = some (b, n)) : PathTo pool' h p := by
  induction hp with
  | genesis => exact .genesis
  | @snoc h b n p hb _ ih =>
    obtain ⟨m, hm⟩ := hall b (by simp)
    rw [hk h b n hb] at hm
    exact .snoc hm (ih fun b' hb' => hall b' (by simp [hb']))

/-- The parents of `h`, as far as `n` blocks back. -/
def walk (pool : Hash → Option (Block × Nat)) : Nat → Hash → Option (List Block)
  | 0, h => if h = 0 then some [] else none
  | n + 1, h =>
    if h = 0 then some []
    else (pool h).bind fun (b, _) => (walk pool n b.prev).map (· ++ [b])

/-- What it finds is a path. -/
theorem pathTo_of_walk {pool : Hash → Option (Block × Nat)} {n : Nat} : ∀ {h : Hash}
    {p : List Block}, walk pool n h = some p → PathTo pool h p := by
  have hzero : ∀ {h : Hash} {p : List Block}, h = 0 → some [] = some p → PathTo pool h p := by
    intro h p h0 hp
    rw [h0, ← Option.some.inj hp]
    exact .genesis
  induction n with
  | zero =>
    intro h p hp
    unfold walk at hp
    split at hp
    · rename_i h0
      exact hzero h0 hp
    · exact absurd hp (by simp)
  | succ n ih =>
    intro h p hp
    unfold walk at hp
    split at hp
    · rename_i h0
      exact hzero h0 hp
    · obtain ⟨⟨b, m⟩, hb, hp⟩ := Option.bind_eq_some_iff.mp hp
      obtain ⟨q, hq, rfl⟩ := Option.map_eq_some_iff.mp hp
      exact .snoc hb (ih hq)

/-- Where `paths` has a path to every block, there are no others. -/
theorem path_mem {blocks : List Block} {paths : List (List Block)}
    (hpaths : ∀ b ∈ blocks, ∃ p ∈ paths, PathTo (netPool ids blocks) (ids.blkId b.header) p)
    {h : Hash} {p : List Block} (hp : PathTo (netPool ids blocks) h p) : p = [] ∨ p ∈ paths := by
  have hkeyed := @netPool_keyed ids blocks
  rcases hp.end_cases with ⟨-, hnil⟩ | ⟨b, n, q, -, hb, -⟩
  · exact Or.inl hnil
  · obtain ⟨p', hmem, hp'⟩ := hpaths b (netPool_mem hb)
    rw [hkeyed h b n hb] at hp'
    exact Or.inr (hp.unique hkeyed hp' ▸ hmem)

/-! ## The labels -/

/-- The blocks that `validate_block` leaves in the pool: those that were there,
and the new one. -/
theorem Outcome.pooled_cases {ord : HashOrder} {s : BlockManagement} {block : Block}
    {v : Validated} (hinv : ChainInv ids s) (h : Outcome ids ord s block v) :
    ∀ hash b n, v.state.blockPool hash = some (b, n) →
      (∃ n', s.blockPool hash = some (b, n')) ∨
        (hash = ids.blkId block.header ∧ b = block) := by
  intro hash b n hb
  have hwith : ∀ {n'}, withBlock ids s.blockPool block hash = some (b, n') →
      (∃ n', s.blockPool hash = some (b, n')) ∨ (hash = ids.blkId block.header ∧ b = block) := by
    intro n' hn'
    unfold withBlock at hn'
    by_cases hh : hash = ids.blkId block.header
    · rw [hh, Function.update_self, Option.some.injEq, Prod.mk.injEq] at hn'
      exact Or.inr ⟨hh, hn'.1.symm⟩
    · rw [Function.update_of_ne hh] at hn'
      exact Or.inl ⟨n', hn'⟩
  cases h with
  | ignored => exact Or.inl ⟨n, hb⟩
  | rejected => exact Or.inl ⟨n, hb⟩
  | parked => exact hwith hb
  | shorter hc =>
    obtain ⟨n', hn'⟩ := hc.extends_withBlock hinv _ _ _ hb
    exact hwith hn'
  | invalid hc =>
    obtain ⟨n', hn'⟩ := hc.extends_withBlock hinv _ _ _ hb
    exact hwith hn'
  | adopted hc =>
    obtain ⟨n', hn'⟩ := hc.extends_withBlock hinv _ _ _ hb
    exact hwith hn'

/-- The blocks a call leaves in the pool. -/
theorem step_pooled {cfg : Config} {s s' : BlockManagement} {l : Label}
    (hchain : ChainInv cfg.ids s) (h : Step cfg s l s') :
    ∀ hash b n, s'.blockPool hash = some (b, n) →
      (∃ n', s.blockPool hash = some (b, n')) ∨
      (hash = cfg.ids.blkId b.header ∧
        ((l.1 = .getNewBlock ∧ l.2 = [b]) ∨ l.1 = .validateBlock b)) := by
  intro hash b n hb
  cases h with
  | record txn =>
    unfold recordNewTxn at hb
    dsimp only at hb
    split at hb
    · exact Or.inl ⟨n, hb⟩
    · exact Or.inl ⟨n, hb⟩
  | prepare h =>
    rw [(prepareNewBlock_frame h).1] at hb
    exact Or.inl ⟨n, hb⟩
  | @mine _ block h =>
    obtain ⟨chainLength, root, -, -, -, rfl⟩ := getNewBlock_cases h
    by_cases hh : hash = cfg.ids.blkId block.header
    · have : block = b ∧ chainLength + 1 = n := by simpa [mined, hh] using hb
      obtain ⟨rfl, -⟩ := this
      exact Or.inr ⟨hh, Or.inl ⟨rfl, rfl⟩⟩
    · exact Or.inl ⟨n, by simpa [mined, hh] using hb⟩
  | @validate ord fuel block v h =>
    rcases ((validateBlock_spec ord hchain block).1 _ _ h).pooled_cases hchain hash b n hb with
      h | ⟨hh, rfl⟩
    · exact Or.inl h
    · exact Or.inr ⟨hh, Or.inr rfl⟩

/-- The block that a call has mined. -/
def Label.mined : Label → List Block
  | (.getNewBlock, newTail) => newTail
  | _ => []

/-- The block that a call may put in the pool. -/
def Label.blocks : Label → List Block
  | (.getNewBlock, newTail) => newTail
  | (.validateBlock block, _) => [block]
  | _ => []

/-- Every block in the pool has been mined or validated. -/
theorem pooled_run {tr : List Label} {s : BlockManagement}
    (h : (stage cfg).Run (FreshId cfg) tr s) :
    ∀ hash b n, s.blockPool hash = some (b, n) → b ∈ tr.flatMap Label.blocks := by
  induction h with
  | nil => exact fun hash b n hb => absurd hb (by simp [stage, BlockManagement.new])
  | @snoc tr s s' l hrun _ hstep ih =>
    intro hash b n hb
    rw [List.flatMap_append, List.flatMap_singleton]
    rcases step_pooled (chainInv_run (fun _ _ hg => hg) hrun) hstep hash b n hb with
      ⟨n', hn'⟩ | ⟨-, hl⟩
    · exact List.mem_append_left _ (ih hash b n' hn')
    · refine List.mem_append_right _ ?_
      obtain ⟨c, newTail⟩ := l
      rcases hl with ⟨rfl, rfl⟩ | rfl
      · exact List.mem_singleton.mpr rfl
      · exact List.mem_singleton.mpr rfl

/-- A block that is mined after `l` is neither the block of `l` nor its parent. -/
def MinedAfter (ids : IdScheme) (l l' : Label) : Prop :=
  ∀ b' ∈ l'.mined, ∀ b ∈ l.blocks,
    ids.blkId b.header ≠ ids.blkId b'.header ∧ b.prev ≠ ids.blkId b'.header

instance (ids : IdScheme) (l l' : Label) : Decidable (MinedAfter ids l l') :=
  inferInstanceAs (Decidable (∀ b' ∈ l'.mined, ∀ b ∈ l.blocks, _ ∧ _))

/-- Whether a mined id is fresh can be seen from the labels so far. -/
theorem freshId_of_labels {tr : List Label} {s : BlockManagement}
    (h : (stage cfg).Run (FreshId cfg) tr s) {l : Label}
    (hmined : ∀ l' ∈ tr, MinedAfter cfg.ids l' l) : FreshId cfg s l := by
  intro hcall block hblock
  have hkeyed := (chainInv_run (fun _ _ hg => hg) h).pools.keyed
  have hnew : ∀ hash b n, s.blockPool hash = some (b, n) →
      cfg.ids.blkId b.header ≠ cfg.ids.blkId block.header ∧
        b.prev ≠ cfg.ids.blkId block.header := by
    intro hash b n hb
    obtain ⟨l', hl', hb'⟩ := List.mem_flatMap.mp (pooled_run h hash b n hb)
    refine hmined l' hl' block ?_ b hb'
    obtain ⟨c, newTail⟩ := l
    obtain rfl : c = .getNewBlock := hcall
    exact hblock
  refine ⟨?_, fun hash b n hb => (hnew hash b n hb).2⟩
  cases hb : s.blockPool (cfg.ids.blkId block.header) with
  | none => rfl
  | some x => exact absurd (hkeyed _ x.1 x.2 hb) (hnew _ x.1 x.2 hb).1

theorem fresh_run {G : BlockManagement → Label → Prop} {tr : List Label} {s : BlockManagement}
    (h : (stage cfg).Run G tr s) (hmined : tr.Pairwise (MinedAfter cfg.ids)) :
    (stage cfg).Run (FreshId cfg) tr s := by
  refine h.strengthen fun pre l suf s he hrun _ => freshId_of_labels hrun fun l' hl' => ?_
  rw [he, List.pairwise_append] at hmined
  exact hmined.2.2 l' hl' l (List.mem_cons_self ..)

/-- The paths in a pool of these blocks. -/
theorem pathTo_netPool {blocks : List Block}
    (hdistinct : (blocks.map fun b => ids.blkId b.header).Nodup)
    {pool : Hash → Option (Block × Nat)} (hkeyed : Keyed ids pool)
    (hpool : ∀ hash b n, pool hash = some (b, n) → b ∈ blocks) {h : Hash} {p : List Block}
    (hp : PathTo pool h p) : PathTo (netPool ids blocks) h p := by
  refine hp.mono fun hash b n hb => ⟨0, ?_⟩
  rw [← hkeyed hash b n hb]
  exact netPool_of_mem hdistinct b (hpool hash b n hb)

/-- Where no path of the blocks has a transaction twice, no call repeats one. -/
theorem noRepeat_run {G : BlockManagement → Label → Prop} {tr : List Label}
    {s : BlockManagement} {blocks : List Block} {paths : List (List Block)}
    (h : (stage cfg).Run G tr s) (hG : ∀ s l, G s l → FreshId cfg s l)
    (hdistinct : (blocks.map fun b => cfg.ids.blkId b.header).Nodup)
    (hblocks : ∀ b ∈ tr.flatMap Label.blocks, b ∈ blocks)
    (hpaths : ∀ b ∈ blocks, ∃ p ∈ paths,
      PathTo (netPool cfg.ids blocks) (cfg.ids.blkId b.header) p)
    (hnodup : ∀ p ∈ paths, (txnIds cfg.ids (chainTxns p)).Nodup) :
    (stage cfg).Run (fun s l => G s l ∧ NoRepeat cfg s l) tr s := by
  refine h.strengthen fun pre l suf s he hrun hg => ⟨hg, fun block hl _ hash p hp => ?_⟩
  have hfresh := hrun.mono fun s l _ hg => hG s l hg.1
  have hkeyed := (chainInv_run (fun _ _ hg => hg) hfresh).pools.keyed
  have hmem : ∀ l' ∈ pre ++ [l], ∀ b ∈ l'.blocks, b ∈ blocks := by
    intro l' hl' b hb
    refine hblocks b (List.mem_flatMap.mpr ⟨l', ?_, hb⟩)
    rw [he, ← List.singleton_append, ← List.append_assoc]
    exact List.mem_append_left _ hl'
  refine (path_mem hpaths (pathTo_netPool hdistinct (keyed_insert hkeyed) ?_ hp)).elim
    (fun hnil => hnil ▸ List.nodup_nil) (hnodup p)
  intro hash b n hb
  by_cases hh : hash = cfg.ids.blkId block.header
  · rw [hh, Function.update_self, Option.some.injEq, Prod.mk.injEq] at hb
    refine hmem l (List.mem_append_right _ (List.mem_singleton.mpr rfl)) b ?_
    obtain ⟨c, newTail⟩ := l
    obtain rfl : c = .validateBlock block := hl
    exact hb.1 ▸ List.mem_singleton.mpr rfl
  · rw [Function.update_of_ne hh] at hb
    obtain ⟨l', hl', hb⟩ := List.mem_flatMap.mp (pooled_run hfresh hash b n hb)
    exact hmem l' (List.mem_append_left _ hl') b hb

/-! ## Evaluation -/

/-- A call, made; the orphans of one parent are taken in the order of their ids. -/
def evalCall (cfg : Config) (fuel : Nat) (s : BlockManagement) (c : Call) :
    Option (Label × BlockManagement) :=
  match c with
  | .recordNewTxn txn => some ((c, []), (recordNewTxn cfg.ids s txn).1)
  | .prepareNewBlock root =>
    (prepareNewBlock cfg.enumSize fuel root s).toOption.map fun r => ((c, []), r.1)
  | .getNewBlock => (getNewBlock cfg.ids cfg.self s).toOption.map fun r => ((c, [r.2]), r.1)
  | .validateBlock block =>
    (validateBlock cfg.ids .sorted fuel s block).toOption.map fun v =>
      ((c, v.newTail), v.state)

theorem evalCall_step {fuel : Nat} {s : BlockManagement} {c : Call} {l : Label}
    {s' : BlockManagement} (h : evalCall cfg fuel s c = some (l, s')) : Step cfg s l s' := by
  unfold evalCall at h
  cases c with
  | recordNewTxn txn =>
    obtain ⟨rfl, rfl⟩ := Prod.mk.inj (Option.some.inj h)
    exact .record s txn
  | prepareNewBlock root =>
    obtain ⟨r, hr, h⟩ := Option.map_eq_some_iff.mp h
    obtain ⟨rfl, rfl⟩ := Prod.mk.inj h
    exact .prepare (toOption_eq_some.mp hr)
  | getNewBlock =>
    obtain ⟨r, hr, h⟩ := Option.map_eq_some_iff.mp h
    obtain ⟨rfl, rfl⟩ := Prod.mk.inj h
    exact .mine (toOption_eq_some.mp hr)
  | validateBlock block =>
    obtain ⟨v, hv, h⟩ := Option.map_eq_some_iff.mp h
    obtain ⟨rfl, rfl⟩ := Prod.mk.inj h
    exact .validate (toOption_eq_some.mp hv)

/-- What the calls come to is so at the end of a run, if the mined ids are new. -/
theorem evalCalls_run (cfg : Config) (fuel : Nat) (calls : List Call)
    (q : List Label × BlockManagement → Bool)
    (h : (Machine.evaluate (evalCall cfg fuel) (fun _ _ => true) calls .new).any
      (fun r => r.1.Pairwise (MinedAfter cfg.ids) && q r) = true) :
    ∃ tr s, (stage cfg).Run (FreshId cfg) tr s ∧ q (tr, s) = true := by
  obtain ⟨tr, s, hrun, hq⟩ := Machine.exists_run (M := stage cfg) (evalCall cfg fuel)
    (fun _ _ _ _ => evalCall_step) (fun _ _ => true) calls _ h
  obtain ⟨hmined, hq⟩ := Bool.and_eq_true_iff.mp hq
  exact ⟨tr, s, fresh_run hrun (of_decide_eq_true hmined), hq⟩

end Copycat.Bitcoin
