import Copycat.Avalanche.Rechecks

/-!
# Parked blocks, level by level

A block of depth `d` brings the missing parents of the block parked at depth
`d - 1`. `Levels` says so about all the blocks parked for one query. When a
block arrives on top of them, it is either parked itself or goes through, and
then takes the whole stack with it (`validateBlock_spec`).

Everything else the stage does leaves the stack alone, and the pool only grows
(`act_pool`, `act_pending`).
-/

namespace Copycat.Avalanche

open Copycat.Lib
open BlockManagement

variable {ids : UniqueIds} {known : Set AvalancheTxn}
  {pool₀ pool pool' : Hash → Option AvalancheTxn}
variable {txns orig : List AvalancheTxn}

/-- The blocks parked below a depth, for a query of `txns`: the next one brings
what they ask for. -/
inductive Levels (ids : UniqueIds) (known : Set AvalancheTxn) (pool : Hash → Option AvalancheTxn)
    (pending : Nat → Option ParkedBlk) (txns : List AvalancheTxn) : Nat → List AvalancheTxn → Prop
  | zero : Levels ids known pool pending txns 0 txns
  | succ {d : Nat} {orig next : List AvalancheTxn} {parked : ParkedBlk} :
      Levels ids known pool pending txns d orig → pending d = some parked →
      Parked ids known pool orig (next.map ids.txnId) parked.txns parked.recheckIdx →
      (∀ p ∈ next, p.fromClient) → Levels ids known pool pending txns (d + 1) next

theorem Levels.mono {pending pending' : Nat → Option ParkedBlk} {d : Nat}
    (h : Levels ids known pool pending txns d orig) (hgrow : Grows pool pool') :
    (∀ j, j < d → pending' j = pending j) → Levels ids known pool' pending' txns d orig := by
  induction h with
  | zero => exact fun _ => .zero
  | @succ d orig next parked _ hparked hpos hclient ih =>
    intro hsame
    exact .succ (ih fun j hj => hsame j (Nat.lt_succ_of_lt hj))
      ((hsame d (Nat.lt_succ_self d)).trans hparked) (hpos.mono hgrow) hclient

/-- A settled level, whatever it had asked for. -/
theorem Parked.done {asked : List Hash} {out : List AvalancheTxn}
    (h : Parked ids known pool orig asked out []) (asked' : List Hash) :
    Parked ids known pool orig asked' out [] where
  length := h.length
  bound := h.bound
  position _ _ _ ht hout := Or.inl (h.settled ht hout)

/-- Going down the stack. -/
theorem recheckBlks_spec {proposer blkId d : Nat} :
    ∀ {dag : ProposalDag × List Hash} {pending : NodeId × Nat × Nat → Option ParkedBlk}
      {orig filtered : List AvalancheTxn}, PoolInv ids known pool₀ dag.1.txnPool →
      Levels ids (knownIn ids pool₀) dag.1.txnPool (fun j => pending (proposer, blkId, j)) txns d
        orig →
      Resolved ids (knownIn ids pool₀) dag.1.txnPool orig →
      (d = 0 → Parked ids (knownIn ids pool₀) dag.1.txnPool txns [] filtered []) →
      ∃ dag' pending' out,
        recheckBlks ids proposer blkId d dag pending filtered = .ok (dag', pending', some out) ∧
        PoolInv ids known pool₀ dag'.1.txnPool ∧
        Parked ids (knownIn ids pool₀) dag'.1.txnPool txns [] out [] ∧
        ∀ j, pending' (proposer, blkId, j) =
          if j < d then none else pending (proposer, blkId, j) := by
  induction d with
  | zero =>
    intro dag pending orig filtered hpool _ _ hzero
    exact ⟨dag, pending, filtered, rfl, hpool, hzero rfl, fun j => by simp⟩
  | succ d ih =>
    intro dag pending next filtered hpool hlevels hres _
    cases hlevels with
    | @succ _ orig _ parked hbelow hparked hpos hclient =>
      have hparked : pending (proposer, blkId, d) = some parked := hparked
      obtain ⟨r, hr, hpool', hgrow, hsettled⟩ := recheckLoop_spec _ hpool hpos fun x hx => by
        obtain ⟨p, hp, rfl⟩ := List.mem_map.mp hx
        rcases hres p hp (hclient p hp) with hin | hrej
        · exact Or.inl (by rw [show dag.1.txnPool _ = some p from hin]; rfl)
        · exact Or.inr ⟨p, rfl, hrej⟩
      have hrest : ∀ j, j < d →
          Function.update pending (proposer, blkId, d) none (proposer, blkId, j) =
            pending (proposer, blkId, j) := by
        intro j hj
        exact Function.update_of_ne (by simp; omega) ..
      have hzero : d = 0 → Parked ids (knownIn ids pool₀) r.1.1.txnPool txns []
          (if d = 0 then r.2 else filtered) [] := by
        rintro rfl
        cases hbelow with
        | zero => exact hsettled.done []
      obtain ⟨dag', pending', out, hout, hpool'', hdone, hpending⟩ :=
        ih hpool' (hbelow.mono hgrow hrest) hsettled.resolved hzero
      refine ⟨dag', pending', out, ?_, hpool'', hdone, fun j => ?_⟩
      · rw [recheckBlks, hparked]
        exact bind_eq_ok.mpr ⟨r, hr, hout⟩
      · rw [hpending]
        rcases Nat.lt_trichotomy j d with hj | rfl | hj
        · rw [if_pos hj, if_pos (Nat.lt_succ_of_lt hj)]
        · rw [if_neg (Nat.lt_irrefl j), if_pos (Nat.lt_succ_self j), Function.update_self]
        · rw [if_neg (by omega), if_neg (by omega), Function.update_of_ne (by simp; omega)]

/-- What comes of a block of depth `d`: it is parked, and its missing parents are
asked for, or the query is answered. -/
inductive Outcome (ids : UniqueIds) (known : Set AvalancheTxn) (s : BlockManagement)
    (txns : List AvalancheTxn) (proposer blkId d : Nat) (orig : List AvalancheTxn)
    (v : Validated) : Prop
  | asks (asked : List Hash) (parked : ParkedBlk) : v.newTail = [] →
      v.req = some ⟨proposer, blkId, d, asked⟩ → asked ≠ [] →
      (∀ h ∈ asked, ∃ t ∈ orig, h ∈ (avalancheKind ids).deps t) →
      Parked ids known v.state.txnPool orig asked parked.txns parked.recheckIdx →
      (∀ j, v.state.pendingBlks (proposer, blkId, j) =
        if j = d then some parked else s.pendingBlks (proposer, blkId, j)) →
      Outcome ids known s txns proposer blkId d orig v
  | emits (out : List AvalancheTxn) : v.newTail = [⟨proposer, blkId, 0, out⟩] → v.req = none →
      Parked ids known v.state.txnPool txns [] out [] →
      (∀ j, v.state.pendingBlks (proposer, blkId, j) =
        if j < d then none else s.pendingBlks (proposer, blkId, j)) →
      Outcome ids known s txns proposer blkId d orig v

/-- The first pass over a block, and how the pool grows in it. -/
theorem filterLoop_grows {s : BlockManagement} (hpool : PoolInv ids known pool₀ s.txnPool)
    (txns : List AvalancheTxn) :
    ∃ f, txns.zipIdx.foldlM (filterTxn ids) ⟨(s.toProposalDag, []), [], [], []⟩ = .ok f ∧
      FilterInv ids known pool₀ txns f ∧ Grows s.txnPool f.dag.1.txnPool := by
  obtain ⟨f, hf, hinv⟩ := filterLoop_spec txns
    (filterInv_nil (s.toProposalDag, []) hpool)
  obtain ⟨f', hf', hinv'⟩ := filterLoop_spec txns
    (filterInv_nil (s.toProposalDag, []) (poolInv_refl hpool.filed))
  obtain rfl : f = f' := Except.ok.inj (hf.symm.trans hf')
  exact ⟨f, hf, hinv, hinv'.pool.grows⟩

/-- A block on top of what is parked for its query. -/
theorem validateBlock_spec {s : BlockManagement} {proposer blkId d : Nat}
    (hpool : PoolInv ids known pool₀ s.txnPool)
    (hlevels : Levels ids (knownIn ids pool₀) s.txnPool
      (fun j => s.pendingBlks (proposer, blkId, j)) txns d orig) :
    ∃ v, validateBlock ids s ⟨proposer, blkId, d, orig⟩ = .ok v ∧
      PoolInv ids known pool₀ v.state.txnPool ∧
      Outcome ids (knownIn ids pool₀) s txns proposer blkId d orig v := by
  obtain ⟨f, hf, hinv, hgrow⟩ := filterLoop_grows hpool orig
  unfold validateBlock
  dsimp only
  rw [hf]
  show ∃ v, (if f.missingDeps.length > 0 then _ else _) = _ ∧ _
  split
  · rename_i hlen
    refine ⟨_, rfl, hinv.pool, .asks f.missingDeps ⟨f.txns, f.recheckIdx⟩ rfl rfl
      (List.ne_nil_of_length_pos hlen) hinv.missing hinv.parked fun j => ?_⟩
    split
    · rename_i hj
      rw [hj]
      exact Function.update_self ..
    · rename_i hj
      exact Function.update_of_ne (by simp [hj]) ..
  · rename_i hlen
    have hnone : f.missingDeps = [] := List.eq_nil_of_length_eq_zero (by omega)
    have hidx : f.recheckIdx = [] := by
      by_contra hne
      exact hinv.asks hne hnone
    have hsettled : Parked ids (knownIn ids pool₀) f.dag.1.txnPool orig f.missingDeps
        f.txns [] := hidx ▸ hinv.parked
    have hzero : d = 0 → Parked ids (knownIn ids pool₀) f.dag.1.txnPool txns [] f.txns [] := by
      rintro rfl
      cases hlevels with
      | zero => exact hsettled.done []
    obtain ⟨dag, pending, out, hout, hpool', hdone, hpending⟩ :=
      recheckBlks_spec hinv.pool (hlevels.mono hgrow fun _ _ => rfl) hsettled.resolved hzero
    rw [hout]
    exact ⟨_, rfl, hpool', .emits out rfl rfl hdone hpending⟩

/-! ## Everything else -/

theorem recheckTxn_pool {acc r : (ProposalDag × List Hash) × List AvalancheTxn} {i : Nat}
    (h : PoolInv ids known pool₀ acc.1.1.txnPool) (hr : recheckTxn ids acc i = .ok r) :
    PoolInv ids known pool₀ r.1.1.txnPool := by
  obtain ⟨txn, -, hr⟩ := bind_eq_ok.mp hr
  split at hr
  · rw [← Except.ok.inj hr]
    exact h
  · rename_i hnew
    cases txn with
    | grant => rw [← Except.ok.inj hr]; exact h
    | noop => rw [← Except.ok.inj hr]; exact h
    | placeHolder => rw [← Except.ok.inj hr]; exact h
    | send sender inUtxo receiver outUtxo remainder signature =>
      obtain ⟨res, hres, hverdict⟩ := validateTxn_spec h.filed
        (t := .send sender inUtxo receiver outUtxo remainder signature) rfl
      dsimp only at hr
      rw [hres] at hr
      cases hverdict with
      | valid hall hpass =>
        rw [← Except.ok.inj hr]
        exact (h.addTxn (by simpa using hnew) rfl hall hpass).1
      | invalid => rw [← Except.ok.inj hr]; exact h
      | missing => rw [← Except.ok.inj hr]; exact h

/-- Going down any stack. -/
theorem recheckBlks_pool {proposer blkId d : Nat} :
    ∀ {dag : ProposalDag × List Hash} {pending : NodeId × Nat × Nat → Option ParkedBlk}
      {filtered : List AvalancheTxn}
      {r : (ProposalDag × List Hash) × (NodeId × Nat × Nat → Option ParkedBlk) ×
        Option (List AvalancheTxn)},
      PoolInv ids known pool₀ dag.1.txnPool →
      recheckBlks ids proposer blkId d dag pending filtered = .ok r →
      PoolInv ids known pool₀ r.1.1.txnPool := by
  induction d with
  | zero =>
    intro dag pending filtered r h hr
    rw [← Except.ok.inj hr]
    exact h
  | succ d ih =>
    intro dag pending filtered r h hr
    rw [recheckBlks] at hr
    split at hr
    · rw [← Except.ok.inj hr]
      exact h
    · obtain ⟨r₁, hr₁, hr⟩ := bind_eq_ok.mp hr
      refine ih ?_ hr
      exact foldlM_invariant
        (fun acc : (ProposalDag × List Hash) × List AvalancheTxn =>
          PoolInv ids known pool₀ acc.1.1.txnPool)
        (fun acc i r hacc hr => recheckTxn_pool hacc hr) h hr₁

theorem recheckBlks_pending {proposer blkId d : Nat} :
    ∀ {dag : ProposalDag × List Hash} {pending : NodeId × Nat × Nat → Option ParkedBlk}
      {filtered : List AvalancheTxn}
      {r : (ProposalDag × List Hash) × (NodeId × Nat × Nat → Option ParkedBlk) ×
        Option (List AvalancheTxn)},
      recheckBlks ids proposer blkId d dag pending filtered = .ok r →
      ∀ p i j, (p, i) ≠ (proposer, blkId) → r.2.1 (p, i, j) = pending (p, i, j) := by
  induction d with
  | zero =>
    intro dag pending filtered r hr p i j _
    rw [← Except.ok.inj hr]
  | succ d ih =>
    intro dag pending filtered r hr p i j hne
    rw [recheckBlks] at hr
    split at hr
    · rw [← Except.ok.inj hr]
    · obtain ⟨r₁, -, hr⟩ := bind_eq_ok.mp hr
      rw [ih hr p i j hne, Function.update_of_ne]
      intro he
      obtain ⟨hp, hi, -⟩ := by simpa using he
      exact hne (by rw [hp, hi])

/-- Any block. -/
theorem validateBlock_pool {s : BlockManagement} {block : Block} {v : Validated}
    (hv : validateBlock ids s block = .ok v) (h : PoolInv ids known pool₀ s.txnPool) :
    PoolInv ids known pool₀ v.state.txnPool := by
  obtain ⟨f, hf, hv⟩ := bind_eq_ok.mp hv
  obtain ⟨f', hf', hinv, -⟩ := filterLoop_grows h block.txns
  obtain rfl : f = f' := Except.ok.inj (hf.symm.trans hf')
  split at hv
  · rw [← Except.ok.inj hv]
    exact hinv.pool
  · obtain ⟨⟨dag, pending, out⟩, hr, hv⟩ := bind_eq_ok.mp hv
    have hpool := recheckBlks_pool hinv.pool hr
    dsimp only at hv
    cases out with
    | none =>
      rw [← Except.ok.inj hv]
      exact hpool
    | some out =>
      rw [← Except.ok.inj hv]
      exact hpool

theorem validateBlock_pending {s : BlockManagement} {block : Block} {v : Validated}
    (hv : validateBlock ids s block = .ok v) :
    (∀ p i j, (p, i) ≠ (block.proposer, block.id) →
      v.state.pendingBlks (p, i, j) = s.pendingBlks (p, i, j)) ∧
    ∀ b ∈ v.newTail, (b.proposer, b.id) = (block.proposer, block.id) := by
  obtain ⟨f, -, hv⟩ := bind_eq_ok.mp hv
  split at hv
  · rw [← Except.ok.inj hv]
    refine ⟨fun p i j hne => Function.update_of_ne (fun he => hne ?_) .., by simp⟩
    obtain ⟨hp, hi, -⟩ := by simpa using he
    rw [hp, hi]
  · obtain ⟨⟨dag, pending, out⟩, hr, hv⟩ := bind_eq_ok.mp hv
    have hsame := recheckBlks_pending hr
    dsimp only at hv
    cases out with
    | none =>
      rw [← Except.ok.inj hv]
      exact ⟨hsame, by simp⟩
    | some out =>
      rw [← Except.ok.inj hv]
      exact ⟨hsame, by simp⟩

theorem prepareNewBlock_frame {blkLen : Nat} {ord : HashOrder} :
    ∀ {fuel : Nat} {s : BlockManagement} {r : BlockManagement × Bitcoin.CurBlockState},
      prepareNewBlock blkLen ord fuel s = .ok r →
      r.1.txnPool = s.txnPool ∧ r.1.pendingBlks = s.pendingBlks := by
  intro fuel
  induction fuel with
  | zero => intro s r hr; exact absurd hr (by simp [prepareNewBlock])
  | succ fuel ih =>
    intro s r hr
    rw [prepareNewBlock] at hr
    split at hr
    · rw [← Except.ok.inj hr]
      exact ⟨rfl, rfl⟩
    · split at hr
      · rw [← Except.ok.inj hr]
        exact ⟨rfl, rfl⟩
      · split at hr
        · obtain ⟨hpool, hpending⟩ := ih hr
          exact ⟨hpool, hpending⟩
        · obtain ⟨hpool, hpending⟩ := ih hr
          exact ⟨hpool, hpending⟩

theorem recordNewTxn_pool {s : BlockManagement} {txn : AvalancheTxn}
    {r : BlockManagement × Bool} (hr : recordNewTxn ids s txn = .ok r)
    (h : PoolInv ids known pool₀ s.txnPool) :
    PoolInv ids (known ∪ {txn}) pool₀ r.1.txnPool := by
  unfold recordNewTxn at hr
  dsimp only at hr
  split at hr
  · rw [← Except.ok.inj hr]
    exact h.mono Set.subset_union_left
  · rename_i hnew
    have hadd : txn.fromClient → PoolInv ids (known ∪ {txn}) pool₀
        (Function.update s.txnPool (ids.txnId txn) (some txn)) := by
      intro hclient
      refine (h.mono Set.subset_union_left).insert (by simpa using hnew) hclient fun hrej => ?_
      exact hrej.unknown (Set.mem_union_right _ rfl)
    cases txn with
    | noop => exact absurd hr (by simp)
    | placeHolder => exact absurd hr (by simp)
    | grant => rw [← Except.ok.inj hr]; exact hadd rfl
    | send => rw [← Except.ok.inj hr]; exact hadd rfl

theorem recordNewTxn_pending {s : BlockManagement} {txn : AvalancheTxn}
    {r : BlockManagement × Bool} (hr : recordNewTxn ids s txn = .ok r) :
    r.1.pendingBlks = s.pendingBlks := by
  unfold recordNewTxn at hr
  dsimp only at hr
  split at hr
  · rw [← Except.ok.inj hr]
  · cases txn with
    | noop => exact absurd hr (by simp)
    | placeHolder => exact absurd hr (by simp)
    | grant => rw [← Except.ok.inj hr]
    | send => rw [← Except.ok.inj hr]

theorem getNewBlock_frame {self : NodeId} {s : BlockManagement} {r : BlockManagement × Block}
    (hr : getNewBlock self s = .ok r) :
    r.1.txnPool = s.txnPool ∧ r.1.pendingBlks = s.pendingBlks := by
  unfold getNewBlock at hr
  split at hr
  · obtain ⟨txns, -, hr⟩ := bind_eq_ok.mp hr
    rw [← Except.ok.inj hr]
    exact ⟨rfl, rfl⟩
  · exact absurd hr (by simp)

/-- The transactions a call is told to record. -/
def BlockManagement.Act.recorded : Act → Set AvalancheTxn
  | .recordNewTxn txn => {txn}
  | _ => ∅

/-- The call is not about the query `blkId` of `proposer`. -/
def BlockManagement.Act.Other (proposer blkId : Nat) (a : Act) : Prop :=
  ∀ block, a = .validateBlock block → (block.proposer, block.id) ≠ (proposer, blkId)

/-- The pool grows by what is recorded and by what is not rejected. -/
theorem act_pool {cfg : StageConfig} {ord : HashOrder} {fuel : Nat} {s : BlockManagement} {a : Act}
    {r : BlockManagement × List Block} (hr : act ids cfg ord fuel s a = .ok r)
    (h : PoolInv ids known pool₀ s.txnPool) :
    PoolInv ids (known ∪ a.recorded) pool₀ r.1.txnPool := by
  cases a with
  | recordNewTxn txn =>
    obtain ⟨r₁, hr₁, hr⟩ := bind_eq_ok.mp hr
    rw [← Except.ok.inj hr]
    exact recordNewTxn_pool hr₁ h
  | prepareNewBlock =>
    obtain ⟨r₁, hr₁, hr⟩ := bind_eq_ok.mp hr
    rw [← Except.ok.inj hr, (prepareNewBlock_frame hr₁).1]
    exact h.mono Set.subset_union_left
  | getNewBlock =>
    obtain ⟨r₁, hr₁, hr⟩ := bind_eq_ok.mp hr
    rw [← Except.ok.inj hr, (getNewBlock_frame hr₁).1]
    exact h.mono Set.subset_union_left
  | handlePmakerMsg =>
    rw [← Except.ok.inj hr]
    exact h.mono Set.subset_union_left
  | validateBlock block =>
    obtain ⟨v, hv, hr⟩ := bind_eq_ok.mp hr
    rw [← Except.ok.inj hr]
    exact (validateBlock_pool hv h).mono Set.subset_union_left

/-- A call about something else leaves a query alone. -/
theorem act_pending {cfg : StageConfig} {ord : HashOrder} {fuel : Nat} {s : BlockManagement}
    {a : Act} {r : BlockManagement × List Block} (hr : act ids cfg ord fuel s a = .ok r)
    {proposer blkId : Nat}
    (hother : a.Other proposer blkId) :
    (∀ j, r.1.pendingBlks (proposer, blkId, j) = s.pendingBlks (proposer, blkId, j)) ∧
    ∀ b ∈ r.2, (b.proposer, b.id) ≠ (proposer, blkId) := by
  cases a with
  | recordNewTxn txn =>
    obtain ⟨r₁, hr₁, hr⟩ := bind_eq_ok.mp hr
    rw [← Except.ok.inj hr]
    exact ⟨fun j => by rw [recordNewTxn_pending hr₁], by simp⟩
  | prepareNewBlock =>
    obtain ⟨r₁, hr₁, hr⟩ := bind_eq_ok.mp hr
    rw [← Except.ok.inj hr]
    exact ⟨fun j => by rw [(prepareNewBlock_frame hr₁).2], by simp⟩
  | getNewBlock =>
    obtain ⟨r₁, hr₁, hr⟩ := bind_eq_ok.mp hr
    rw [← Except.ok.inj hr]
    exact ⟨fun j => by rw [(getNewBlock_frame hr₁).2], by simp⟩
  | handlePmakerMsg =>
    rw [← Except.ok.inj hr]
    exact ⟨fun j => rfl, by simp⟩
  | validateBlock block =>
    obtain ⟨v, hv, hr⟩ := bind_eq_ok.mp hr
    rw [← Except.ok.inj hr]
    obtain ⟨hpending, hemits⟩ := validateBlock_pending hv
    refine ⟨fun j => hpending _ _ j (hother block rfl).symm, fun b hb => ?_⟩
    rw [hemits b hb]
    exact hother block rfl

end Copycat.Avalanche
