import Copycat.Batches

/-!
# What transaction validation returns

The lists `validate` returns, put one behind the other. One arriving parent can
release any number of waiting descendants, some of them through several
parents, and the maps they are taken from have no order. Later stages rely on
what holds all the same (`returned_in_order`): every transaction of the pool is
returned once, after its parents, and with the `src` of the delivery that first
put it in `pending_txns`, if one did, and otherwise with the `src` of the
delivery that put it in the pool.

Both deliveries are the first one of that transaction (`First`): it is what
`SourceInv` keeps of the entries, and a repeated delivery changes nothing
(`Filed.redelivered`).
-/

namespace Copycat

open Copycat.Lib

variable {τ : Type}

/-- The transaction has an entry in `pending_txns`. -/
def Validator.Waits (s : Validator τ) (t : τ) : Prop :=
  ∃ d l, s.pendingTxns d = some l ∧ ∃ e ∈ l, e.txn = t

/-- The deliveries of the batches, each one a batch of its own. -/
def singly (batches : List (Batch τ)) : List (Batch τ) :=
  batches.flatMap fun b => b.txns.map fun x => ⟨b.ord, [x]⟩

/-- The first delivery after which the transaction waits is one of it, and came
from `src`. -/
def RegisteredBy (validate : Validate τ) (fuel : Nat) (batches : List (Batch τ)) (src : NodeId)
    (t : τ) : Prop :=
  ∃ pre ord post, singly batches = pre ++ ⟨ord, [(src, t)]⟩ :: post ∧
    (∀ pre' r, pre' <+: pre → runBatches validate fuel pre' = .ok r → ¬ r.1.Waits t) ∧
    ∃ r, runBatches validate fuel (pre ++ [⟨ord, [(src, t)]⟩]) = .ok r ∧ r.1.Waits t

/-- There is no delivery after which the transaction waits. -/
def NeverWaits (validate : Validate τ) (fuel : Nat) (batches : List (Batch τ)) (t : τ) : Prop :=
  ∀ pre r, pre <+: singly batches → runBatches validate fuel pre = .ok r → ¬ r.1.Waits t

/-- The delivery that puts the transaction in the pool is one of it, and came
from `src`. -/
def AcceptedBy (validate : Validate τ) (txnId : τ → Hash) (fuel : Nat) (batches : List (Batch τ))
    (src : NodeId) (t : τ) : Prop :=
  ∃ pre ord post r r', singly batches = pre ++ ⟨ord, [(src, t)]⟩ :: post ∧
    runBatches validate fuel pre = .ok r ∧ txnId t ∉ r.1.keys ∧
    runBatches validate fuel (pre ++ [⟨ord, [(src, t)]⟩]) = .ok r' ∧ txnId t ∈ r'.1.keys

/-- The order and the sources of what a run returns. -/
structure Returned (validate : Validate τ) (kind : TxnKind τ) (fuel : Nat)
    (batches : List (Batch τ)) (r : Validator τ × List (NodeId × τ)) : Prop where
  once : (r.2.map fun x => kind.txnId x.2).Nodup
  pool : ∀ h, h ∈ r.2.map (fun x => kind.txnId x.2) ↔ h ∈ r.1.keys
  parentsFirst : ∀ pre x post, r.2 = pre ++ x :: post →
    ∀ d ∈ kind.deps x.2, d ∈ pre.map fun x => kind.txnId x.2
  src : ∀ x ∈ r.2, RegisteredBy validate fuel batches x.1 x.2 ∨
    NeverWaits validate fuel batches x.2 ∧ AcceptedBy validate kind.txnId fuel batches x.1 x.2

/-! ## One delivery after the other -/

variable {kind : TxnKind τ} {fuel : Nat} {batches ds : List (Batch τ)}
  {r : Validator τ × List (NodeId × τ)}

/-- What a loop has collected before does not matter to it. -/
theorem foldlM_collect {α σ β : Type} (f : σ → α → Res (σ × List β)) (l : List α) :
    ∀ (s : σ) (out : List β),
      l.foldlM (fun (acc : σ × List β) a => f acc.1 a >>= fun r => .ok (r.1, acc.2 ++ r.2))
        (s, out) =
      l.foldlM (fun (acc : σ × List β) a => f acc.1 a >>= fun r => .ok (r.1, acc.2 ++ r.2))
        (s, []) >>= fun r => .ok (r.1, out ++ r.2) := by
  induction l with
  | nil =>
    intro s out
    show Except.ok (s, out) = Except.ok (s, out ++ [])
    rw [List.append_nil]
  | cons a l ih =>
    intro s out
    rw [List.foldlM_cons, List.foldlM_cons]
    cases hf : f s a with
    | error e => rfl
    | ok r =>
      show l.foldlM _ (r.1, out ++ r.2) = l.foldlM _ (r.1, [] ++ r.2) >>= _
      rw [ih, ih r.1 ([] ++ r.2), bind_assoc]
      simp only [bind, Except.bind, List.nil_append, List.append_assoc]

theorem runFrom_append (validate : Validate τ) (s : Validator τ × List (NodeId × τ))
    (one two : List (Batch τ)) : runFrom validate fuel s (one ++ two) =
      runFrom validate fuel s one >>= fun s => runFrom validate fuel s two :=
  List.foldlM_append

theorem validate_single (ord : EntryOrder τ) (fuel : Nat) (s : Validator τ) (x : NodeId × τ) :
    Validator.validate kind ord fuel s [x] =
      Validator.validateInner kind ord fuel s x.1 x.2 := by
  unfold Validator.validate
  rw [List.foldlM_cons]
  cases Validator.validateInner kind ord fuel s x.1 x.2 with
  | error e => rfl
  | ok r => rfl

/-- The batches can be delivered one transaction at a time. -/
theorem runFrom_singly (batches : List (Batch τ)) : ∀ (s : Validator τ × List (NodeId × τ)),
    runFrom (Validator.validate kind) fuel s (singly batches) =
      runFrom (Validator.validate kind) fuel s batches := by
  induction batches with
  | nil => exact fun _ => rfl
  | cons b batches ih =>
    intro s
    have hbatch : runFrom (Validator.validate kind) fuel s (b.txns.map fun x => ⟨b.ord, [x]⟩) =
        runFrom (Validator.validate kind) fuel s [b] := by
      obtain ⟨s, out⟩ := s
      unfold runFrom
      rw [List.foldlM_map]
      simp only [validate_single]
      rw [foldlM_collect (fun s (x : NodeId × τ) =>
        Validator.validateInner kind b.ord fuel s x.1 x.2), List.foldlM_cons]
      exact (bind_pure _).symm
    have hcons : b :: batches = [b] ++ batches := rfl
    show runFrom _ fuel s ((b.txns.map fun x => ⟨b.ord, [x]⟩) ++ singly batches) = _
    rw [runFrom_append, hbatch, hcons, runFrom_append]
    exact congrArg _ (funext ih)

/-- A run over some batches passes through the state after the first of them. -/
theorem run_initial {pre : List (Batch τ)} (hpre : pre <+: ds)
    (h : runBatches (Validator.validate kind) fuel ds = .ok r) :
    ∃ r', runBatches (Validator.validate kind) fuel pre = .ok r' := by
  obtain ⟨post, rfl⟩ := hpre
  unfold runBatches at h
  rw [runFrom_append] at h
  obtain ⟨r', hr', -⟩ := bind_eq_ok.mp h
  exact ⟨r', hr'⟩

/-! ## Where an entry comes from -/

/-- The first delivery of the transaction came from `src`. -/
def First (ds : List (Batch τ)) (src : NodeId) (t : τ) : Prop :=
  ∃ pre ord post, ds = pre ++ ⟨ord, [(src, t)]⟩ :: post ∧ t ∉ inBatches pre

theorem First.snoc {src : NodeId} {t : τ} (h : First ds src t) (b : Batch τ) :
    First (ds ++ [b]) src t := by
  obtain ⟨pre, ord, post, rfl, hnew⟩ := h
  exact ⟨pre, ord, post ++ [b], by simp, hnew⟩

/-- Everything that waits and everything returned has the source `F` says. -/
structure SourceInv (F : NodeId → τ → Prop) (r : Validator τ × List (NodeId × τ)) : Prop where
  entries : ∀ d l, r.1.pendingTxns d = some l → ∀ e ∈ l, F e.src e.txn
  out : ∀ x ∈ r.2, F x.1 x.2

theorem SourceInv.mono {F F' : NodeId → τ → Prop} (h : SourceInv F r)
    (hsub : ∀ src t, F src t → F' src t) : SourceInv F' r where
  entries d l hl e he := hsub _ _ (h.entries d l hl e he)
  out x hx := hsub _ _ (h.out x hx)

theorem SourceInv.append {F : NodeId → τ → Prop} {r' : Validator τ × List (NodeId × τ)}
    (h : SourceInv F r) (h' : SourceInv F r') : SourceInv F (r'.1, r.2 ++ r'.2) where
  entries := h'.entries
  out x hx := by
    rcases List.mem_append.mp hx with hx | hx
    · exact h.out x hx
    · exact h'.out x hx

/-- An entry keeps its source when it is moved to other missing parents, and
the transaction is returned with it. -/
theorem validateInner_source (ord : EntryOrder τ) {F : NodeId → τ → Prop} : ∀ {fuel : Nat}
    {s : Validator τ} {src : NodeId} {txn : τ} {r : Validator τ × List (NodeId × τ)},
    SourceInv F (s, []) → F src txn → Validator.validateInner kind ord fuel s src txn = .ok r →
      SourceInv F r := by
  intro fuel
  induction fuel with
  | zero => intro s src txn r _ _ h; exact absurd h (by simp [Validator.validateInner])
  | succ fuel ih =>
    intro s src txn r hs hsrc h
    rw [Validator.validateInner] at h
    dsimp only at h
    split at h
    · rw [← Except.ok.inj h]
      exact hs
    · obtain ⟨res, -, h⟩ := bind_eq_ok.mp h
      cases res with
      | error missingDeps =>
        rw [← Except.ok.inj h]
        refine ⟨fun d l hl e he => ?_, by simp⟩
        rcases Validator.mem_parkAll missingDeps hl e he with rfl | ⟨l', hl', he⟩
        · exact hsrc
        · exact hs.entries d l' hl' e he
      | ok valid =>
        cases valid with
        | false =>
          rw [← Except.ok.inj h]
          exact hs
        | true =>
          have hout : ∀ x ∈ [(src, txn)], F x.1 x.2 := by
            intro x hx
            rw [List.mem_singleton.mp hx]
            exact hsrc
          dsimp only at h
          split at h
          · rw [← Except.ok.inj h]
            exact ⟨hs.entries, hout⟩
          · rename_i children hchildren
            have hentry : ∀ e ∈ ord.iter (kind.txnId txn) children, F e.src e.txn :=
              fun e he => hs.entries _ _ hchildren e ((ord.perm _ _).mem_iff.mp he)
            refine foldlM_split (fun _ acc => SourceInv F acc)
              (fun _ child _ acc acc' hl hacc hstep => ?_) ⟨fun d l hl e he => ?_, hout⟩ h
            · obtain ⟨r', hr', hstep⟩ := bind_eq_ok.mp hstep
              rw [← Except.ok.inj hstep]
              have hchild : F child.src child.txn := hentry child (by rw [hl]; simp)
              exact hacc.append (ih ⟨hacc.entries, by simp⟩ hchild hr')
            · by_cases hd : d = kind.txnId txn
              · rw [hd] at hl
                exact absurd hl (by simp)
              · exact hs.entries d l (by simpa [hd] using hl) e he

/-- A repeated delivery changes nothing and returns nothing: the transaction is
in the pool, or invalid, or waits under every parent it misses. -/
theorem Validator.Filed.redelivered {s : Validator τ} (hs : Filed kind s) {D : Set τ}
    (hlaw : Admission.Law kind.items D [] (s.admission kind)) {t : τ} (ht : t ∈ D)
    {ord : EntryOrder τ} {src : NodeId} (h : validateInner kind ord fuel s src t = .ok r) :
    r = (s, []) := by
  cases fuel with
  | zero => exact absurd h (by simp [validateInner])
  | succ fuel =>
    rw [validateInner] at h
    dsimp only at h
    split at h
    · exact (Except.ok.inj h).symm
    · rename_i hnew
      have hout : t ∉ (s.admission kind).admitted := by
        intro hin
        have hin : s.txnPool (kind.txnId t) = some t := hin
        exact hnew (by rw [hin]; rfl)
      obtain ⟨res, hres, h⟩ := bind_eq_ok.mp h
      have hplaced := (hlaw.placed t ht).resolve_left hout
      rcases hs.validateTxn_cases hres with ⟨missing, rfl, ⟨d, hd, hd'⟩, hmiss⟩ |
        ⟨valid, rfl, hall, hgood⟩
      · -- it waits under all of them
        have hwaits : ∀ d ∈ missing, ∃ l, s.pendingTxns d = some l ∧ ∃ e ∈ l, e.txn = t := by
          intro x hx
          obtain ⟨hx, hx'⟩ := (hmiss x).mp hx
          rcases hplaced with hp | ⟨hall, -⟩ | ⟨-, hall⟩
          · exact absurd hp (by simp)
          · exact absurd ((hs.has_iff d).mp (hall d hd)) hd'
          · exact hall x hx fun hhas => hx' ((hs.has_iff x).mp hhas)
        have hsame : ∀ (l : List Hash), (∀ d ∈ l, d ∈ missing) →
            l.foldl (park ⟨kind.txnId t, t, src⟩) s.pendingTxns = s.pendingTxns := by
          intro l
          induction l with
          | nil => exact fun _ => rfl
          | cons d l ih =>
            intro hsub
            obtain ⟨entries, hentries, e, he, rfl⟩ := hwaits d (hsub d (List.mem_cons_self ..))
            have hany : entries.any (fun x => x.txnHash = kind.txnId e.txn) = true :=
              List.any_eq_true.mpr ⟨e, he, by simpa using hs.entries d entries hentries e he⟩
            have hpark : park ⟨kind.txnId e.txn, e.txn, src⟩ s.pendingTxns d = s.pendingTxns := by
              unfold park
              dsimp only
              rw [hentries, Option.getD_some, if_pos hany, ← hentries, Function.update_eq_self]
            rw [List.foldl_cons, hpark]
            exact ih fun x hx => hsub x (List.mem_cons_of_mem _ hx)
        rw [← Except.ok.inj h, hsame missing fun d hd => hd]
      · have hinvalid : valid = false := by
          rcases hplaced with hp | ⟨-, hbad⟩ | ⟨⟨d, hd, hd'⟩, -⟩
          · exact absurd hp (by simp)
          · exact Bool.eq_false_iff.mpr fun hv => hbad (hgood.mp hv)
          · exact absurd ((hs.has_iff d).mpr (hall d hd)) hd'
        rw [hinvalid] at h
        exact (Except.ok.inj h).symm

theorem run_source (hone : ∀ b ∈ ds, ∃ x, b.txns = [x])
    (h : runBatches (Validator.validate kind) fuel ds = .ok r) : SourceInv (First ds) r := by
  induction ds using List.reverseRecOn generalizing r with
  | nil =>
    rw [← Except.ok.inj h]
    exact ⟨fun d l hl => absurd hl (by simp [Validator.new]), by simp⟩
  | append_singleton ds b ih =>
    unfold runBatches at h
    rw [runFrom_snoc] at h
    obtain ⟨acc, hacc, h⟩ := bind_eq_ok.mp h
    obtain ⟨r', hr', hres⟩ := bind_eq_ok.mp h
    obtain ⟨⟨src, t⟩, hb⟩ := hone b (by simp)
    obtain ⟨ord, txns⟩ := b
    obtain rfl : txns = [(src, t)] := hb
    have hold := (ih (fun b hb => hone b (List.mem_append_left _ hb)) hacc).mono
      fun _ _ hfirst => hfirst.snoc ⟨ord, [(src, t)]⟩
    rw [validate_single] at hr'
    rw [← Except.ok.inj hres]
    by_cases ht : t ∈ inBatches ds
    · have hinv := runBatches_inv hacc
      rw [hinv.filed.redelivered hinv.law ht hr']
      exact hold.append ⟨hold.entries, by simp⟩
    · have hfirst : First (ds ++ [⟨ord, [(src, t)]⟩]) src t := ⟨ds, ord, [], rfl, ht⟩
      exact hold.append (validateInner_source ord ⟨hold.entries, by simp⟩ hfirst hr')

/-! ## The first delivery -/

theorem BatchInv.not_waits {t : τ} (h : BatchInv kind batches r) (hnew : t ∉ inBatches batches) :
    ¬ r.1.Waits t := by
  intro hwaits
  obtain ⟨d, l, hl, e, he, ht⟩ := hwaits
  exact hnew (h.law.waits d t ⟨l, hl, e, he, ht⟩)

theorem BatchInv.not_admitted {t : τ} (h : BatchInv kind batches r) :
    r.1.Waits t → t ∉ (r.1.admission kind).admitted := by
  intro hwaits
  obtain ⟨d, l, hl, e, he, ht⟩ := hwaits
  exact h.tight.not_admitted (d := d) ⟨l, hl, e, he, ht⟩

theorem BatchInv.mem_keys_iff {t : τ} (h : BatchInv kind batches r) :
    kind.txnId t ∈ r.1.keys ↔ t ∈ (r.1.admission kind).admitted := by
  have hhas : kind.txnId t ∈ r.1.keys ↔
      (r.1.admission kind).Has kind.items (kind.txnId t) := (h.filed.has_iff _).symm
  rw [hhas]
  constructor
  · intro hkey
    obtain ⟨p, hp, hid⟩ := hkey
    rwa [← kind.txnId_inj hid]
  · exact fun hin => ⟨t, hin, rfl⟩

theorem inBatches_initial {pre : List (Batch τ)} (h : pre <+: ds) {t : τ}
    (ht : t ∈ inBatches pre) : t ∈ inBatches ds := by
  obtain ⟨b, hb, ht⟩ := ht
  exact ⟨b, h.mem hb, ht⟩

/-- What is returned was registered, or else accepted, by its first delivery. -/
theorem returned_by_first {src : NodeId} {t : τ}
    (h : runBatches (Validator.validate kind) fuel (singly batches) = .ok r)
    (hfirst : First (singly batches) src t) (ht : t ∈ (r.1.admission kind).admitted) :
    RegisteredBy (Validator.validate kind) fuel batches src t ∨
    NeverWaits (Validator.validate kind) fuel batches t ∧
      AcceptedBy (Validator.validate kind) kind.txnId fuel batches src t := by
  obtain ⟨pre, ord, post, hds, hnew⟩ := hfirst
  have hmid : pre ++ [⟨ord, [(src, t)]⟩] <+: singly batches := ⟨post, by simp [hds]⟩
  obtain ⟨r₀, hr₀⟩ := run_initial ((List.prefix_append _ _).trans hmid) h
  obtain ⟨r₁, hr₁⟩ := run_initial hmid h
  have hinv := runBatches_inv h
  have hinv₀ := runBatches_inv hr₀
  have hinv₁ := runBatches_inv hr₁
  have hbefore : ∀ pre' r, pre' <+: pre →
      runBatches (Validator.validate kind) fuel pre' = .ok r → ¬ r.1.Waits t :=
    fun pre' r hpre hr => (runBatches_inv hr).not_waits fun hin => hnew (inBatches_initial hpre hin)
  have hdelivered : t ∈ inBatches (pre ++ [⟨ord, [(src, t)]⟩]) :=
    mem_inBatches_snoc.mpr (Or.inr (by simp))
  rcases hinv₁.law.placed t hdelivered with hin | hin | ⟨-, hbad⟩ | ⟨⟨d, hd, hmiss⟩, hwaits⟩
  · -- accepted at once, and in the pool from then on
    refine Or.inr ⟨fun pre' r' hpre hr' => ?_, pre, ord, post, r₀, r₁, hds, hr₀, ?_, hr₁, ?_⟩
    · rcases List.prefix_or_prefix_of_prefix hpre hmid with hle | hge
      · rcases List.prefix_concat_iff.mp hle with rfl | hle
        · exact fun hwaits => hinv₁.not_admitted (Except.ok.inj (hr'.symm.trans hr₁) ▸ hwaits) hin
        · exact hbefore pre' r' hle hr'
      · have hinv' := runBatches_inv hr'
        refine fun hwaits => hinv'.not_admitted hwaits ((hinv'.law.admitted_iff t).mpr ?_)
        exact ((hinv₁.law.admitted_iff t).mp hin).mono
          fun x hx => inBatches_initial hge hx.delivered
    · rw [hinv₀.mem_keys_iff]
      exact fun hin => hnew (hinv₀.law.sound t hin).delivered
    · exact hinv₁.mem_keys_iff.mpr hin
  · exact absurd hin (by simp)
  · -- invalid, and never accepted
    cases (hinv.law.admitted_iff t).mp ht with
    | intro _ _ hgood _ _ => exact absurd hgood hbad
  · left
    obtain ⟨l, hl, e, he, het⟩ := hwaits d hd hmiss
    exact ⟨pre, ord, post, hds, hbefore, r₁, hr₁, d, l, hl, e, he, het⟩

theorem returned (h : runBatches (Validator.validate kind) fuel batches = .ok r) :
    Returned (Validator.validate kind) kind fuel batches r := by
  have hsingly : runBatches (Validator.validate kind) fuel (singly batches) = .ok r :=
    (runFrom_singly batches _).trans h
  have hinv := runBatches_inv h
  have hids : ∀ out : List (NodeId × τ), (out.map fun x => kind.txnId x.2) =
      (out.map Prod.snd).map kind.txnId := by
    intro out
    rw [List.map_map]
    rfl
  refine ⟨?_, fun k => ?_, fun pre x post he d hd => ?_, fun x hx => ?_⟩
  · rw [hids]
    exact hinv.ordered.nodup.map kind.txnId_inj
  · have hhas : k ∈ r.1.keys ↔ (r.1.admission kind).Has kind.items k := (hinv.filed.has_iff k).symm
    rw [hids, List.mem_map, hhas]
    exact exists_congr fun t => and_congr_left fun _ => (hinv.out t).symm
  · have hsplit : r.2.map Prod.snd = pre.map Prod.snd ++ x.2 :: post.map Prod.snd := by simp [he]
    rw [hids, List.mem_map]
    rcases hinv.ordered.deps _ _ _ hsplit d hd with ⟨p, hp, -⟩ | hp
    · exact hp.elim
    · exact hp
  · have hone : ∀ b ∈ singly batches, ∃ x, b.txns = [x] := by
      intro b hb
      obtain ⟨b', -, hb⟩ := List.mem_flatMap.mp hb
      obtain ⟨x, -, rfl⟩ := List.mem_map.mp hb
      exact ⟨x, rfl⟩
    exact returned_by_first hsingly ((run_source hone hsingly).out x hx)
      ((hinv.out x.2).mpr (List.mem_map_of_mem hx))

/-- Whatever a sequence of batches returns is in order; and it returns when the
transactions are of the kinds that clients make. -/
def Orderly (validate : Validate τ) (kind : TxnKind τ) (client : τ → Prop) : Prop :=
  ∀ batches fuel,
    (∀ r, runBatches validate fuel batches = .ok r → Returned validate kind fuel batches r) ∧
    ((∀ t ∈ inBatches batches, client t) → deliveries batches < fuel →
      ∃ r, runBatches validate fuel batches = .ok r)

/-- **Validated transactions leave the stage once and parents first**, with the
source of the delivery that made them wait or that put them in the pool. -/
theorem returned_in_order (ids : IdScheme) (ids' : Avalanche.UniqueIds) :
    Orderly (Bitcoin.TxnValidation.validate ids) (Bitcoin.bitcoinKind ids)
      (fun t => t.isIncentive = false) ∧
    Orderly (Avalanche.TxnValidation.validate ids') (Avalanche.avalancheKind ids')
      (fun t => t.fromClient) := by
  constructor
  · rw [Bitcoin.TxnValidation.validate_shared]
    exact fun batches fuel => ⟨fun r hr => returned hr, fun hclient hfuel =>
      runBatches_returns (fun t parents ht _ => Bitcoin.check_returns ids t parents ht) hclient
        hfuel⟩
  · exact fun batches fuel => ⟨fun r hr => returned hr, fun hclient hfuel =>
      runBatches_returns (Avalanche.check_returns ids') hclient hfuel⟩

open Bitcoin (demo demoGrant demoPay)

/-- A payment that comes before its parent, from one peer and then from another:
it is returned after the parent, and with the first peer as its source. -/
theorem returned_in_order_demo :
    ∃ r, runBatches (Bitcoin.TxnValidation.validate demo.ids) 5
        [⟨.inserted _, [(1, demoPay)]⟩, ⟨.inserted _, [(2, demoPay), (3, demoGrant)]⟩] = .ok r ∧
      r.2 = [(3, demoGrant), (1, demoPay)] ∧
      Returned (Bitcoin.TxnValidation.validate demo.ids) (Bitcoin.bitcoinKind demo.ids) 5
        [⟨.inserted _, [(1, demoPay)]⟩, ⟨.inserted _, [(2, demoPay), (3, demoGrant)]⟩] r := by
  have hcheck : returns (runBatches (Bitcoin.TxnValidation.validate demo.ids) 5
      [⟨.inserted _, [(1, demoPay)]⟩, ⟨.inserted _, [(2, demoPay), (3, demoGrant)]⟩])
      (fun r => r.2 = [(3, demoGrant), (1, demoPay)]) = true := by
    decide +kernel
  obtain ⟨r, hr, hout⟩ := returns_iff.mp hcheck
  exact ⟨r, hr, by simpa using hout, ((returned_in_order demo.ids .coded).1 _ _).1 r hr⟩

end Copycat
