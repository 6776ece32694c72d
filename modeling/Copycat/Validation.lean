import Copycat.Lib.Admission
import Copycat.Lib.Machine
import Copycat.Protocol

/-!
# Transaction validation

`BitcoinTxnValidation` and `AvalancheTxnValidation` are one program over two
kinds of transactions. A `TxnKind` is what they do differently: the hashes a
transaction names as its inputs, and the check that is made once all of these
are in `txn_pool`. The rest is written down here.

A transaction with a missing parent waits in `pending_txns` under every parent
it misses and is looked at again when one of them is accepted. That is the
procedure of `Copycat.Lib.Admission` (`validate_works`), so what a sequence of
batches accepts depends on the delivered transactions and on nothing else; and
it returns (`validate_returns`), with fuel for as many nested calls as there are
transactions left to accept.
-/

namespace Copycat

open Copycat.Lib

/-- The entry of a waiting transaction. -/
structure Waiting (τ : Type) where
  txnHash : Hash
  txn : τ
  src : NodeId
deriving DecidableEq, Repr

/-- An iteration order for the entries of the maps in `pending_txns`. The map
filed under a hash is taken out when the transaction is accepted, which happens
once, so an order for each hash is any order. -/
structure EntryOrder (τ : Type) where
  iter : Hash → List (Waiting τ) → List (Waiting τ)
  perm : ∀ h l, (iter h l).Perm l

/-- Entries in the order in which they were inserted. -/
def EntryOrder.inserted (τ : Type) : EntryOrder τ where
  iter _ l := l
  perm _ l := .refl l

/-- The state of the stage. The inner map of `pending_txns` is the list of its
entries. -/
structure Validator (τ : Type) where
  txnPool : Hash → Option τ
  pendingTxns : Hash → Option (List (Waiting τ))

/-- A kind of transactions, with collision-free ids. -/
structure TxnKind (τ : Type) where
  txnId : τ → Hash
  txnId_inj : Function.Injective txnId
  deps : τ → List Hash
  check : τ → List τ → Res Bool

variable {τ : Type}

namespace Validator

/-- The stage as it starts. -/
def new : Validator τ where
  txnPool := fun _ => none
  pendingTxns := fun _ => none

/-- `validate_txn`; the error is the list of missing parents. -/
def validateTxn (kind : TxnKind τ) (txnPool : Hash → Option τ) (txn : τ) :
    Res (Except (List Hash) Bool) :=
  let missingDeps := (kind.deps txn).filter (fun h => (txnPool h).isNone)
  if missingDeps.length > 0 then .ok (.error missingDeps)
  else (kind.check txn ((kind.deps txn).filterMap txnPool)) >>= fun valid => .ok (.ok valid)

/-- Wait for one missing parent, unless already waiting for it. -/
def park (entry : Waiting τ) (pendingTxns : Hash → Option (List (Waiting τ)))
    (missingDep : Hash) : Hash → Option (List (Waiting τ)) :=
  let siblings := (pendingTxns missingDep).getD []
  Function.update pendingTxns missingDep
    (some (if siblings.any (fun e => e.txnHash = entry.txnHash) then siblings
      else siblings ++ [entry]))

/-- `validate_inner`. -/
def validateInner (kind : TxnKind τ) (ord : EntryOrder τ) :
    Nat → Validator τ → NodeId → τ → Res (Validator τ × List (NodeId × τ))
  | 0, _, _, _ => .error .diverge
  | fuel + 1, s, src, txn =>
    let txnHash := kind.txnId txn
    if (s.txnPool txnHash).isSome then .ok (s, [])
    else
      validateTxn kind s.txnPool txn >>= fun res =>
      match res with
      | .ok false => .ok (s, [])
      | .error missingDeps =>
        -- do not enqueue the txn yet since it might be invalid
        .ok ({ s with
          pendingTxns := missingDeps.foldl (park ⟨txnHash, txn, src⟩) s.pendingTxns }, [])
      | .ok true =>
        let txnPool := Function.update s.txnPool txnHash (some txn)
        match s.pendingTxns txnHash with
        | none => .ok ({ s with txnPool := txnPool }, [(src, txn)])
        | some children =>
          (ord.iter txnHash children).foldlM
            (fun (acc : Validator τ × List (NodeId × τ)) child =>
              validateInner kind ord fuel acc.1 child.src child.txn >>= fun r =>
              .ok (r.1, acc.2 ++ r.2))
            (⟨txnPool, Function.update s.pendingTxns txnHash none⟩, [(src, txn)])

/-- `validate`, on one batch. -/
def validate (kind : TxnKind τ) (ord : EntryOrder τ) (fuel : Nat) (s : Validator τ)
    (txnBatch : List (NodeId × τ)) : Res (Validator τ × List (NodeId × τ)) :=
  txnBatch.foldlM
    (fun (acc : Validator τ × List (NodeId × τ)) x =>
      validateInner kind ord fuel acc.1 x.1 x.2 >>= fun r => .ok (r.1, acc.2 ++ r.2))
    (s, [])

end Validator

/-! ## The abstract procedure -/

/-- The transactions as items: what is good does not depend on the pool, since
a hash determines its transaction. -/
def TxnKind.items (kind : TxnKind τ) : Items Hash τ where
  key := kind.txnId
  deps := kind.deps
  good t := ∃ parents, parents.map kind.txnId = kind.deps t ∧ kind.check t parents = .ok true

namespace Validator

variable {kind : TxnKind τ}

/-- The abstract state of the stage. -/
def admission (kind : TxnKind τ) (s : Validator τ) : Admission Hash τ where
  admitted := fun t => s.txnPool (kind.txnId t) = some t
  waits := fun d t => ∃ l, s.pendingTxns d = some l ∧ ∃ e ∈ l, e.txn = t

/-- Everything is filed under its id. -/
structure Filed (kind : TxnKind τ) (s : Validator τ) : Prop where
  pool : ∀ h t, s.txnPool h = some t → kind.txnId t = h
  entries : ∀ d l, s.pendingTxns d = some l → ∀ e ∈ l, e.txnHash = kind.txnId e.txn

theorem filed_new (kind : TxnKind τ) : Filed kind (new : Validator τ) where
  pool h t ht := absurd ht (by simp [new])
  entries d l hl := absurd hl (by simp [new])

theorem Filed.has_iff {s : Validator τ} (h : Filed kind s) (d : Hash) :
    (s.admission kind).Has kind.items d ↔ (s.txnPool d).isSome := by
  constructor
  · intro hd
    obtain ⟨p, hp, rfl⟩ := hd
    have hp : s.txnPool (kind.txnId p) = some p := hp
    show (s.txnPool (kind.txnId p)).isSome
    rw [hp]
    rfl
  · intro hd
    obtain ⟨p, hp⟩ := Option.isSome_iff_exists.mp hd
    have hid := h.pool d p hp
    exact ⟨p, show s.txnPool (kind.txnId p) = some p by rw [hid, hp], hid⟩

theorem Filed.parents {s : Validator τ} (h : Filed kind s) :
    ∀ {deps : List Hash}, (∀ d ∈ deps, (s.txnPool d).isSome) →
      (deps.filterMap s.txnPool).map kind.txnId = deps := by
  intro deps
  induction deps with
  | nil => intro _; rfl
  | cons d deps ih =>
    intro hall
    obtain ⟨t, ht⟩ := Option.isSome_iff_exists.mp (hall d (List.mem_cons_self ..))
    rw [List.filterMap_cons_some ht, List.map_cons, h.pool d t ht,
      ih fun x hx => hall x (List.mem_cons_of_mem _ hx)]

/-- What `validate_txn` says, on a pool filed by ids. -/
theorem Filed.validateTxn_cases {s : Validator τ} (h : Filed kind s) {t : τ}
    {res : Except (List Hash) Bool} (hres : validateTxn kind s.txnPool t = .ok res) :
    (∃ missing, res = .error missing ∧ (∃ d ∈ kind.deps t, ¬ (s.txnPool d).isSome) ∧
      ∀ d, d ∈ missing ↔ d ∈ kind.deps t ∧ ¬ (s.txnPool d).isSome) ∨
    (∃ valid, res = .ok valid ∧ (∀ d ∈ kind.deps t, (s.txnPool d).isSome) ∧
      (valid = true ↔ kind.items.good t)) := by
  unfold validateTxn at hres
  dsimp only at hres
  have hmem : ∀ d, d ∈ (kind.deps t).filter (fun h => (s.txnPool h).isNone) ↔
      d ∈ kind.deps t ∧ ¬ (s.txnPool d).isSome := by
    intro d
    rw [List.mem_filter]
    simp
  split at hres
  · rename_i hlen
    left
    refine ⟨_, (Except.ok.inj hres).symm, ?_, hmem⟩
    obtain ⟨d, hd⟩ := List.exists_mem_of_length_pos hlen
    exact ⟨d, (hmem d).mp hd⟩
  · rename_i hlen
    right
    have hall : ∀ d ∈ kind.deps t, (s.txnPool d).isSome := by
      intro d hd
      by_contra hno
      have := List.length_pos_of_mem ((hmem d).mpr ⟨hd, hno⟩)
      omega
    rw [bind_eq_ok] at hres
    obtain ⟨valid, hvalid, hres⟩ := hres
    refine ⟨valid, (Except.ok.inj hres).symm, hall, ?_⟩
    have hpar := h.parents hall
    constructor
    · intro hv
      exact ⟨_, hpar, hv ▸ hvalid⟩
    · intro hgood
      obtain ⟨parents, hids, hcheck⟩ := hgood
      have he : parents = (kind.deps t).filterMap s.txnPool :=
        List.map_injective_iff.mpr kind.txnId_inj (hids.trans hpar.symm)
      rw [he, hvalid] at hcheck
      exact Except.ok.inj hcheck

/-- Parking, on the level of what waits where. -/
theorem park_spec {entry : Waiting τ} {pending : Hash → Option (List (Waiting τ))} (dep : Hash)
    (hentry : entry.txnHash = kind.txnId entry.txn)
    (hfiled : ∀ d l, pending d = some l → ∀ e ∈ l, e.txnHash = kind.txnId e.txn) :
    (∀ d l, park entry pending dep d = some l → ∀ e ∈ l, e.txnHash = kind.txnId e.txn) ∧
    ∀ d t, (∃ l, park entry pending dep d = some l ∧ ∃ e ∈ l, e.txn = t) ↔
      (∃ l, pending d = some l ∧ ∃ e ∈ l, e.txn = t) ∨ (t = entry.txn ∧ d = dep) := by
  have hsib : ∀ e, e ∈ (pending dep).getD [] ↔ ∃ l, pending dep = some l ∧ e ∈ l := by
    intro e
    cases pending dep with
    | none => simp
    | some l => simp
  have hsame : ∀ e, e ∈ (pending dep).getD [] → e.txnHash = kind.txnId e.txn := by
    intro e he
    obtain ⟨l, hl, he⟩ := (hsib e).mp he
    exact hfiled dep l hl e he
  unfold park
  constructor
  · intro d l hl e he
    by_cases hd : d = dep
    · subst hd
      rw [Function.update_self, Option.some.injEq] at hl
      subst hl
      split at he
      · exact hsame e he
      · rcases List.mem_append.mp he with he | he
        · exact hsame e he
        · rw [List.mem_singleton.mp he]
          exact hentry
    · rw [Function.update_of_ne hd] at hl
      exact hfiled d l hl e he
  · intro d t
    by_cases hd : d = dep
    · subst hd
      rw [Function.update_self]
      have hold : (∃ l, pending d = some l ∧ ∃ e ∈ l, e.txn = t) ↔
          ∃ e ∈ (pending d).getD [], e.txn = t := by
        constructor
        · intro h
          obtain ⟨l, hl, e, he, ht⟩ := h
          exact ⟨e, (hsib e).mpr ⟨l, hl, he⟩, ht⟩
        · intro h
          obtain ⟨e, he, ht⟩ := h
          obtain ⟨l, hl, he⟩ := (hsib e).mp he
          exact ⟨l, hl, e, he, ht⟩
      rw [hold]
      split
      · -- an entry of the same hash is one of the same transaction
        rename_i hany
        obtain ⟨e, he, heq⟩ := List.any_eq_true.mp hany
        have heq : e.txnHash = entry.txnHash := by simpa using heq
        have ht : e.txn = entry.txn := kind.txnId_inj (by rw [← hsame e he, heq, hentry])
        simp only [Option.some.injEq, exists_eq_left', and_true]
        constructor
        · exact Or.inl
        · intro h
          rcases h with h | rfl
          · exact h
          · exact ⟨e, he, ht⟩
      · simp only [Option.some.injEq, exists_eq_left', and_true, List.mem_append,
          List.mem_singleton]
        constructor
        · intro h
          obtain ⟨e, he | rfl, ht⟩ := h
          · exact Or.inl ⟨e, he, ht⟩
          · exact Or.inr ht.symm
        · intro h
          rcases h with ⟨e, he, ht⟩ | ht
          · exact ⟨e, Or.inl he, ht⟩
          · exact ⟨entry, Or.inr rfl, ht.symm⟩
    · rw [Function.update_of_ne hd]
      simp [hd]

theorem parkAll_spec {entry : Waiting τ} (hentry : entry.txnHash = kind.txnId entry.txn) :
    ∀ (deps : List Hash) {pending : Hash → Option (List (Waiting τ))},
      (∀ d l, pending d = some l → ∀ e ∈ l, e.txnHash = kind.txnId e.txn) →
      (∀ d l, deps.foldl (park entry) pending d = some l →
        ∀ e ∈ l, e.txnHash = kind.txnId e.txn) ∧
      ∀ d t, (∃ l, deps.foldl (park entry) pending d = some l ∧ ∃ e ∈ l, e.txn = t) ↔
        (∃ l, pending d = some l ∧ ∃ e ∈ l, e.txn = t) ∨ (t = entry.txn ∧ d ∈ deps) := by
  intro deps
  induction deps with
  | nil =>
    intro pending h
    exact ⟨h, fun d t => by simp⟩
  | cons dep deps ih =>
    intro pending h
    obtain ⟨hfiled, hwait⟩ := park_spec dep hentry h
    obtain ⟨hfiled', hwait'⟩ := ih hfiled
    refine ⟨hfiled', fun d t => ?_⟩
    rw [List.foldl_cons, hwait', hwait, List.mem_cons, or_assoc, ← and_or_left]

/-! ## The stage is the procedure -/

/-- A call on one transaction takes it off a worklist. -/
def Takes (kind : TxnKind τ) (s : Validator τ) (txns : List τ)
    (r : Validator τ × List (NodeId × τ)) : Prop :=
  Filed kind r.1 ∧ ∀ work s' out, Admission.Works kind.items (r.1.admission kind) work s' out →
    Admission.Works kind.items (s.admission kind) (txns ++ work) s' (r.2.map Prod.snd ++ out)

/-- A loop over calls, each of which takes its transaction off the worklist. -/
theorem takes_fold {α : Type} (txn : α → τ)
    {f : Validator τ → α → Res (Validator τ × List (NodeId × τ))}
    (hf : ∀ s a r, Filed kind s → f s a = .ok r → Takes kind s [txn a] r) :
    ∀ {l : List α} {s : Validator τ} {out : List (NodeId × τ)}
      {r : Validator τ × List (NodeId × τ)}, Filed kind s →
      l.foldlM (fun (acc : Validator τ × List (NodeId × τ)) a =>
        f acc.1 a >>= fun r => .ok (r.1, acc.2 ++ r.2)) (s, out) = .ok r →
      ∃ out', r.2 = out ++ out' ∧ Takes kind s (l.map txn) (r.1, out') := by
  intro l
  induction l with
  | nil =>
    intro s out r hs h
    have he : (s, out) = r := Except.ok.inj h
    subst he
    exact ⟨[], by simp, hs, fun work s' out h => h⟩
  | cons a l ih =>
    intro s out r hs h
    rw [List.foldlM_cons, bind_eq_ok] at h
    obtain ⟨acc, hacc, h⟩ := h
    rw [bind_eq_ok] at hacc
    obtain ⟨r₁, hr₁, hacc⟩ := hacc
    rw [← Except.ok.inj hacc] at h
    obtain ⟨hfiled, htake⟩ := hf s a r₁ hs hr₁
    obtain ⟨out', hout, hfiled', htake'⟩ := ih hfiled h
    refine ⟨r₁.2 ++ out', by rw [hout, List.append_assoc], hfiled', fun work s' o hw => ?_⟩
    have := htake _ _ _ (htake' work s' o hw)
    simpa using this

/-- Waiting under every missing parent. -/
theorem Filed.admission_park {s : Validator τ} (hs : Filed kind s) {txn : τ} (src : NodeId)
    {missing : List Hash}
    (hmiss : ∀ d, d ∈ missing ↔ d ∈ kind.deps txn ∧ ¬ (s.txnPool d).isSome) :
    (s.admission kind).park kind.items txn = admission kind
      { s with pendingTxns := missing.foldl (park ⟨kind.txnId txn, txn, src⟩) s.pendingTxns } := by
  have hentry : (⟨kind.txnId txn, txn, src⟩ : Waiting τ).txnHash = kind.txnId txn := rfl
  obtain ⟨-, hwait⟩ := parkAll_spec hentry missing hs.entries
  refine Admission.eq_of_mem (fun t => Iff.rfl) fun d t => Iff.trans ?_ (hwait d t).symm
  show _ ∨ (t = txn ∧ d ∈ kind.deps txn ∧ ¬ (s.admission kind).Has kind.items d) ↔ _
  rw [hs.has_iff, hmiss]
  rfl

theorem mem_admitted_insert {s : Validator τ} {txn t : τ} :
    Function.update s.txnPool (kind.txnId txn) (some txn) (kind.txnId t) = some t ↔
      t = txn ∨ s.txnPool (kind.txnId t) = some t := by
  by_cases hx : t = txn
  · simp [hx]
  · have hne : kind.txnId t ≠ kind.txnId txn := fun e => hx (kind.txnId_inj e)
    simp [hx, hne]

/-- Accepting a transaction, and taking out what waited for it. -/
theorem admission_accept {s : Validator τ} {txn : τ} {pending : Hash → Option (List (Waiting τ))}
    (hself : pending (kind.txnId txn) = none)
    (hother : ∀ d, d ≠ kind.txnId txn → pending d = s.pendingTxns d) :
    (s.admission kind).accept kind.items txn = admission kind
      ⟨Function.update s.txnPool (kind.txnId txn) (some txn), pending⟩ := by
  refine Admission.eq_of_mem (fun t => mem_admitted_insert.symm) fun d t => ?_
  show (d ≠ kind.txnId txn ∧ ∃ l, s.pendingTxns d = some l ∧ ∃ e ∈ l, e.txn = t) ↔
    ∃ l, pending d = some l ∧ ∃ e ∈ l, e.txn = t
  by_cases hd : d = kind.txnId txn
  · rw [hd, hself]
    simp
  · rw [hother d hd]
    simp [hd]

theorem Filed.insert {s : Validator τ} (hs : Filed kind s) {txn : τ}
    {pending : Hash → Option (List (Waiting τ))} (hself : pending (kind.txnId txn) = none)
    (hother : ∀ d, d ≠ kind.txnId txn → pending d = s.pendingTxns d) :
    Filed kind ⟨Function.update s.txnPool (kind.txnId txn) (some txn), pending⟩ := by
  constructor
  · intro x t ht
    by_cases hx : x = kind.txnId txn
    · have ht : txn = t := by simpa [hx] using ht
      rw [hx, ht]
    · exact hs.pool x t (by simpa [hx] using ht)
  · intro d l hl
    have hd : d ≠ kind.txnId txn := fun e => by
      rw [e] at hl
      exact absurd (hself.symm.trans hl) (by simp)
    exact hs.entries d l ((hother d hd).symm.trans hl)

/-- `validate_inner` takes its transaction off the worklist: known, invalid,
waiting, or accepted and followed by what waited for it. -/
theorem validateInner_takes {ord : EntryOrder τ} : ∀ {fuel : Nat} {s : Validator τ}
    {src : NodeId} {txn : τ} {r : Validator τ × List (NodeId × τ)}, Filed kind s →
      validateInner kind ord fuel s src txn = .ok r → Takes kind s [txn] r := by
  intro fuel
  induction fuel with
  | zero => intro s src txn r _ h; exact absurd h (by simp [validateInner])
  | succ fuel ih =>
    intro s src txn r hs h
    rw [validateInner] at h
    dsimp only at h
    split at h
    · rename_i hknown
      rw [← Except.ok.inj h]
      refine ⟨hs, fun work s' out hw => .known ?_ hw⟩
      obtain ⟨t, ht⟩ := Option.isSome_iff_exists.mp hknown
      have he : t = txn := kind.txnId_inj (hs.pool _ t ht)
      exact he ▸ ht
    · rename_i hknown
      have hnew : txn ∉ (s.admission kind).admitted := by
        intro hmem
        have hmem : s.txnPool (kind.txnId txn) = some txn := hmem
        exact hknown (by rw [hmem]; rfl)
      rw [bind_eq_ok] at h
      obtain ⟨res, hres, h⟩ := h
      rcases hs.validateTxn_cases hres with ⟨missing, rfl, ⟨d, hd, hd'⟩, hmiss⟩ |
        ⟨valid, rfl, hall, hgood⟩
      · -- it waits under every parent it misses
        rw [← Except.ok.inj h]
        have hentry : (⟨kind.txnId txn, txn, src⟩ : Waiting τ).txnHash = kind.txnId txn := rfl
        obtain ⟨hentries, -⟩ := parkAll_spec hentry missing hs.entries
        refine ⟨⟨hs.pool, hentries⟩, fun work s' out hw => ?_⟩
        refine .parks hnew ⟨d, hd, fun hhas => hd' ((hs.has_iff d).mp hhas)⟩ ?_
        rw [hs.admission_park src hmiss]
        exact hw
      · have hmet : ∀ d ∈ kind.items.deps txn, (s.admission kind).Has kind.items d :=
          fun d hd => (hs.has_iff d).mpr (hall d hd)
        cases valid with
        | false =>
          rw [← Except.ok.inj h]
          exact ⟨hs, fun work s' out hw =>
            .drops hnew hmet (fun hg => absurd (hgood.mpr hg) (by simp)) hw⟩
        | true =>
          have hg := hgood.mp rfl
          dsimp only at h
          split at h
          · -- nothing waits for it
            rename_i hnone
            rw [← Except.ok.inj h]
            refine ⟨hs.insert hnone fun d _ => rfl, fun work s' out hw => ?_⟩
            refine .accepts [] hnew hmet hg (fun c => ?_) ?_
            · constructor
              · intro hc
                exact absurd hc (by simp)
              · intro hc
                obtain ⟨l, hl, -⟩ := hc
                exact absurd (hnone.symm.trans hl) (by simp)
            · rw [admission_accept hnone fun d _ => rfl]
              exact hw
          · rename_i children hchildren
            have hself : Function.update s.pendingTxns (kind.txnId txn) none (kind.txnId txn)
                = none := Function.update_self ..
            have hother : ∀ d, d ≠ kind.txnId txn →
                Function.update s.pendingTxns (kind.txnId txn) none d = s.pendingTxns d :=
              fun d hd => Function.update_of_ne hd ..
            obtain ⟨out', hout, hfiled', htake⟩ := takes_fold Waiting.txn
              (f := fun s (child : Waiting τ) => validateInner kind ord fuel s child.src child.txn)
              (fun s a r hs hr => ih hs hr) (hs.insert hself hother) h
            refine ⟨hfiled', fun work s' out hw => ?_⟩
            rw [hout]
            refine .accepts ((ord.iter (kind.txnId txn) children).map Waiting.txn) hnew hmet hg
              (fun c => ?_) ?_
            · rw [List.mem_map]
              constructor
              · intro hc
                obtain ⟨e, he, hec⟩ := hc
                exact ⟨children, hchildren, e, (ord.perm _ children).mem_iff.mp he, hec⟩
              · intro hc
                obtain ⟨l, hl, e, he, hec⟩ := hc
                have hl : children = l := Option.some.inj (hchildren.symm.trans hl)
                exact ⟨e, (ord.perm _ children).mem_iff.mpr (hl ▸ he), hec⟩
            · rw [admission_accept hself hother]
              exact htake work s' out hw

/-- One batch is one worklist. -/
theorem validate_works {ord : EntryOrder τ} {fuel : Nat} {s : Validator τ}
    {batch : List (NodeId × τ)} {r : Validator τ × List (NodeId × τ)} (hs : Filed kind s)
    (h : validate kind ord fuel s batch = .ok r) :
    Filed kind r.1 ∧ Admission.Works kind.items (s.admission kind) (batch.map Prod.snd)
      (r.1.admission kind) (r.2.map Prod.snd) := by
  obtain ⟨out', hout, hfiled, htake⟩ := takes_fold Prod.snd
    (f := fun s (x : NodeId × τ) => validateInner kind ord fuel s x.1 x.2)
    (fun s a r hs hr => validateInner_takes hs hr) hs h
  rw [List.nil_append] at hout
  refine ⟨hfiled, ?_⟩
  have := htake [] _ _ (.done _)
  rw [hout]
  simpa using this

/-! ## The stage returns -/

/-- What the stage holds satisfies `P`, and what waits has its id in `keys`. -/
structure Within (kind : TxnKind τ) (P : τ → Prop) (keys : Finset Hash) (s : Validator τ) :
    Prop where
  pool : ∀ h t, s.txnPool h = some t → P t
  entries : ∀ d l, s.pendingTxns d = some l → ∀ e ∈ l, P e.txn ∧ kind.txnId e.txn ∈ keys

theorem within_new (P : τ → Prop) (keys : Finset Hash) :
    Within kind P keys (new : Validator τ) where
  pool h t ht := absurd ht (by simp [new])
  entries d l hl := absurd hl (by simp [new])

theorem Within.mono {P : τ → Prop} {keys keys' : Finset Hash} {s : Validator τ}
    (h : Within kind P keys s) (hsub : keys ⊆ keys') : Within kind P keys' s where
  pool := h.pool
  entries d l hl e he := ⟨(h.entries d l hl e he).1, hsub (h.entries d l hl e he).2⟩

/-- How many of the ids are still to be accepted. -/
def missing (keys : Finset Hash) (s : Validator τ) : Nat :=
  (keys.filter fun h => (s.txnPool h).isNone).card

theorem missing_insert {keys : Finset Hash} {s : Validator τ} {h : Hash} {t : τ}
    (pending : Hash → Option (List (Waiting τ))) (hmem : h ∈ keys) (hnew : (s.txnPool h).isNone) :
    missing keys ⟨Function.update s.txnPool h (some t), pending⟩ < missing keys s := by
  refine Finset.card_lt_card (Finset.ssubset_iff_subset_ne.mpr ⟨fun x hx => ?_, fun he => ?_⟩)
  · obtain ⟨hx, hnone⟩ := Finset.mem_filter.mp hx
    by_cases hxh : x = h
    · rw [hxh] at hnone
      exact absurd hnone (by simp)
    · exact Finset.mem_filter.mpr ⟨hx, by simpa [hxh] using hnone⟩
  · have hin : h ∈ keys.filter fun h => (s.txnPool h).isNone := Finset.mem_filter.mpr ⟨hmem, hnew⟩
    rw [← he] at hin
    exact absurd (Finset.mem_filter.mp hin).2 (by simp)

theorem mem_parkAll {entry : Waiting τ} (missing : List Hash) :
    ∀ {pending : Hash → Option (List (Waiting τ))} {d : Hash} {l : List (Waiting τ)},
      missing.foldl (park entry) pending d = some l →
      ∀ e ∈ l, e = entry ∨ ∃ l', pending d = some l' ∧ e ∈ l' := by
  induction missing with
  | nil => exact fun hl e he => Or.inr ⟨_, hl, he⟩
  | cons dep missing ih =>
    intro pending d l hl e he
    rcases ih hl e he with he | ⟨l', hl', he⟩
    · exact Or.inl he
    · unfold park at hl'
      by_cases hd : d = dep
      · rw [hd, Function.update_self, Option.some.injEq] at hl'
        have hold : e ∈ (pending dep).getD [] → ∃ l', pending d = some l' ∧ e ∈ l' := by
          rw [hd]
          cases pending dep with
          | none => simp
          | some l => exact fun he => ⟨l, rfl, he⟩
        subst hl'
        split at he
        · exact Or.inr (hold he)
        · rcases List.mem_append.mp he with he | he
          · exact Or.inr (hold he)
          · exact Or.inl (List.mem_singleton.mp he)
      · rw [Function.update_of_ne hd] at hl'
        exact Or.inr ⟨l', hl', he⟩

/-- A call returns with more fuel than there are ids to be accepted: it calls
itself only after it has accepted one. -/
theorem validateInner_returns (ord : EntryOrder τ) {P : τ → Prop} {keys : Finset Hash}
    (hcheck : ∀ t parents, P t → (∀ p ∈ parents, P p) → ∃ b, kind.check t parents = .ok b) :
    ∀ {fuel : Nat} {s : Validator τ} (src : NodeId) {txn : τ}, Within kind P keys s → P txn →
      kind.txnId txn ∈ keys → missing keys s < fuel →
      ∃ r, validateInner kind ord fuel s src txn = .ok r ∧ Within kind P keys r.1 ∧
        missing keys r.1 ≤ missing keys s := by
  intro fuel
  induction fuel with
  | zero => intro s src txn _ _ _ h; exact absurd h (Nat.not_lt_zero _)
  | succ fuel ih =>
    intro s src txn hs hP hkey hfuel
    rw [validateInner]
    dsimp only
    split
    · exact ⟨_, rfl, hs, le_rfl⟩
    · rename_i hnew
      have hnew : (s.txnPool (kind.txnId txn)).isNone := by simpa using hnew
      have hparents : ∀ p ∈ (kind.deps txn).filterMap s.txnPool, P p := by
        intro p hp
        obtain ⟨h, -, hp⟩ := List.mem_filterMap.mp hp
        exact hs.pool h p hp
      obtain ⟨b, hb⟩ := hcheck txn _ hP hparents
      unfold validateTxn
      dsimp only
      split
      · -- it waits
        refine ⟨_, rfl, ⟨hs.pool, fun d l hl e he => ?_⟩, le_rfl⟩
        rcases mem_parkAll _ hl e he with rfl | ⟨l', hl', he⟩
        · exact ⟨hP, hkey⟩
        · exact hs.entries d l' hl' e he
      · rw [hb]
        cases b with
        | false => exact ⟨_, rfl, hs, le_rfl⟩
        | true =>
          have hpool : ∀ h t, Function.update s.txnPool (kind.txnId txn) (some txn) h = some t →
              P t := by
            intro h t ht
            by_cases hh : h = kind.txnId txn
            · rw [hh, Function.update_self] at ht
              exact Option.some.inj ht ▸ hP
            · rw [Function.update_of_ne hh] at ht
              exact hs.pool h t ht
          simp only [bind, Except.bind]
          split
          · have hless := missing_insert (t := txn) s.pendingTxns hkey hnew
            exact ⟨_, rfl, ⟨hpool, hs.entries⟩, hless.le⟩
          · rename_i children hchildren
            -- the entries it releases are looked at with what is then left to accept
            obtain ⟨start, hstart⟩ : ∃ start : Validator τ, start =
                ⟨Function.update s.txnPool (kind.txnId txn) (some txn),
                  Function.update s.pendingTxns (kind.txnId txn) none⟩ := ⟨_, rfl⟩
            have hless : missing keys start < missing keys s := hstart ▸ missing_insert _ hkey hnew
            have hwithin : Within kind P keys start := by
              subst hstart
              refine ⟨hpool, fun d l hl e he => ?_⟩
              by_cases hd : d = kind.txnId txn
              · rw [hd] at hl
                exact absurd hl (by simp)
              · exact hs.entries d l (by simpa [hd] using hl) e he
            obtain ⟨r, hr, hwithin', hle⟩ := foldlM_returns
              (f := fun (acc : Validator τ × List (NodeId × τ)) (child : Waiting τ) =>
                validateInner kind ord fuel acc.1 child.src child.txn >>= fun r =>
                .ok (r.1, acc.2 ++ r.2))
              (fun acc => Within kind P keys acc.1 ∧ missing keys acc.1 ≤ missing keys start)
              (l := ord.iter (kind.txnId txn) children) (b := (start, [(src, txn)]))
              (fun acc child hchild hacc => by
                have hentry := hs.entries _ _ hchildren child
                    ((ord.perm _ children).mem_iff.mp hchild)
                obtain ⟨r, hr, hw, hle⟩ := ih child.src hacc.1 hentry.1 hentry.2 (by omega)
                exact ⟨_, bind_eq_ok.mpr ⟨r, hr, rfl⟩, hw, hle.trans hacc.2⟩)
              ⟨hwithin, le_rfl⟩
            exact ⟨r, hstart ▸ hr, hwithin', by omega⟩

/-- A batch is handled with more fuel than there are ids to be accepted. -/
theorem validate_returns (ord : EntryOrder τ) {P : τ → Prop} {keys : Finset Hash}
    (hcheck : ∀ t parents, P t → (∀ p ∈ parents, P p) → ∃ b, kind.check t parents = .ok b)
    {fuel : Nat} {s : Validator τ} (batch : List (NodeId × τ)) (hs : Within kind P keys s)
    (hbatch : ∀ x ∈ batch, P x.2 ∧ kind.txnId x.2 ∈ keys) (hfuel : missing keys s < fuel) :
    ∃ r, validate kind ord fuel s batch = .ok r ∧ Within kind P keys r.1 := by
  obtain ⟨r, hr, hw, -⟩ := foldlM_returns
    (f := fun (acc : Validator τ × List (NodeId × τ)) (x : NodeId × τ) =>
      validateInner kind ord fuel acc.1 x.1 x.2 >>= fun r => .ok (r.1, acc.2 ++ r.2))
    (fun acc => Within kind P keys acc.1 ∧ missing keys acc.1 ≤ missing keys s)
    (l := batch) (b := (s, []))
    (fun acc x hx hacc => by
      obtain ⟨r, hr, hw, hle⟩ := validateInner_returns ord hcheck x.1 hacc.1
        (hbatch x hx).1 (hbatch x hx).2 (Nat.lt_of_le_of_lt hacc.2 hfuel)
      exact ⟨_, bind_eq_ok.mpr ⟨r, hr, rfl⟩, hw, hle.trans hacc.2⟩)
    ⟨hs, le_rfl⟩
  exact ⟨r, hr, hw⟩

end Validator

end Copycat
