import Copycat.Lib.Admission
import Mathlib.Algebra.BigOperators.Group.Finset.Basic
import Mathlib.Data.List.Induction

/-!
# Coins

Somebody makes payments out of coins that earlier payments left, and lists them in
the order in which they are made. `Supply` says that the list and the coins at hand
fit together: every coin is an output of something on the list and not yet paid with,
and no coin is at hand twice. It is kept by making something that needs no coin
(`Supply.mint`) and by paying with a coin, once or, in rival payments, more than once
(`Supply.pay`). Then a coin is paid with by rivals only, and the list is in the order
of dependencies, so a list that is delivered is admitted (`Sound.admissible`).
-/

namespace Copycat.Lib

variable {κ ω ν τ : Type}

/-! ## Lists in the order of dependencies -/

/-- Every item of the list is good, and what it depends on stands before it. -/
inductive Sound (R : Items κ τ) : List τ → Prop
  | nil : Sound R []
  | snoc {l : List τ} {t : τ} :
      Sound R l → R.good t → (∀ d ∈ R.deps t, ∃ p ∈ l, R.key p = d) → Sound R (l ++ [t])

namespace Sound

variable {R : Items κ τ} {l : List τ}

theorem snoc_inv {t : τ} (h : Sound R (l ++ [t])) :
    Sound R l ∧ R.good t ∧ ∀ d ∈ R.deps t, ∃ p ∈ l, R.key p = d := by
  generalize hl : l ++ [t] = l₁ at h
  cases h with
  | nil => simp at hl
  | snoc h hgood hdeps =>
    obtain ⟨rfl, ht⟩ := List.append_inj' hl rfl
    obtain rfl := List.singleton_inj.mp ht
    exact ⟨h, hgood, hdeps⟩

theorem of_append (l₁ : List τ) : Sound R (l ++ l₁) → Sound R l := by
  induction l₁ using List.reverseRecOn with
  | nil =>
    intro h
    rwa [List.append_nil] at h
  | append_singleton l₁ t ih =>
    intro h
    rw [← List.append_assoc] at h
    exact ih h.snoc_inv.1

theorem cut {l₁ : List τ} (h : Sound R l₁) (hl : l <+: l₁) : Sound R l := by
  obtain ⟨rest, rfl⟩ := hl
  exact of_append rest h

/-- Good items that depend on nothing else go to the end. -/
theorem append (h : Sound R l) {ts : List τ}
    (hts : ∀ t ∈ ts, R.good t ∧ ∀ d ∈ R.deps t, ∃ p ∈ l, R.key p = d) : Sound R (l ++ ts) := by
  induction ts using List.reverseRecOn with
  | nil => rwa [List.append_nil]
  | append_singleton ts t ih =>
    obtain ⟨hgood, hdeps⟩ := hts t (List.mem_append_right _ (List.mem_singleton_self t))
    rw [← List.append_assoc]
    refine .snoc (ih fun x hx => hts x (List.mem_append_left _ hx)) hgood fun d hd => ?_
    obtain ⟨p, hp, hkey⟩ := hdeps d hd
    exact ⟨p, List.mem_append_left _ hp, hkey⟩

theorem deps (h : Sound R l) : ∀ t ∈ l, R.good t ∧ ∀ d ∈ R.deps t, ∃ p ∈ l, R.key p = d := by
  induction h with
  | nil => exact fun t ht => absurd ht List.not_mem_nil
  | @snoc l t h hgood hdeps ih =>
    intro x hx
    rcases List.mem_append.mp hx with hx | hx
    · refine ⟨(ih x hx).1, fun d hd => ?_⟩
      obtain ⟨p, hp, hkey⟩ := (ih x hx).2 d hd
      exact ⟨p, List.mem_append_left _ hp, hkey⟩
    · rw [List.mem_singleton.mp hx]
      refine ⟨hgood, fun d hd => ?_⟩
      obtain ⟨p, hp, hkey⟩ := hdeps d hd
      exact ⟨p, List.mem_append_left _ hp, hkey⟩

/-- Delivered whole, the list is admissible. -/
theorem admissible (h : Sound R l) : ∀ t ∈ l, Admission.Admissible R {x | x ∈ l} t := by
  induction h with
  | nil => exact fun t ht => absurd ht List.not_mem_nil
  | @snoc l t _ hgood hdeps ih =>
    have hold : ∀ x ∈ l, Admission.Admissible R {y | y ∈ l ++ [t]} x := fun x hx =>
      (ih x hx).mono fun y hy => List.mem_append_left _ hy.delivered
    intro x hx
    rcases List.mem_append.mp hx with hx | hx
    · exact hold x hx
    · rw [List.mem_singleton.mp hx]
      refine .of_deps (List.mem_append_right _ (List.mem_singleton_self t)) hgood fun d hd => ?_
      obtain ⟨p, hp, hkey⟩ := hdeps d hd
      exact ⟨p, hold p hp, hkey⟩

end Sound

/-! ## Sums over places -/

/-- The two sums differ as the summands at `i` do. -/
theorem sum_changed {ι M : Type} [DecidableEq ι] [AddCommMonoid M] {s : Finset ι} (f f₁ : ι → M)
    {i : ι} (hi : i ∈ s) (h : ∀ j, j ≠ i → f₁ j = f j) :
    ∃ rest, ∑ j ∈ s, f j = f i + rest ∧ ∑ j ∈ s, f₁ j = f₁ i + rest := by
  refine ⟨∑ j ∈ s.erase i, f j, (Finset.add_sum_erase s f hi).symm, ?_⟩
  rw [← Finset.add_sum_erase s f₁ hi]
  exact congrArg _ (Finset.sum_congr rfl fun j hj => h j (Finset.ne_of_mem_erase hj))

/-! ## Payments -/

/-- What an item leaves to an owner. -/
structure Coin (κ ω ν : Type) where
  key : κ
  owner : ω
  value : ν

/-- What a payment names of a coin. -/
def Coin.slot (c : Coin κ ω ν) : κ × ω := (c.key, c.owner)

/-- Items that pay with coins and leave coins. -/
structure Payments (κ ω ν τ : Type) extends Items κ τ where
  spends : τ → Set (κ × ω)
  owned : ω → τ → Option ν
  key_inj : Function.Injective key
  spends_deps : ∀ t, ∀ x ∈ spends t, x.1 ∈ deps t

variable {P : Payments κ ω ν τ} {Rival Rival₁ : τ → τ → Prop} {made : List τ}
  {coins coins₁ : Multiset (Coin κ ω ν)} {c : Coin κ ω ν} {t : τ}

/-- The item pays with this coin and no other. -/
structure Payments.Pays (P : Payments κ ω ν τ) (c : Coin κ ω ν) (t : τ) : Prop where
  spends : P.spends t = {c.slot}
  deps : P.deps t = [c.key]
  good : ∀ p, P.key p = c.key → P.owned c.owner p = some c.value → P.good t

/-- The item leaves this coin. -/
def Payments.Leaves (P : Payments κ ω ν τ) (t : τ) (c : Coin κ ω ν) : Prop :=
  P.key t = c.key ∧ P.owned c.owner t = some c.value

/-- What has been made and the coins at hand. -/
structure Supply (P : Payments κ ω ν τ) (Rival : τ → τ → Prop) (made : List τ)
    (coins : Multiset (Coin κ ω ν)) : Prop where
  sound : Sound P.toItems made
  backed : ∀ c ∈ coins, ∃ t ∈ made, P.Leaves t c
  once : (coins.map Coin.slot).Nodup
  unspent : ∀ c ∈ coins, ∀ t ∈ made, c.slot ∉ P.spends t
  apart : ∀ t ∈ made, ∀ t₁ ∈ made, t ≠ t₁ → ∀ x ∈ P.spends t, x ∈ P.spends t₁ → Rival t t₁

namespace Supply

theorem nil (P : Payments κ ω ν τ) (Rival : τ → τ → Prop) : Supply P Rival [] 0 where
  sound := .nil
  backed c hc := absurd hc (Multiset.notMem_zero c)
  once := Multiset.nodup_zero
  unspent c hc := absurd hc (Multiset.notMem_zero c)
  apart _ ht := absurd ht List.not_mem_nil

theorem mono (h : Supply P Rival made coins) (hle : ∀ t t₁, Rival t t₁ → Rival₁ t t₁) :
    Supply P Rival₁ made coins :=
  ⟨h.sound, h.backed, h.once, h.unspent,
    fun t ht t₁ ht₁ hne x hx hx₁ => hle _ _ (h.apart t ht t₁ ht₁ hne x hx hx₁)⟩

/-- Coins may be thrown away. -/
theorem le (h : Supply P Rival made coins) (hle : coins₁ ≤ coins) : Supply P Rival made coins₁ where
  sound := h.sound
  backed c hc := h.backed c (Multiset.mem_of_le hle hc)
  once := Multiset.nodup_of_le (Multiset.map_le_map hle) h.once
  unspent c hc := h.unspent c (Multiset.mem_of_le hle hc)
  apart := h.apart

/-- What is made already may be listed again. -/
theorem again (h : Supply P Rival made coins) (ts : List τ) (hts : ∀ t ∈ ts, t ∈ made) :
    Supply P Rival (made ++ ts) coins := by
  have hmem : ∀ t, t ∈ made ++ ts → t ∈ made := by
    intro t ht
    rcases List.mem_append.mp ht with ht | ht
    · exact ht
    · exact hts t ht
  refine ⟨h.sound.append fun t ht => h.sound.deps t (hts t ht), fun c hc => ?_, h.once,
    fun c hc t ht => h.unspent c hc t (hmem t ht),
    fun t ht t₁ ht₁ => h.apart t (hmem t ht) t₁ (hmem t₁ ht₁)⟩
  obtain ⟨t, ht, hleaves⟩ := h.backed c hc
  exact ⟨t, List.mem_append_left _ ht, hleaves⟩

/-- What spends an output of an item comes after the item. -/
theorem spent_made (h : Supply P Rival made coins) {x : κ × ω} (ht : t ∈ made)
    (hx : x ∈ P.spends t) : ∃ p ∈ made, P.key p = x.1 :=
  (h.sound.deps t ht).2 x.1 (P.spends_deps t x hx)

/-- An item whose key is new has no coin yet, and nobody spends from it. -/
theorem key_new (h : Supply P Rival made coins) (ht : t ∉ made) :
    (∀ c ∈ coins, c.key ≠ P.key t) ∧ ∀ s ∈ made, ∀ x ∈ P.spends s, x.1 ≠ P.key t := by
  have hkey : ∀ p ∈ made, P.key p ≠ P.key t := fun p hp he => ht (P.key_inj he ▸ hp)
  constructor
  · intro c hc
    obtain ⟨p, hp, hleaves⟩ := h.backed c hc
    exact hleaves.1 ▸ hkey p hp
  · intro s hs x hx
    obtain ⟨p, hp, hpx⟩ := h.spent_made hs hx
    exact hpx ▸ hkey p hp

/-- The payment with a coin at hand is a new one. -/
theorem fresh (h : Supply P Rival made (c ::ₘ coins)) (ht : P.Pays c t) : t ∉ made := by
  intro hmade
  refine h.unspent c (Multiset.mem_cons_self c coins) t hmade ?_
  rw [ht.spends]
  exact Set.mem_singleton c.slot

/-- New items, each of which spends nothing or a coin that is not at hand, with coins
that they leave. -/
theorem extend (h : Supply P Rival made coins) {ts : List τ} {new : Multiset (Coin κ ω ν)}
    (hts : ∀ t ∈ ts, t ∉ made)
    (hsound : ∀ t ∈ ts, P.good t ∧ ∀ d ∈ P.deps t, ∃ p ∈ made, P.key p = d)
    (hspends : ∀ t ∈ ts, ∀ x ∈ P.spends t, (∀ c ∈ coins, c.slot ≠ x) ∧
      ∀ s ∈ made, x ∉ P.spends s)
    (hrival : ∀ t ∈ ts, ∀ t₁ ∈ ts, t ≠ t₁ → Rival t t₁)
    (hnew : ∀ c ∈ new, ∃ t ∈ ts, P.Leaves t c) (honce : (new.map Coin.slot).Nodup) :
    Supply P Rival (made ++ ts) (new + coins) := by
  have hslot : ∀ n ∈ new, (∀ c ∈ coins, c.slot ≠ n.slot) ∧ (∀ s ∈ made, n.slot ∉ P.spends s) ∧
      ∀ s ∈ ts, n.slot ∉ P.spends s := by
    intro n hn
    obtain ⟨t, ht, hleaves⟩ := hnew n hn
    obtain ⟨hcoins, hmade⟩ := h.key_new (hts t ht)
    refine ⟨fun c hc he => ?_, fun s hs hx => ?_, fun s hs hx => ?_⟩
    · exact hcoins c hc ((congrArg Prod.fst he).trans hleaves.1.symm)
    · exact hmade s hs _ hx hleaves.1.symm
    · obtain ⟨p, hp, hkey⟩ := (hsound s hs).2 _ (P.spends_deps s _ hx)
      exact hts t ht (P.key_inj (hkey.trans hleaves.1.symm) ▸ hp)
  refine ⟨h.sound.append hsound, ?_, ?_, ?_, ?_⟩
  · intro c hc
    rcases Multiset.mem_add.mp hc with hc | hc
    · obtain ⟨t, ht, hleaves⟩ := hnew c hc
      exact ⟨t, List.mem_append_right _ ht, hleaves⟩
    · obtain ⟨t, ht, hleaves⟩ := h.backed c hc
      exact ⟨t, List.mem_append_left _ ht, hleaves⟩
  · rw [Multiset.map_add, Multiset.nodup_add]
    refine ⟨honce, h.once, Multiset.disjoint_left.mpr fun hx hx₁ => ?_⟩
    obtain ⟨n, hn, rfl⟩ := Multiset.mem_map.mp hx
    obtain ⟨c, hc, hslots⟩ := Multiset.mem_map.mp hx₁
    exact (hslot n hn).1 c hc hslots
  · intro c hc s hs
    rcases Multiset.mem_add.mp hc with hc | hc
    · rcases List.mem_append.mp hs with hs | hs
      · exact (hslot c hc).2.1 s hs
      · exact (hslot c hc).2.2 s hs
    · rcases List.mem_append.mp hs with hs | hs
      · exact h.unspent c hc s hs
      · exact fun hx => (hspends s hs _ hx).1 c hc rfl
  · intro s hs s₁ hs₁ hne x hx hx₁
    rcases List.mem_append.mp hs with hs | hs
    · rcases List.mem_append.mp hs₁ with hs₁ | hs₁
      · exact h.apart s hs s₁ hs₁ hne x hx hx₁
      · exact absurd hx ((hspends s₁ hs₁ x hx₁).2 s hs)
    · rcases List.mem_append.mp hs₁ with hs₁ | hs₁
      · exact absurd hx₁ ((hspends s hs x hx).2 s₁ hs₁)
      · exact hrival s hs s₁ hs₁ hne

/-- An item that needs no coin. -/
theorem mint (h : Supply P Rival made coins) (ht : t ∉ made) (hgood : P.good t)
    (hdeps : P.deps t = []) (hleaves : P.Leaves t c) :
    Supply P Rival (made ++ [t]) (c ::ₘ coins) := by
  rw [← Multiset.singleton_add]
  refine h.extend ?_ ?_ ?_ ?_ ?_ ?_
  · exact fun s hs => List.mem_singleton.mp hs ▸ ht
  · intro s hs
    rw [List.mem_singleton.mp hs, hdeps]
    exact ⟨hgood, fun d hd => absurd hd List.not_mem_nil⟩
  · intro s hs x hx
    rw [List.mem_singleton.mp hs] at hx
    have hx := P.spends_deps t x hx
    rw [hdeps] at hx
    exact absurd hx List.not_mem_nil
  · intro s hs s₁ hs₁ hne
    exact absurd ((List.mem_singleton.mp hs).trans (List.mem_singleton.mp hs₁).symm) hne
  · intro n hn
    rw [Multiset.mem_singleton.mp hn]
    exact ⟨t, List.mem_singleton_self t, hleaves⟩
  · exact Multiset.nodup_singleton _

/-- Rival payments with one coin, and coins that they leave. -/
theorem pay (h : Supply P Rival made (c ::ₘ coins)) {ts : List τ} {new : Multiset (Coin κ ω ν)}
    (hts : ∀ t ∈ ts, P.Pays c t) (hrival : ∀ t ∈ ts, ∀ t₁ ∈ ts, t ≠ t₁ → Rival t t₁)
    (hnew : ∀ c ∈ new, ∃ t ∈ ts, P.Leaves t c) (honce : (new.map Coin.slot).Nodup) :
    Supply P Rival (made ++ ts) (new + coins) := by
  obtain ⟨p, hp, hleaves⟩ := h.backed c (Multiset.mem_cons_self c coins)
  have hold := h.once
  rw [Multiset.map_cons, Multiset.nodup_cons] at hold
  refine (h.le (Multiset.le_cons_self coins c)).extend ?_ ?_ ?_ hrival hnew honce
  · exact fun t ht => h.fresh (hts t ht)
  · intro t ht
    refine ⟨(hts t ht).good p hleaves.1 hleaves.2, fun d hd => ?_⟩
    rw [(hts t ht).deps] at hd
    exact ⟨p, hp, hleaves.1.trans (List.mem_singleton.mp hd).symm⟩
  · intro t ht x hx
    rw [(hts t ht).spends] at hx
    rw [Set.mem_singleton_iff.mp hx]
    refine ⟨fun d hd he => hold.1 (Multiset.mem_map.mpr ⟨d, hd, he⟩), fun s hs => ?_⟩
    exact h.unspent c (Multiset.mem_cons_self c coins) s hs

/-- One payment with the coin. -/
theorem pay_once (h : Supply P Rival made (c ::ₘ coins)) (ht : P.Pays c t)
    {new : Multiset (Coin κ ω ν)} (hnew : ∀ n ∈ new, P.Leaves t n)
    (honce : (new.map Coin.slot).Nodup) : Supply P Rival (made ++ [t]) (new + coins) := by
  refine h.pay (fun s hs => ?_) (fun s hs s₁ hs₁ hne => ?_) (fun n hn => ?_) honce
  · rw [List.mem_singleton.mp hs]
    exact ht
  · exact absurd ((List.mem_singleton.mp hs).trans (List.mem_singleton.mp hs₁).symm) hne
  · exact ⟨t, List.mem_singleton_self t, hnew n hn⟩

/-- One payment that leaves one coin. -/
theorem pay_one (h : Supply P Rival made (c ::ₘ coins)) (ht : P.Pays c t) {new : Coin κ ω ν}
    (hnew : P.Leaves t new) : Supply P Rival (made ++ [t]) (new ::ₘ coins) := by
  rw [← Multiset.singleton_add]
  refine h.pay_once ht (fun n hn => ?_) (Multiset.nodup_singleton _)
  rw [Multiset.mem_singleton.mp hn]
  exact hnew

end Supply

end Copycat.Lib
