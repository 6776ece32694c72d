import Copycat.Lib.Admission
import Mathlib.Logic.Relation

/-!
# Admission at several places

The procedure of `Copycat.Lib.Admission` runs at several places. Items are
submitted at any of them, and a place is also given what places next to it have
admitted. An item that is passed on may wait for dependencies that come another
way, and a place passes on nothing before it has admitted it, so it is not
enough that every item could be sent everywhere.

It is enough that places next to each other are so both ways: then what a place
admits is what it would have admitted had everything been submitted to it that
was submitted at any place it is connected to (`Shares.admitted_iff`).
-/

namespace Copycat.Lib

open Relation (ReflTransGen)

variable {κ τ ν : Type}

/-- What was submitted at any place that the place `n` can be reached from. -/
def reaching (next : ν → ν → Prop) (submitted : ν → Set τ) (n : ν) : Set τ :=
  fun t => ∃ m, ReflTransGen next m n ∧ t ∈ submitted m

namespace Admission

/-- A place has been given what is submitted to it and what the places next to
it have admitted, and has admitted nothing that comes from nowhere. -/
structure Shares (R : Items κ τ) (next : ν → ν → Prop) (submitted D : ν → Set τ)
    (s : ν → Admission κ τ) : Prop where
  law : ∀ n, Law R (D n) [] (s n)
  own : ∀ n, ∀ t ∈ submitted n, t ∈ D n
  passed : ∀ n m, next n m → ∀ t ∈ (s n).admitted, t ∈ D m
  origin : ∀ n, ∀ t ∈ (s n).admitted, t ∈ reaching next submitted n

variable {R : Items κ τ} {next : ν → ν → Prop} {submitted D : ν → Set τ} {s : ν → Admission κ τ}

/-- An item that is good and misses nothing is admitted where it is given. -/
theorem Law.admits {D : Set τ} {s : Admission κ τ} (h : Law R D [] s) {t : τ} {parent : κ → τ}
    (hD : t ∈ D) (hgood : R.good t) (hkey : ∀ d ∈ R.deps t, R.key (parent d) = d)
    (hparent : ∀ d ∈ R.deps t, parent d ∈ s.admitted) : t ∈ s.admitted :=
  (h.admitted_iff t).mpr (.intro parent hD hgood hkey fun d hd => h.sound _ (hparent d hd))

/-- What could be admitted at one place is admitted at all places connected to
it. The induction is on the dependencies, and for each item along the way from
where it was submitted. -/
theorem Shares.everywhere (h : Shares R next submitted D s)
    (hsymm : ∀ n m, next n m → next m n) {n : ν} {t : τ}
    (ht : Admissible R (reaching next submitted n) t) :
    ∀ m, ReflTransGen next n m → t ∈ (s m).admitted := by
  induction ht with
  | @intro t parent hD hgood hkey _ ih =>
    obtain ⟨k, hk, hsub⟩ := hD
    have : Std.Symm next := ⟨hsymm⟩
    have hback : ReflTransGen next n k := ReflTransGen.stdSymm.symm _ _ hk
    have hstart : t ∈ (s k).admitted :=
      (h.law k).admits (h.own k t hsub) hgood hkey fun d hd => ih d hd k hback
    intro m hm
    have hway : ReflTransGen next k m := hk.trans hm
    clear hm
    induction hway with
    | refl => exact hstart
    | @tail a b hka hab iha =>
      exact (h.law b).admits (h.passed a b hab t iha) hgood hkey
        fun d hd => ih d hd b ((hback.trans hka).tail hab)

/-- **What is admitted** at a place is what is admissible of all that was
submitted at places connected to it. -/
theorem Shares.admitted_iff (h : Shares R next submitted D s)
    (hsymm : ∀ n m, next n m → next m n) (n : ν) (t : τ) :
    t ∈ (s n).admitted ↔ Admissible R (reaching next submitted n) t := by
  constructor
  · intro ht
    refine ((h.law n).sound t ht).mono fun x hx => h.origin n x ?_
    exact ((h.law n).admitted_iff x).mpr hx
  · exact fun ht => h.everywhere hsymm ht n .refl

end Admission

end Copycat.Lib
