import Circulation.Proofs.Assignment.Regions
import Circulation.Proofs.Floating.Operations

/-!
The least and the greatest of several floating-point numbers. Main result: where no number is
undefined, the scan that keeps the best so far finds the first least one. The greatest one is found
in the same way, with the comparisons reversed.
-/

namespace Circulation.Spread

theorem lowest_congr {α : Type} {less less' : α → α → Bool} {first : α} {rest : List α}
    (h : ∀ x ∈ first :: rest, ∀ y ∈ first :: rest, less x y = less' x y) :
    lowest less first rest = lowest less' first rest := by
  induction rest generalizing first with
  | nil => rfl
  | cons y rest ih =>
    have hstep (less : α → α → Bool) : lowest less first (y :: rest) =
        lowest less (if less y first then y else first) rest := rfl
    rw [hstep, hstep, h y (by simp) first (by simp)]
    refine ih fun x hx z hz => h x ?_ z ?_
    · split at hx <;> grind
    · split at hz <;> grind

section Key

variable {α : Type} {less : α → α → Bool} (key : α → Int) {first : α} {rest : List α}
  (hless : ∀ x ∈ first :: rest, ∀ y ∈ first :: rest, less x y = decide (key x < key y))
include hless

theorem lowest_spec_of_mem : ∃ front back, first :: rest = front ++ lowest less first rest :: back ∧
    (∀ x ∈ front, key (lowest less first rest) < key x) ∧
      ∀ x ∈ back, key (lowest less first rest) ≤ key x := by
  rw [lowest_congr hless]
  exact lowest_spec _ key (by simp) first rest

theorem key_lowest_le : ∀ x ∈ first :: rest, key (lowest less first rest) ≤ key x := by
  obtain ⟨front, back, hsplit, hfront, hback⟩ := lowest_spec_of_mem key hless
  intro x hx
  rw [hsplit, List.mem_append, List.mem_cons] at hx
  rcases hx with hx | rfl | hx
  · exact (hfront x hx).le
  · exact le_rfl
  · exact hback x hx

end Key

theorem lowest_rank {α : Type} {f : α → Float} {first : α} {rest : List α}
    (h : ∀ x ∈ first :: rest, (f x).isNaN = false) :
    ∃ front back,
      first :: rest = front ++ lowest (fun a b => f a < f b) first rest :: back ∧
        (∀ x ∈ front, Floating.rank (f (lowest (fun a b => f a < f b) first rest)) <
          Floating.rank (f x)) ∧
        ∀ x ∈ back, Floating.rank (f (lowest (fun a b => f a < f b) first rest)) ≤
          Floating.rank (f x) :=
  lowest_spec_of_mem (fun x => Floating.rank (f x)) fun x hx y hy =>
    decide_eq_decide.mpr (Floating.lt_iff_rank_lt (h x hx) (h y hy))

section Finite

open Floating (value rank)

variable {first : Float} {rest : List Float} (h : ∀ x ∈ first :: rest, x.isFinite = true)
include h

theorem lt_iff_rank_lt_of_mem {x y : Float} (hx : x ∈ first :: rest) (hy : y ∈ first :: rest) :
    x < y ↔ rank x < rank y :=
  Floating.lt_iff_rank_lt (Floating.isNaN_of_isFinite (h x hx)) (Floating.isNaN_of_isFinite (h y hy))

theorem value_lowest_le : ∀ x ∈ first :: rest,
    value (lowest (fun a b => a < b) first rest) ≤ value x := by
  intro x hx
  refine (Floating.rank_le_iff_value_le (h _ (lowest_mem ..)) (h x hx)).mp ?_
  exact key_lowest_le rank (fun x hx y hy => decide_eq_decide.mpr (lt_iff_rank_lt_of_mem h hx hy))
    x hx

theorem le_value_highest : ∀ x ∈ first :: rest,
    value x ≤ value (highest (fun a b => a < b) first rest) := by
  intro x hx
  refine (Floating.rank_le_iff_value_le (h x hx) (h _ (highest_mem ..))).mp ?_
  have hreverse : highest (fun a b : Float => a < b) first rest =
      lowest (fun a b : Float => b < a) first rest := rfl
  rw [hreverse, ← neg_le_neg_iff]
  refine key_lowest_le (fun x => -rank x) (fun x hx y hy => ?_) x hx
  rw [decide_eq_decide, neg_lt_neg_iff]
  exact lt_iff_rank_lt_of_mem h hy hx

end Finite

end Circulation.Spread
