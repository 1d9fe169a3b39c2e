import Mathlib.Order.Bounds.Basic
import Circulation.Pricing.Table

/-!
What a rule chooses when all arcs are priced at once. Neither what a table has held before nor the
order in which its rows are worked out makes a difference. Main result: the table holds the reduced
costs and the marks as they are defined arc by arc; one rule chooses the first of the eligible arcs
of least reduced cost, the other one the first eligible arc, and both choose none exactly if there
is none.
-/

namespace Circulation

namespace PriceTable

variable {α : Type} {n : Nat} {precedes : α → α → Bool} {key : α → Int}

/-- A scan that keeps the best entry so far comes to the first one of the least key. -/
theorem foldl_best (hkey : ∀ x y, precedes x y = true ↔ key x < key y) (value : Nat → α)
    (n best : Nat) (hbest : best = (List.range n).foldl
      (fun best i => if precedes (value i) (value best) then i else best) 0) :
    best < max n 1 ∧ (∀ i < n, key (value best) ≤ key (value i)) ∧
      ∀ i < best, key (value best) < key (value i) := by
  induction n generalizing best with
  | zero => simp [hbest]
  | succ n ih =>
    rw [List.range_succ, List.foldl_append, List.foldl_cons, List.foldl_nil] at hbest
    obtain ⟨hlt, hleast, hfirst⟩ := ih _ rfl
    generalize (List.range n).foldl _ 0 = before at hbest hlt hleast hfirst
    by_cases hless : precedes (value n) (value before) = true
    · rw [if_pos hless] at hbest
      subst hbest
      rw [hkey] at hless
      refine ⟨by omega, fun i hi => ?_, fun i hi => ?_⟩
      · rcases Nat.lt_succ_iff_lt_or_eq.mp hi with hi | rfl
        · exact Int.le_of_lt (Int.lt_of_lt_of_le hless (hleast i hi))
        · exact Int.le_refl _
      · exact Int.lt_of_lt_of_le hless (hleast i hi)
    · rw [if_neg hless] at hbest
      subst hbest
      rw [hkey] at hless
      refine ⟨by omega, fun i hi => ?_, hfirst⟩
      rcases Nat.lt_succ_iff_lt_or_eq.mp hi with hi | rfl
      · exact hleast i hi
      · omega

theorem firstBest_spec (hkey : ∀ x y, precedes x y = true ↔ key x < key y) (row : Vector α n)
    (standard : α) (hn : 0 < n) : ∃ best, ∃ h : best < n, firstBest precedes row standard = best ∧
      row.toArray.getD best standard = row[best] ∧ (∀ i (hi : i < n), key row[best] ≤ key row[i]) ∧
      ∀ i (hi : i < best), key row[best] < key row[i] := by
  obtain ⟨hlt, hleast, hfirst⟩ :=
    foldl_best hkey (fun i => row.toArray.getD i standard) n (firstBest precedes row standard) rfl
  generalize firstBest precedes row standard = best at hlt hleast hfirst
  have hlt : best < n := by omega
  have hvalue : ∀ i (hi : i < n), row.toArray.getD i standard = row[i] := by
    intro i hi
    simp [Array.getD_eq_getD_getElem?, hi]
  refine ⟨best, hlt, rfl, hvalue best hlt, fun i hi => ?_, fun i hi => ?_⟩
  · rw [← hvalue i hi, ← hvalue best hlt]
    exact hleast i hi
  · rw [← hvalue i (Nat.lt_trans hi hlt), ← hvalue best hlt]
    exact hfirst i hi

end PriceTable

namespace Pricing

variable (p : Pricing)

def IsEligible (arc : Nat) : Prop :=
  (p.network.eligibility (p.network.reducedCosts p.tree))[arc]? = some true

instance (arc : Nat) : Decidable (p.IsEligible arc) :=
  inferInstanceAs (Decidable (_ = _))

/-- No eligible arc has a lower reduced cost than this one. -/
def IsCheapest (arc : Nat) : Prop :=
  p.IsEligible arc ∧
    ∀ other, p.IsEligible other → p.network.wordCost p.tree arc ≤ p.network.wordCost p.tree other

theorem isEligible_iff (arc : Nat) : p.IsEligible arc ↔ arc < p.network.arcCount ∧
    p.network.isTree arc = false ∧ 0 < p.network.capacity arc ∧
      p.network.wordCost p.tree arc < 0 := by
  simp only [IsEligible, Network.eligibility, Network.reducedCosts, List.getElem?_map,
    List.getElem?_zipIdx]
  by_cases harc : arc < p.network.arcCount
  · simp [harc, and_assoc]
  · simp [harc]

section Price

theorem size_price : p.price.table.size = p.network.arcCount :=
  p.table.size_fit p.network.arcCount

/-- The order in which the terms of a reduced cost are added makes no difference, not even where
they are wrapped around. -/
theorem costs_price (arc : Nat) (harc : arc < p.price.table.size) :
    p.price.table.costs[arc] = p.network.wordCost p.tree arc := by
  simp only [price, Network.wordCost, Vector.getElem_mapIdx, Vector.getElem_zipWith,
    PriceTable.getElem_fill]
  grind

theorem marks_price (arc : Nat) (harc : arc < p.price.table.size) :
    p.price.table.marks[arc] = true ↔ p.IsEligible arc := by
  have hmark : p.price.table.marks[arc] = (decide (0 < p.network.capacity arc) &&
      decide (p.price.table.costs[arc] < 0) && !p.network.isTree arc) := by
    simp [price]
  have hlt : arc < p.network.arcCount := by rwa [← p.size_price]
  rw [hmark, p.costs_price arc harc, isEligible_iff]
  simp [hlt, and_comm, and_left_comm]

/-- The reduced cost that an arc is offered at. Arcs that are not eligible are offered at nothing. -/
def offer (arc : Nat) : Int64 :=
  if p.IsEligible arc then p.network.wordCost p.tree arc else 0

theorem offer_neg_iff (arc : Nat) : p.offer arc < 0 ↔ p.IsEligible arc := by
  unfold offer
  split
  · next h => exact iff_of_true ((p.isEligible_iff arc).mp h).2.2.2 h
  · next h => exact iff_of_false Int64.lt_irrefl h

/-- The reduced costs that are left when arcs without a mark cost nothing are the offers. -/
theorem discount_price (arc : Nat) (harc : arc < p.price.table.size) :
    p.price.table.discount.costs[arc] = p.offer arc := by
  have hmark := p.marks_price arc harc
  simp only [PriceTable.discount, offer]
  rw [Vector.getElem_zipWith, Vector.getElem_map, p.costs_price arc harc]
  by_cases h : p.IsEligible arc
  · simp [h, hmark.mpr h]
  · simp [h, mt hmark.mp h]

theorem cheapest_price (hpos : 0 < p.network.arcCount) : ∃ best < p.network.arcCount,
    p.price.cheapest.1 = (if 0 ≤ p.offer best then none else some best) ∧
      (∀ i < p.network.arcCount, p.offer best ≤ p.offer i) ∧
      ∀ i < best, p.offer best < p.offer i := by
  have hkey : ∀ x y : Int64, decide (x < y) = true ↔ x.toInt < y.toInt := by
    intro x y
    rw [decide_eq_true_eq, Int64.lt_iff_toInt_lt]
  have hsize : p.price.table.discount.size = p.network.arcCount := p.size_price
  obtain ⟨best, hlt, hbest, hget, hleast, hfirst⟩ :=
    PriceTable.firstBest_spec hkey p.price.table.discount.costs 0 (by omega)
  refine ⟨best, by omega, ?_, fun i hi => ?_, fun i hi => ?_⟩
  · simp only [cheapest]
    rw [hbest, hget, p.discount_price best hlt]
  · have hi' : i < p.price.table.size := by rwa [p.size_price]
    rw [Int64.le_iff_toInt_le, ← p.discount_price best hlt, ← p.discount_price i hi']
    exact hleast i hi'
  · rw [Int64.lt_iff_toInt_lt, ← p.discount_price best hlt,
      ← p.discount_price i (Nat.lt_trans hi hlt)]
    exact hfirst i hi

theorem first_price (hpos : 0 < p.network.arcCount) : ∃ best < p.network.arcCount,
    p.price.first.1 = (if p.IsEligible best then some best else none) ∧
      (∀ i, p.IsEligible i → p.IsEligible best) ∧ ∀ i < best, ¬ p.IsEligible i := by
  have hkey : ∀ x y : Bool, (x && !y) = true ↔ (!x).toInt < (!y).toInt := by decide
  have hlast : ∀ x : Bool, ¬ (!x).toInt < (!true).toInt := by decide
  have hmarked : ∀ x : Bool, (!x).toInt ≤ (!true).toInt → x = true := by decide
  have hsize := p.size_price
  obtain ⟨best, hlt, hbest, hget, hleast, hfirst⟩ :=
    PriceTable.firstBest_spec hkey p.price.table.marks false (by omega)
  refine ⟨best, by omega, ?_, fun i hi => ?_, fun i hi heligible => ?_⟩
  · simp only [first]
    rw [hbest, hget]
    simp only [p.marks_price best hlt]
  · have hi' : i < p.price.table.size := by
      rw [hsize]
      exact ((p.isEligible_iff i).mp hi).1
    have hle := hleast i hi'
    rw [(p.marks_price i hi').mpr hi] at hle
    exact (p.marks_price best hlt).mp (hmarked _ hle)
  · have hless := hfirst i hi
    rw [(p.marks_price i (Nat.lt_trans hi hlt)).mpr heligible] at hless
    exact hlast _ hless

end Price

section Select

theorem select_of_pos (hpos : 0 < p.network.arcCount) (rule : Rule) : (p.select rule).1 =
    match rule with
    | .dantzig => p.price.cheapest.1
    | .bland => p.price.first.1 := by
  unfold select
  rw [if_neg (by omega)]
  cases rule <;> rfl

theorem select_of_empty (hnone : ¬ 0 < p.network.arcCount) (rule : Rule) :
    (p.select rule).1 = none ∧ ∀ arc, ¬ p.IsEligible arc := by
  refine ⟨by simp [select, show p.network.arcCount = 0 by omega], fun arc harc => ?_⟩
  have hlt := ((p.isEligible_iff arc).mp harc).1
  omega

theorem offer_le_of_isEligible {arc other : Nat} (h : p.IsEligible arc)
    (hle : p.offer arc ≤ p.offer other) (hother : p.IsEligible other) :
    p.network.wordCost p.tree arc ≤ p.network.wordCost p.tree other := by
  simpa [offer, h, hother] using hle

theorem select_dantzig :
    (∃ arc, (p.select .dantzig).1 = some arc ∧ IsLeast {a | p.IsCheapest a} arc) ∨
      (p.select .dantzig).1 = none ∧ ∀ arc, ¬ p.IsEligible arc := by
  by_cases hpos : 0 < p.network.arcCount
  · obtain ⟨best, -, hchosen, hleast, hfirst⟩ := p.cheapest_price hpos
    have hoffer : ∀ a, p.IsEligible a → p.offer best ≤ p.offer a := fun a ha =>
      hleast a ((p.isEligible_iff a).mp ha).1
    rw [p.select_of_pos hpos]
    by_cases hbest : p.IsEligible best
    · have hneg := Int64.not_le.mpr ((p.offer_neg_iff best).mpr hbest)
      refine Or.inl ⟨best, by simp only [hchosen, if_neg hneg], ⟨hbest, fun other hother =>
        p.offer_le_of_isEligible hbest (hoffer other hother) hother⟩, fun a ha => ?_⟩
      by_contra hbefore
      have hless := hfirst a (Nat.not_le.mp hbefore)
      have hle := ha.2 best hbest
      simp only [offer, if_pos hbest, if_pos ha.1] at hless
      exact absurd hless (Int64.not_lt.mpr hle)
    · have hnonneg := Int64.not_lt.mp (mt (p.offer_neg_iff best).mp hbest)
      refine Or.inr ⟨by simp only [hchosen, if_pos hnonneg], fun a ha => hbest ?_⟩
      exact (p.offer_neg_iff best).mp
        (Int64.lt_of_le_of_lt (hoffer a ha) ((p.offer_neg_iff a).mpr ha))
  · exact Or.inr (p.select_of_empty hpos .dantzig)

theorem select_bland :
    (∃ arc, (p.select .bland).1 = some arc ∧ IsLeast {a | p.IsEligible a} arc) ∨
      (p.select .bland).1 = none ∧ ∀ arc, ¬ p.IsEligible arc := by
  by_cases hpos : 0 < p.network.arcCount
  · obtain ⟨best, -, hchosen, hmarked, hfirst⟩ := p.first_price hpos
    rw [p.select_of_pos hpos]
    by_cases hbest : p.IsEligible best
    · refine Or.inl ⟨best, by simp only [hchosen, if_pos hbest], hbest, fun a ha => ?_⟩
      by_contra hbefore
      exact hfirst a (Nat.not_le.mp hbefore) ha
    · exact Or.inr ⟨by simp only [hchosen, if_neg hbest], fun a ha => hbest (hmarked a ha)⟩
  · exact Or.inr (p.select_of_empty hpos .bland)

theorem eq_some_iff_of_cases {choice : Option Nat} {arcs : Set Nat}
    (h : (∃ arc, choice = some arc ∧ IsLeast arcs arc) ∨ choice = none ∧ ∀ arc, arc ∉ arcs)
    (arc : Nat) : choice = some arc ↔ IsLeast arcs arc := by
  rcases h with ⟨first, rfl, hfirst⟩ | ⟨rfl, hnone⟩
  · constructor
    · rintro ⟨⟩
      exact hfirst
    · intro harc
      rw [hfirst.unique harc]
  · exact iff_of_false nofun fun harc => hnone arc harc.1

theorem select_dantzig_eq_some_iff (arc : Nat) :
    (p.select .dantzig).1 = some arc ↔ IsLeast {a | p.IsCheapest a} arc :=
  eq_some_iff_of_cases
    (p.select_dantzig.imp_right fun h => ⟨h.1, fun arc harc => h.2 arc harc.1⟩) arc

theorem select_bland_eq_some_iff (arc : Nat) :
    (p.select .bland).1 = some arc ↔ IsLeast {a | p.IsEligible a} arc :=
  eq_some_iff_of_cases p.select_bland arc

theorem select_eq_none_iff (rule : Rule) :
    (p.select rule).1 = none ↔ ∀ arc, ¬ p.IsEligible arc := by
  cases rule with
  | dantzig =>
    rcases p.select_dantzig with ⟨arc, harc, hleast⟩ | ⟨hnone, hall⟩
    · exact iff_of_false (by simp [harc]) fun hall => hall arc hleast.1.1
    · exact iff_of_true hnone hall
  | bland =>
    rcases p.select_bland with ⟨arc, harc, hleast⟩ | ⟨hnone, hall⟩
    · exact iff_of_false (by simp [harc]) fun hall => hall arc hleast.1
    · exact iff_of_true hnone hall

theorem select_frame (rule : Rule) :
    (p.select rule).2.network = p.network ∧ (p.select rule).2.tree = p.tree := by
  unfold select
  split
  · exact ⟨rfl, rfl⟩
  · cases rule <;> exact ⟨rfl, rfl⟩

end Select

/-- Whatever the table has been used for before, pricing writes the reduced costs of all arcs into
it and marks the eligible ones. One rule chooses the first of the eligible arcs whose reduced cost
is least, the other one the first eligible arc, and both choose none exactly if no arc is eligible.
The network and the potentials stay as they are. -/
theorem select_first_best :
    p.price.table.costs.toList = p.network.reducedCosts p.tree ∧
    p.price.table.marks.toList = p.network.eligibility (p.network.reducedCosts p.tree) ∧
    (∀ arc, (p.select .dantzig).1 = some arc ↔ IsLeast {a | p.IsCheapest a} arc) ∧
    (∀ arc, (p.select .bland).1 = some arc ↔ IsLeast {a | p.IsEligible a} arc) ∧
    (∀ rule, (p.select rule).1 = none ↔ ∀ arc, ¬ p.IsEligible arc) ∧
    ∀ rule, (p.select rule).2.network = p.network ∧ (p.select rule).2.tree = p.tree := by
  have hsize := p.size_price
  refine ⟨List.ext_getElem ?_ fun arc h h' => ?_, List.ext_getElem ?_ fun arc h h' => ?_,
    p.select_dantzig_eq_some_iff, p.select_bland_eq_some_iff, p.select_eq_none_iff, p.select_frame⟩
  · simp [Network.reducedCosts, hsize]
  · simp [Network.reducedCosts, p.costs_price]
  · simp [Network.eligibility, Network.reducedCosts, hsize]
  · rw [Bool.eq_iff_iff, Vector.getElem_toList, p.marks_price arc (by simpa using h), IsEligible,
      List.getElem?_eq_getElem h', Option.some_inj]

end Pricing

end Circulation
