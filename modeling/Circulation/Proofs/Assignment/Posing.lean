import Mathlib.Data.List.Forall2
import Circulation.Assignment.Plan
import Circulation.Proofs.Seeding

/-!
What holds of every assignment problem that can be posed. Its rows have one place for each point or
center, its quotas use up the supply, and its return arc pays more for a unit than any pair of a
point and a center costs.
-/

namespace Circulation

theorem throw_bind_ne_ok {α β : Type} {fault : Fault} {f : α → Except Fault β} {b : β} :
    ((throw fault : Except Fault α) >>= f) ≠ .ok b := by
  intro h
  obtain ⟨_, hthrow, -⟩ := bind_eq_ok_iff.mp h
  cases hthrow

theorem forall₂_of_mapM_eq_ok {ε α β : Type} {f : α → Except ε β} {xs : List α} {ys : List β}
    (h : xs.mapM f = .ok ys) : List.Forall₂ (fun x y => f x = .ok y) xs ys := by
  induction xs generalizing ys with
  | nil =>
    cases h
    exact List.Forall₂.nil
  | cons x xs ih =>
    rw [List.mapM_cons] at h
    obtain ⟨y, hy, h⟩ := bind_eq_ok_iff.mp h
    obtain ⟨ys', hys, h⟩ := bind_eq_ok_iff.mp h
    cases h
    exact List.Forall₂.cons hy (ih hys)

theorem length_of_mapM_eq_ok {ε α β : Type} {f : α → Except ε β} {xs : List α} {ys : List β}
    (h : xs.mapM f = .ok ys) : ys.length = xs.length :=
  (forall₂_of_mapM_eq_ok h).length_eq.symm

theorem mapM_eq_error_iff {ε α β : Type} {f : α → Except ε β} {xs : List α} {e : ε} :
    xs.mapM f = .error e ↔ ∃ before x after, xs = before ++ x :: after ∧
      (∀ y ∈ before, ∃ z, f y = .ok z) ∧ f x = .error e := by
  induction xs with
  | nil => exact iff_of_false nofun (by simp)
  | cons x xs ih =>
    rw [List.mapM_cons, bind_eq_error_iff]
    constructor
    · rintro (hx | ⟨y, hx, h⟩)
      · exact ⟨[], x, xs, rfl, by simp, hx⟩
      · obtain hrest | ⟨ys, -, hdone⟩ := bind_eq_error_iff.mp h
        · obtain ⟨before, x', after, rfl, hbefore, hx'⟩ := ih.mp hrest
          exact ⟨x :: before, x', after, rfl, List.forall_mem_cons.mpr ⟨⟨y, hx⟩, hbefore⟩, hx'⟩
        · cases hdone
    · rintro ⟨before, x', after, hsplit, hbefore, hx'⟩
      cases before with
      | nil =>
        obtain ⟨rfl, rfl⟩ := List.cons.inj hsplit
        exact .inl hx'
      | cons y before =>
        obtain ⟨rfl, rfl⟩ := List.cons.inj hsplit
        obtain ⟨⟨z, hz⟩, hbefore⟩ := List.forall_mem_cons.mp hbefore
        exact .inr ⟨z, hz, bind_eq_error_iff.mpr
          (.inl (ih.mpr ⟨before, x', after, rfl, hbefore, hx'⟩))⟩

namespace Spread

theorem not_less_highest {α : Type} (less : α → α → Bool) (hasymm : ∀ a b, less a b → ¬ less b a)
    (htrans : ∀ a b c, ¬ less a b → ¬ less b c → ¬ less a c) (first : α) (rest : List α) :
    ∀ x ∈ first :: rest, ¬ less (highest less first rest) x := by
  have hirrefl : ∀ a, ¬ less a a := fun a h => hasymm a a h h
  induction rest generalizing first with
  | nil =>
    intro x hx
    rw [List.mem_singleton.mp hx]
    exact hirrefl first
  | cons y rest ih =>
    intro x hx
    have hstep : highest less first (y :: rest) =
        highest less (if less first y then y else first) rest := rfl
    rw [hstep]
    have hrest := ih (if less first y then y else first)
    have hbest := hrest _ List.mem_cons_self
    rcases List.mem_cons.mp hx with rfl | hx
    · refine htrans _ _ _ hbest ?_
      split
      · exact hasymm _ _ ‹_›
      · exact hirrefl x
    · rcases List.mem_cons.mp hx with rfl | hx
      · refine htrans _ _ _ hbest ?_
        split
        · exact hirrefl x
        · assumption
      · exact hrest x (List.mem_cons_of_mem _ hx)

theorem le_highest (first : Int) (rest : List Int) {n : Int} (hn : n ∈ first :: rest) :
    n ≤ highest (fun a b => a < b) first rest := by
  have h := not_less_highest (fun a b : Int => a < b) (by simp; omega) (by simp; omega)
    first rest n hn
  simpa using h

theorem lowest_le (first : Int) (rest : List Int) {n : Int} (hn : n ∈ first :: rest) :
    lowest (fun a b => a < b) first rest ≤ n := by
  have h := not_less_highest (fun a b : Int => b < a) (by simp; omega) (by simp; omega)
    first rest n hn
  rw [lowest_eq_highest]
  simpa using h

end Spread

namespace Assignment

theorem lt_returnCostOf {costs : List (List Int)} {row : List Int} (hrow : row ∈ costs) {cost : Int}
    (hcost : cost ∈ row) (supply : Nat) : cost < returnCostOf costs supply := by
  have hmem : cost ∈ costs.flatten := List.mem_flatten.mpr ⟨row, hrow, hcost⟩
  simp only [returnCostOf]
  split
  · rename_i hnil
    rw [hnil] at hmem
    cases hmem
  · rename_i c cs hcons
    rw [hcons] at hmem
    have hhigh := Spread.le_highest c cs hmem
    have hlow := Spread.lowest_le c cs hmem
    have hrange : 0 ≤ (supply : Int) * (Spread.highest (fun a b => a < b) c cs -
        Spread.lowest (fun a b => a < b) c cs) :=
      Int.mul_nonneg (by omega) (by omega)
    omega

theorem natSum_toNat {quotas : List Int} (h : ∀ q ∈ quotas, 0 ≤ q) :
    (natSum (quotas.map Int.toNat) : Int) = intSum quotas := by
  induction quotas with
  | nil => rfl
  | cons q quotas ih =>
    have hq := h q List.mem_cons_self
    have hrest := ih fun r hr => h r (List.mem_cons_of_mem q hr)
    rw [List.map_cons, natSum_cons, intSum_cons]
    omega

theorem checkedQuotas_ok {quotas : List Int} {centerCount supply : Nat} {checked : List Nat}
    (h : checkedQuotas quotas centerCount supply = .ok checked) :
    checked.length = centerCount ∧ natSum checked = supply := by
  simp only [checkedQuotas] at h
  split at h
  · cases h
  · rename_i hlength
    split at h
    · cases h
    · rename_i hneg
      split at h
      · cases h
      · rename_i hsum
        cases h
        have hnonneg : ∀ q ∈ quotas, 0 ≤ q := by
          simpa using hneg
        have htotal := natSum_toNat hnonneg
        rw [List.length_map]
        omega

theorem quotasOf_ok {v : Value} {centerCount supply : Nat} {quotas : List Nat}
    (hpos : 0 < centerCount) (h : quotasOf v centerCount supply = .ok quotas) :
    quotas.length = centerCount ∧ natSum quotas = supply := by
  simp only [quotasOf] at h
  split at h
  · cases h
    exact ⟨Quotas.length_even supply centerCount, Quotas.sum_even supply hpos⟩
  · split at h
    · obtain ⟨items, -, h⟩ := bind_eq_ok_iff.mp h
      exact checkedQuotas_ok h
    · cases h

namespace Problem

/-- What holds of a problem that could be posed. -/
structure WellPosed (p : Problem) : Prop where
  pointCount_pos : 0 < p.pointCount
  centerCount_pos : 0 < p.centerCount
  length_supplies : p.supplies.length = p.pointCount
  length_quotas : p.quotas.length = p.centerCount
  length_costs : p.costs.length = p.pointCount
  length_row : ∀ row ∈ p.costs, row.length = p.centerCount
  sum_quotas : natSum p.quotas = p.totalSupply
  cost_lt : ∀ row ∈ p.costs, ∀ cost ∈ row, cost < p.returnCost
  statedReturn_eq : p.statedReturn = .int p.returnCost

theorem length_quantizedCosts {site : Site} {centers : List Site} {resolution : Float}
    {normalize : Bool} {row : List Int}
    (h : site.quantizedCosts centers resolution normalize = .ok row) :
    row.length = centers.length := by
  simp only [Site.quantizedCosts, Quantize.costs] at h
  rw [length_of_mapM_eq_ok h]
  split <;> simp

theorem ofSites_ok {points centers : List Site} {terms : Terms} {p : Problem}
    (h : ofSites points centers terms = .ok p) : p.WellPosed ∧ ∃ balance,
      Balance.ofValue terms.balance = .ok balance ∧
      p.points.mapM (supplyOf balance) = .ok p.supplies := by
  simp only [ofSites] at h
  obtain ⟨points, -, h⟩ := bind_eq_ok_iff.mp h
  obtain ⟨centers, -, h⟩ := bind_eq_ok_iff.mp h
  split at h
  · exact absurd h throw_bind_ne_ok
  rename_i hpoints
  split at h
  · exact absurd h throw_bind_ne_ok
  rename_i hcenters
  obtain ⟨balance, hbalance, h⟩ := bind_eq_ok_iff.mp h
  split at h
  · exact absurd h throw_bind_ne_ok
  obtain ⟨supplies, hsupplies, h⟩ := bind_eq_ok_iff.mp h
  obtain ⟨quotas, hquotas, h⟩ := bind_eq_ok_iff.mp h
  obtain ⟨costs, hcosts, h⟩ := bind_eq_ok_iff.mp h
  cases h
  rw [List.isEmpty_iff] at hpoints hcenters
  have hpos : 0 < centers.length := List.length_pos_iff.mpr hcenters
  obtain ⟨hlength, hsum⟩ := quotasOf_ok hpos hquotas
  refine ⟨⟨List.length_pos_iff.mpr hpoints, hpos, length_of_mapM_eq_ok hsupplies, hlength,
    length_of_mapM_eq_ok hcosts, fun row hrow => ?_, hsum, fun row hrow cost hcost => ?_, rfl⟩,
    balance, hbalance, hsupplies⟩
  · obtain ⟨k, hk, rfl⟩ := List.getElem_of_mem hrow
    have hrows := forall₂_of_mapM_eq_ok hcosts
    exact length_quantizedCosts (hrows.get (by rwa [hrows.length_eq]) hk)
  · exact lt_returnCostOf hrow hcost _

theorem ofValues_ok {points centers : Value} {terms : Terms} {p : Problem}
    (h : ofValues points centers terms = .ok p) : p.WellPosed ∧ ∃ balance,
      Balance.ofValue terms.balance = .ok balance ∧
      p.points.mapM (supplyOf balance) = .ok p.supplies := by
  obtain ⟨ps, -, h⟩ := bind_eq_ok_iff.mp h
  obtain ⟨cs, -, h⟩ := bind_eq_ok_iff.mp h
  exact ofSites_ok h

theorem supply_eq_one {sites : List Site} {supplies : List Nat}
    (h : sites.mapM (supplyOf .count) = .ok supplies) : ∀ supply ∈ supplies, supply = 1 := by
  intro supply hmem
  obtain ⟨k, hk, rfl⟩ := List.getElem_of_mem hmem
  have hall := forall₂_of_mapM_eq_ok h
  have hone := hall.get (by rwa [hall.length_eq]) hk
  exact (Except.ok.inj hone).symm

end Problem

end Assignment

end Circulation
