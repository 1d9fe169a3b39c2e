import Mathlib.Tactic.TFAE
import Circulation.Proofs.Choosing
import Circulation.Proofs.Optimality
import Circulation.Proofs.Range
import Circulation.Proofs.Resuming

/-!
What tells that the flow is optimal. In every state the words in which arcs are priced hold the
reduced costs exactly, so that a table comes to the same choice as the solver, and arcs of the tree
cost nothing, so that it makes no difference whether they are looked at. Main result: the solver's
search, the table under either rule and the check of optimality agree on whether an arc can still
improve the flow.
-/

namespace Circulation

open Adjacency (Stored)

namespace Rule

variable {net : Network} {t : Tree}

theorem mem_eligible {arc : Nat} : arc ∈ eligible net t ↔
    arc < net.arcCount ∧ net.isEligible t arc = true := by
  rw [eligible, List.mem_filter, List.mem_range]

theorem pairwise_eligible (net : Network) (t : Tree) : (eligible net t).Pairwise (· < ·) :=
  List.pairwise_lt_range.filter _

theorem foldl_better_spec {arcs : List Nat} {best found : Nat}
    (hsorted : (best :: arcs).Pairwise (· < ·))
    (h : arcs.foldl (better net t) (some best) = some found) :
    ∀ arc ∈ best :: arcs, net.reducedCost t found < net.reducedCost t arc ∨
      net.reducedCost t found = net.reducedCost t arc ∧ found ≤ arc := by
  induction arcs generalizing best with
  | nil =>
    cases h
    simp
  | cons next arcs ih =>
    obtain ⟨hbest, hsorted⟩ := List.pairwise_cons.mp hsorted
    obtain ⟨hnext, hrest⟩ := List.pairwise_cons.mp hsorted
    rw [List.foldl_cons] at h
    simp only [better] at h
    split at h
    · next hless =>
      have hall := ih hsorted h
      have hfound := hall next List.mem_cons_self
      refine List.forall_mem_cons.mpr ⟨Or.inl ?_, hall⟩
      omega
    · next hless =>
      have hkept := fun x hx => hbest x (List.mem_cons_of_mem next hx)
      have hall := ih (List.pairwise_cons.mpr ⟨hkept, hrest⟩) h
      have hfound := hall best List.mem_cons_self
      have hlater := hbest next List.mem_cons_self
      refine List.forall_mem_cons.mpr ⟨hfound, List.forall_mem_cons.mpr ⟨?_, fun x hx =>
        hall x (List.mem_cons_of_mem best hx)⟩⟩
      omega

theorem least_of_select_dantzig {found : Nat} (h : dantzig.select net t = some found) :
    ∀ arc ∈ eligible net t, net.reducedCost t found < net.reducedCost t arc ∨
      net.reducedCost t found = net.reducedCost t arc ∧ found ≤ arc := by
  have hsorted := pairwise_eligible net t
  simp only [select] at h
  cases harcs : eligible net t with
  | nil => simp
  | cons best arcs =>
    rw [harcs] at h hsorted
    exact foldl_better_spec hsorted h

end Rule

namespace Pricing

variable {p : Pricing}
  (hrange : ∀ arc < p.network.arcCount, InRange (p.network.reducedCost p.tree (arc : Nat)))
include hrange

theorem isEligible_iff_mem (arc : Nat) : p.IsEligible arc ↔ arc ∈ Rule.eligible p.network p.tree := by
  rw [isEligible_iff, Rule.mem_eligible]
  refine and_congr_right fun harc => ?_
  rw [Int64.lt_iff_toInt_lt, Network.toInt_wordCost (hrange arc harc)]
  simp [Network.isEligible, and_assoc]

/-- Where words hold the reduced costs, a table comes to the same choice as a look at each arc. -/
theorem select_eq (rule : Rule) : (p.select rule).1 = rule.select p.network p.tree := by
  cases hselect : rule.select p.network p.tree with
  | none =>
    rw [Rule.select_eq_none_iff] at hselect
    rw [select_eq_none_iff]
    intro arc harc
    obtain ⟨hlt, heligible⟩ := Rule.mem_eligible.mp ((isEligible_iff_mem hrange arc).mp harc)
    simp [hselect arc hlt] at heligible
  | some arc =>
    have heligible : p.IsEligible arc :=
      (isEligible_iff_mem hrange arc).mpr (Rule.mem_eligible.mpr (Rule.isEligible_of_select hselect))
    have hword : ∀ x, p.IsEligible x →
        (p.network.wordCost p.tree x).toInt = p.network.reducedCost p.tree x := fun x hx =>
      Network.toInt_wordCost (hrange x ((p.isEligible_iff x).mp hx).1)
    cases rule with
    | dantzig =>
      have hleast := fun x hx =>
        Rule.least_of_select_dantzig hselect x ((isEligible_iff_mem hrange x).mp hx)
      refine (p.select_dantzig_eq_some_iff arc).mpr ⟨⟨heligible, fun x hx => ?_⟩, fun x hx => ?_⟩
      · have hbetter := hleast x hx
        rw [Int64.le_iff_toInt_le, hword arc heligible, hword x hx]
        omega
      · have hbetter := hleast x hx.1
        have hle := hx.2 arc heligible
        rw [Int64.le_iff_toInt_le, hword arc heligible, hword x hx.1] at hle
        omega
    | bland =>
      refine (p.select_bland_eq_some_iff arc).mpr ⟨heligible, fun x hx => ?_⟩
      by_contra hbefore
      have hnot := Rule.first_of_select hselect x (Nat.not_le.mp hbefore)
      have hyes := (Rule.mem_eligible.mp ((isEligible_iff_mem hrange x).mp hx)).2
      simp [hnot] at hyes

end Pricing

namespace Network

variable {net : Network} {t : Tree}

theorem optimalityViolations_eq_nil_iff_isEligible {root : Nat} (hnet : net.WellFormed)
    (h : t.Rooted net root)
    (hrange : ∀ arc < net.arcCount, InRange (net.reducedCost t (arc : Nat))) :
    net.optimalityViolations t = [] ↔
      ∀ arc < net.arcCount, net.isEligible t (arc : Nat) = false := by
  rw [optimalityViolations_eq_nil_iff hrange]
  refine forall₂_congr fun arc harc => ?_
  have hstored : Stored net.arcCount (arc : Nat) := ⟨by omega, by omega⟩
  cases htree : net.isTree (arc : Nat) with
  | true => simp [isEligible, htree, reducedCost_eq_zero hnet h hstored htree]
  | false => simp [isEligible, htree]

end Network

namespace Solver

variable {s start looked : Solver} {options : Options} {nodeCount : Nat} {arcs : List Arc}
variable {count items choices : Value}

namespace Sound

variable (h : s.Sound options nodeCount arcs) (hlook : s.refresh = (.ok (), looked))
include h hlook

theorem refresh_again : looked.refresh = (.ok (), looked) := by
  have hstate : looked = s.refresh.2 := by rw [hlook]
  subst hstate
  have hsame := Tree.refresh_congr h.root_refresh h.nodeCount_refresh s.network
  rw [← hlook]
  simp only [Solver.refresh] at hsame ⊢
  rw [hsame]

theorem sound_looked : looked.Sound options nodeCount arcs := by
  have hsound := h.refresh
  rwa [hlook] at hsound

theorem rooted_looked : ∃ root, looked.tree.Rooted looked.network root := by
  have hagain := h.refresh_again hlook
  obtain ⟨root, -, hrooted⟩ := (h.sound_looked hlook).refresh_rooted (by rw [hagain])
  rw [hagain] at hrooted
  exact ⟨root, hrooted⟩

theorem find_looked :
    looked.find = (.ok (looked.activeRule.select looked.network looked.tree), looked) := by
  have hagain := h.refresh_again hlook
  rw [find_of_refresh (by rw [hagain]), hagain]

theorem validate_looked : (looked.validate true).1 =
    .ok (looked.network.optimalityViolations looked.tree) := by
  have hagain := h.refresh_again hlook
  rw [(h.sound_looked hlook).validate_of_refresh (by rw [hagain]) true, hagain]
  rfl

/-- Every verdict on a state is that no arc off the tree with capacity left has a negative reduced
cost. -/
theorem verdicts (hrange : ∀ arc < looked.network.arcCount,
    InRange (looked.network.reducedCost looked.tree (arc : Nat))) :
    [looked.find.1 = .ok none, looked.isOptimal.1 = .ok true,
      ((Pricing.start looked.network looked.tree).select .dantzig).1 = none,
      ((Pricing.start looked.network looked.tree).select .bland).1 = none,
      looked.network.optimalityViolations looked.tree = [],
      (looked.validate true).1 = .ok []].TFAE := by
  obtain ⟨root, hrooted⟩ := h.rooted_looked hlook
  have hwell := (h.sound_looked hlook).wellFormed
  have hfind : looked.find.1 = .ok none ↔
      ∀ arc < looked.network.arcCount, looked.network.isEligible looked.tree (arc : Nat) = false := by
    rw [h.find_looked hlook, Except.ok.injEq, Rule.select_eq_none_iff]
  have htable : ∀ rule, ((Pricing.start looked.network looked.tree).select rule).1 = none ↔
      ∀ arc < looked.network.arcCount, looked.network.isEligible looked.tree (arc : Nat) = false := by
    intro rule
    rw [Pricing.select_eq (p := Pricing.start looked.network looked.tree) hrange,
      Rule.select_eq_none_iff]
    rfl
  have hoptimality := Network.optimalityViolations_eq_nil_iff_isEligible hwell hrooted
    hrange
  tfae_have 1 ↔ 2 := by
    simp only [isOptimal]
    rw [h.find_looked hlook]
    simp [Except.map]
  tfae_have 1 ↔ 3 := hfind.trans (htable .dantzig).symm
  tfae_have 1 ↔ 4 := hfind.trans (htable .bland).symm
  tfae_have 1 ↔ 5 := hfind.trans hoptimality.symm
  tfae_have 5 ↔ 6 := by rw [h.validate_looked hlook, Except.ok.injEq]
  tfae_finish

end Sound

/-- All verdicts on a state agree. Once the tree has been seen, no arc is found, the solver calls its
flow optimal, a new table finds no arc under either rule, the check of optimality finds nothing and
so does the check of everything, or none of this holds; and if it does, no circulation costs less
than the flow. A tree with a whole number for its root can always be seen. -/
theorem verdicts_of_reachable (hoptions : Options.ofValue choices = .ok options)
    (hstart : ofValues count items options = .ok start) (hreach : start.Reachable s) :
    (∀ root, options.root = .int root → s.refresh.1 = .ok ()) ∧
    ∀ looked, s.refresh = (.ok (), looked) →
      [looked.find.1 = .ok none, looked.isOptimal.1 = .ok true,
        ((Pricing.start looked.network looked.tree).select .dantzig).1 = none,
        ((Pricing.start looked.network looked.tree).select .bland).1 = none,
        looked.network.optimalityViolations looked.tree = [],
        (looked.validate true).1 = .ok []].TFAE ∧
      (looked.find.1 = .ok none → ∃ arcs, Arc.listOfValue items = .ok arcs ∧
        IsCirculation arcs (looked.network.flowOn arcs) ∧
        looked.totalCost = costOf arcs (looked.network.flowOn arcs) ∧
        ∀ (R : Type) [CommRing R] [LinearOrder R] [IsStrictOrderedRing R]
          (y : Fin arcs.length → R), IsCirculation arcs y →
            (looked.totalCost : R) ≤ costOf arcs y) := by
  obtain ⟨nodeCount, arcs, _, harcs, hfirst⟩ := ofValues_sound hoptions hstart
  have hsound := hfirst.reachable hreach
  refine ⟨fun root hroot => (hsound.refresh_ok hroot).1, fun looked hlook => ⟨?_, fun hnone => ?_⟩⟩
  · have hseen : start.Reachable looked := by
      have hafter := hreach.refresh
      rwa [hlook] at hafter
    exact hsound.verdicts hlook (withinRange_of_reachable hoptions hstart hseen).reducedCost
  · have hlooked := hsound.sound_looked hlook
    have hfind : looked.find = (.ok none, looked) := by
      rw [hsound.find_looked hlook] at hnone ⊢
      exact congrArg (·, looked) hnone
    have hdone := hlooked.done_of_find hfind
    refine ⟨arcs, harcs, hlooked.carries.isCirculation hlooked.circulates, ?_,
      fun R _ _ _ y hy => hdone.costOf_le hy⟩
    rw [hlooked.carries.costOf_flowOn]
    exact hlooked.totalCost_eq

set_option maxRecDepth 10000 in
theorem verdicts_of_reachable_triangle : ∃ start s looked : Solver,
    ofValues (.int 3) triangle checking = .ok start ∧ start.Reachable s ∧
      s.refresh = (.ok (), looked) ∧ looked.totalCost = -27 ∧
      ((Pricing.start looked.network looked.tree).select .bland).1 = none ∧
      ((Pricing.start looked.network looked.tree).select .dantzig).1 = none ∧
      (looked.validate true).1 = .ok [] ∧
      ∃ arcs, Arc.listOfValue triangle = .ok arcs ∧
        ∀ y : Fin arcs.length → Int, IsCirculation arcs y → -27 ≤ costOf arcs y := by
  obtain ⟨start, s, looked, hstart, hreach, hlook, hcost, hfind⟩ : ∃ start s looked : Solver,
      ofValues (.int 3) triangle checking = .ok start ∧ start.Reachable s ∧
        s.refresh = (.ok (), looked) ∧ looked.totalCost = -27 ∧ looked.find.1 = .ok none :=
    ⟨_, _, _, rfl, .solve .null (.int 100) .start, rfl, rfl, rfl⟩
  obtain ⟨-, hverdicts⟩ := verdicts_of_reachable ofValue_checking hstart hreach
  obtain ⟨hagree, hleast⟩ := hverdicts looked hlook
  obtain ⟨arcs, harcs, -, -, hleast⟩ := hleast hfind
  refine ⟨start, s, looked, hstart, hreach, hlook, hcost, (hagree.out 0 3).mp hfind,
    (hagree.out 0 2).mp hfind, (hagree.out 0 5).mp hfind, arcs, harcs, fun y hy => ?_⟩
  have hle := hleast Int y hy
  rwa [hcost] at hle

end Solver

end Circulation
