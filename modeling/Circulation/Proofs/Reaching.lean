import Circulation.Proofs.Balance
import Circulation.Proofs.Pivoting

/-!
The states that a solver can be brought to, by looking at its tree, checking it, solving and
pivoting around any arcs. Main results: in every such state the flow is a circulation whose cost is
the one that the solver shows, and the tree arcs span the network, with every other edge at one of
its bounds.
-/

namespace Circulation

open Adjacency (Stored)
open Finset (range)

section Start

variable {options : Options} {nodeCount : Nat} {arcs : List Arc} {net : Network}

theorem Options.parts_of_ofValue {choices : Value} (h : ofValue choices = .ok options) :
    options = standard ∨ ∃ budget limit root,
      positive .maxIterationsNotPositive budget = .ok options.maxIterations ∧
        positive .streakLimitNotPositive limit = .ok options.streakLimit ∧
        rootOf root = .ok options.root := by
  simp only [ofValue] at h
  split at h
  · cases h
    exact Or.inl rfl
  · simp only [ofMembers] at h
    obtain ⟨members, -, h⟩ := bind_eq_ok_iff.mp h
    obtain ⟨maxIterations, hbudget, h⟩ := bind_eq_ok_iff.mp h
    obtain ⟨rule, -, h⟩ := bind_eq_ok_iff.mp h
    obtain ⟨streakLimit, hlimit, h⟩ := bind_eq_ok_iff.mp h
    obtain ⟨root, hroot, h⟩ := bind_eq_ok_iff.mp h
    cases h
    exact Or.inr ⟨_, _, _, hbudget, hlimit, hroot⟩
  · cases h

theorem Options.not_isAtMost_of_positive {refusal : Number → Fault} {v : Value} {x : Number}
    (h : positive refusal v = .ok (some x)) : x.isAtMost 0 = false := by
  cases v with
  | null => cases h
  | _ =>
    obtain ⟨y, -, h⟩ := bind_eq_ok_iff.mp h
    split at h
    · cases h
    · rename_i habove
      cases h
      simpa using habove

theorem Options.root_of_ofValue {choices : Value} (h : ofValue choices = .ok options) :
    options.root.isBelow 0 = false := by
  rcases parts_of_ofValue h with rfl | ⟨_, _, _, -, -, hroot⟩
  · rfl
  · simp only [rootOf] at hroot
    obtain ⟨x, -, hroot⟩ := bind_eq_ok_iff.mp hroot
    split at hroot
    · cases hroot
    · rename_i hbelow
      cases hroot
      simpa using hbelow

theorem Network.Built.circulates (h : net.Built arcs) : net.Circulates ∧ net.gain net.cost = 0 ∧
    net.AtBounds := by
  have hgain : ∀ value, net.gain value = 0 := by
    intro value
    refine Finset.sum_eq_zero fun k hk => ?_
    rw [h.flow_eq_zero (Finset.mem_range.mp hk), Int.zero_mul]
  refine ⟨⟨fun arc harc => ?_, fun k hk => ?_, fun value => hgain _⟩, hgain _, fun k hk _ => ?_⟩
  · obtain ⟨hforward, hbackward⟩ := h.unused (pairOf arc) harc.pairOf_lt
    cases eq_forward_or_twin harc.1 with
    | inl heq =>
      rw [heq, hforward]
      omega
    | inr heq => rw [heq, twin_two_mul, hbackward]
  · obtain ⟨hforward, hbackward⟩ := h.unused k hk
    rw [hforward, hbackward]
    omega
  · exact Or.inr (h.unused k hk).2

namespace Solver

theorem start_sound (h : net.Built arcs) (hnodes : net.nodeCount = nodeCount)
    (hbelow : options.root.isBelow 0 = false)
    (hbeyond : options.root.isAtLeast net.nodeCount = false) :
    (start options net).Sound options nodeCount arcs := by
  obtain ⟨hcirculates, hcost, hbounds⟩ := h.circulates
  refine ⟨rfl, hnodes, h.carries, h.wellFormed, hcirculates, h.spanning, hbounds, hcost.symm, rfl,
    Tree.sized_blank _ _, rfl, ?_, by rw [← hnodes]; rfl, fun hbland => by rw [start, hbland]; rfl⟩
  intro root hroot
  have hname : options.root = .int root ∨
      ∃ b, options.root = .truth b ∧ root = Number.ofTruth b := by
    rcases hroot with hroot | ⟨b, hroot, hb⟩
    · left
      change options.root.toValue = .int root at hroot
      cases hvalue : options.root <;> simp_all [Number.toValue]
    · right
      change options.root.toValue = .bool b at hroot
      cases hvalue : options.root <;> simp_all [Number.toValue]
  rcases hname with hname | ⟨b, hname, rfl⟩
  · rw [hname, Number.isBelow_int, decide_eq_false_iff_not] at hbelow
    rw [hname, Number.isAtLeast_int, decide_eq_false_iff_not] at hbeyond
    constructor
    · omega
    · change root < (net.nodeCount : Int)
      omega
  · have hbelow' : (Number.int (Number.ofTruth b)).isBelow 0 = false := by rwa [hname] at hbelow
    have hbeyond' : (Number.int (Number.ofTruth b)).isAtLeast net.nodeCount = false := by
      rwa [hname] at hbeyond
    rw [Number.isBelow_int, decide_eq_false_iff_not] at hbelow'
    rw [Number.isAtLeast_int, decide_eq_false_iff_not] at hbeyond'
    constructor
    · omega
    · change Number.ofTruth b < (net.nodeCount : Int)
      omega

theorem ofValues_eq_ok_iff {count items : Value} {s : Solver} :
    ofValues count items options = .ok s ↔ ∃ net, Network.ofValues count items = .ok net ∧
      options.root.isAtLeast net.nodeCount = false ∧ s = start options net := by
  simp only [ofValues, bind_eq_ok_iff]
  refine exists_congr fun net => and_congr_right fun _ => ?_
  simp only [create]
  cases options.root.isAtLeast net.nodeCount with
  | true => simp
  | false => simp [eq_comm]

theorem ofValues_of_outside {count items : Value} (hnet : Network.ofValues count items = .ok net)
    (hroot : options.root.isAtLeast net.nodeCount = true) :
    ofValues count items options =
      .error (Fault.rootOutside options.root net.nodeCount).raised := by
  simp only [ofValues, create]
  rw [hnet]
  exact if_pos hroot

theorem solveFlow_result (count items : Value) (options : Options)
    (maxIterations interval : Value) :
    (solveFlow count items options maxIterations interval).result =
      (ofValues count items options >>= fun s => (s.solve maxIterations interval).result) := by
  simp only [solveFlow, ofValues]
  cases Network.ofValues count items with
  | error fault => rfl
  | ok net =>
    dsimp only [bind, Except.bind]
    cases create options net with
    | error fault => rfl
    | ok s => rfl

theorem ofValues_sound {count items choices : Value} {s : Solver}
    (hoptions : Options.ofValue choices = .ok options) (h : ofValues count items options = .ok s) :
    ∃ nodeCount arcs, Network.nodeCountOf count = .ok nodeCount ∧ Arc.listOfValue items = .ok arcs ∧
      s.Sound options nodeCount arcs := by
  obtain ⟨net, hnet, hroot, rfl⟩ := ofValues_eq_ok_iff.mp h
  obtain ⟨nodeCount, arcs, hcount, harcs, hnet⟩ := Network.ofValues_eq_ok_iff.mp hnet
  obtain ⟨hbuilt, hnodes⟩ := Network.ofArcs_ok hnet
  exact ⟨nodeCount, arcs, hcount, harcs, start_sound hbuilt hnodes
    (Options.root_of_ofValue hoptions) hroot⟩

end Solver

end Start

namespace Rule

variable {net : Network} {t : Tree}

theorem foldl_better_mem {arcs : List Nat} {best : Option Nat} {arc : Nat}
    (h : arcs.foldl (better net t) best = some arc) : arc ∈ arcs ∨ best = some arc := by
  induction arcs generalizing best with
  | nil => exact Or.inr h
  | cons a arcs ih =>
    rw [List.foldl_cons] at h
    cases ih h with
    | inl hmem => exact Or.inl (List.mem_cons_of_mem a hmem)
    | inr hbest =>
      cases best with
      | none =>
        simp only [better, Option.some.injEq] at hbest
        simp [hbest]
      | some b =>
        simp only [better] at hbest
        split at hbest
        · simp only [Option.some.injEq] at hbest
          simp [hbest]
        · exact Or.inr hbest

theorem isEligible_of_select {r : Rule} {arc : Nat} (h : r.select net t = some arc) :
    arc < net.arcCount ∧ net.isEligible t arc = true := by
  have hmem : arc ∈ eligible net t := by
    cases r with
    | dantzig => exact (foldl_better_mem h).resolve_right nofun
    | bland => exact List.mem_of_mem_head? (Option.mem_def.mpr h)
  rw [eligible, List.mem_filter, List.mem_range] at hmem
  exact hmem

end Rule

namespace Solver

variable {s start : Solver} {options : Options} {nodeCount : Nat} {arcs : List Arc}

theorem find_some {s' : Solver} {entering : Nat} (h : s.find = (.ok (some entering), s')) :
    s' = s.refresh.2 ∧ s.refresh.1 = .ok () ∧
      s'.activeRule.select s'.network s'.tree = some entering := by
  simp only [find] at h
  generalize s.refresh = outcome at *
  obtain ⟨result, looked⟩ := outcome
  cases result with
  | error fault => cases h
  | ok _ =>
    simp only [Prod.mk.injEq, Except.ok.injEq] at h
    obtain ⟨hselect, rfl⟩ := h
    exact ⟨rfl, rfl, hselect⟩

namespace Sound

theorem find (h : s.Sound options nodeCount arcs) : s.find.2.Sound options nodeCount arcs := by
  rw [find_solver]
  exact h.refresh

/-- A pivot of the arc that was found keeps a solver sound. -/
theorem pivot_found (h : s.Sound options nodeCount arcs) {s' : Solver} {entering : Nat}
    (hfind : s.find = (.ok (some entering), s')) :
    (s'.pivot entering).solver.Sound options nodeCount arcs := by
  obtain ⟨rfl, _, hselect⟩ := find_some hfind
  have hlt := (Rule.isEligible_of_select hselect).1
  exact h.refresh.pivot h.refresh_linked ⟨by omega, by omega⟩

end Sound

/-- What searches keep, and pivots of the arcs that they find, a run keeps, however it ends. -/
theorem run_keeps {P : Solver → Prop} (hfind : ∀ s, P s → P s.find.2)
    (hpivot : ∀ s looked, ∀ entering : Nat, P s → s.find = (.ok (some entering), looked) →
      P (looked.pivot entering).solver)
    (h : P s) (budget : Nat) : P (s.run budget).solver := by
  induction budget generalizing s with
  | zero =>
    have hlooked := hfind s h
    rw [run]
    generalize s.find = outcome at *
    obtain ⟨result, looked⟩ := outcome
    cases result with
    | error fault => exact hlooked
    | ok found =>
      cases found with
      | none => exact hlooked
      | some entering => exact hlooked
  | succ budget ih =>
    have hlooked := hfind s h
    rw [run]
    cases houtcome : s.find with
    | mk result looked =>
      rw [houtcome] at hlooked
      cases result with
      | error fault => exact hlooked
      | ok found =>
        cases found with
        | none => exact hlooked
        | some entering =>
          have hafter := hpivot s looked entering h houtcome
          simp only
          generalize looked.pivot entering = turn at hafter
          obtain ⟨result, after, events⟩ := turn
          cases result with
          | error fault => exact hafter
          | ok p => exact ih hafter

theorem solve_solver (s : Solver) (maxIterations interval : Value) :
    (s.solve maxIterations interval).solver = s ∨
      ∃ budget, (s.solve maxIterations interval).solver = (s.run budget).solver := by
  simp only [solve]
  cases s.limits maxIterations interval with
  | error fault => exact Or.inl rfl
  | ok limits => exact Or.inr ⟨_, rfl⟩

namespace Sound

theorem run (h : s.Sound options nodeCount arcs) (budget : Nat) :
    (s.run budget).solver.Sound options nodeCount arcs :=
  run_keeps (P := fun s => s.Sound options nodeCount arcs) (fun _ h => h.find)
    (fun _ _ _ h hfind => h.pivot_found hfind) h budget

theorem solve (h : s.Sound options nodeCount arcs) (maxIterations interval : Value) :
    (s.solve maxIterations interval).solver.Sound options nodeCount arcs := by
  rcases s.solve_solver maxIterations interval with hstate | ⟨budget, hstate⟩
  · rwa [hstate]
  · rw [hstate]
    exact h.run budget

end Sound

/-- The states to which operations lead, in any order and whether they succeed or not. A pivot may
be asked for around any arc that is stored, while the tree is as a new look at it would find it. -/
inductive Reachable (start : Solver) : Solver → Prop where
  | start : Reachable start start
  | refresh {s : Solver} : Reachable start s → Reachable start s.refresh.2
  | find {s : Solver} : Reachable start s → Reachable start s.find.2
  | isOptimal {s : Solver} : Reachable start s → Reachable start s.isOptimal.2
  | validate {s : Solver} (requireOptimal : Bool) : Reachable start s →
      Reachable start (s.validate requireOptimal).2
  | solve {s : Solver} (maxIterations interval : Value) : Reachable start s →
      Reachable start (s.solve maxIterations interval).solver
  | pivot {s : Solver} {arc : Nat} (harc : arc < s.network.arcCount)
      (hfresh : (s.tree.refresh s.network).2 = s.tree) : Reachable start s →
      Reachable start (s.pivot arc).solver

section Keeping

variable {P : Solver → Prop}
  (hrefresh : ∀ s, s.Sound options nodeCount arcs → P s → P s.refresh.2)
  (hpivots : ∀ s s' p way, s.Sound options nodeCount arcs → s.Pivots s' p way → P s → P s')

include hrefresh hpivots

theorem Sound.pivot_keeps (h : s.Sound options nodeCount arcs) (hlinked : s.tree.Linked s.network)
    {entering : Int} (harc : Stored s.network.arcCount entering) (hP : P s) :
    P (s.pivot entering).solver := by
  rcases pivot_solver h.wellFormed hlinked harc with hkept | ⟨p, s', way, _, hmade, hstate⟩
  · rwa [hkept]
  · have hafter := hpivots s s' p way h hmade hP
    cases hstate with
    | inl hstate => rwa [hstate]
    | inr hstate =>
      rw [hstate]
      exact hrefresh s' (h.pivots hmade) hafter

/-- What looks at the tree keep and pivots that are made holds in every state that is reached from
a sound solver in which it holds. -/
theorem Sound.reachable_keeps (h : start.Sound options nodeCount arcs) (hP : P start)
    (hreach : start.Reachable s) : s.Sound options nodeCount arcs ∧ P s := by
  have hlook : ∀ s, s.Sound options nodeCount arcs ∧ P s →
      s.refresh.2.Sound options nodeCount arcs ∧ P s.refresh.2 :=
    fun s hs => ⟨hs.1.refresh, hrefresh s hs.1 hs.2⟩
  induction hreach with
  | start => exact ⟨h, hP⟩
  | refresh _ ih => exact hlook _ ih
  | find _ ih =>
    rw [find_solver]
    exact hlook _ ih
  | isOptimal _ ih =>
    rw [isOptimal_solver]
    exact hlook _ ih
  | @validate s requireOptimal _ ih =>
    cases s.validate_solver requireOptimal with
    | inl hstate => rwa [hstate]
    | inr hstate =>
      rw [hstate]
      exact hlook _ ih
  | @solve s maxIterations interval _ ih =>
    rcases s.solve_solver maxIterations interval with hstate | ⟨budget, hstate⟩
    · rwa [hstate]
    · rw [hstate]
      refine run_keeps (P := fun s => s.Sound options nodeCount arcs ∧ P s)
        (fun s hs => ?_) (fun s looked entering hs hfind => ?_) ih budget
      · rw [find_solver]
        exact hlook s hs
      · refine ⟨hs.1.pivot_found hfind, ?_⟩
        obtain ⟨rfl, _, hselect⟩ := find_some hfind
        have hlt := (Rule.isEligible_of_select hselect).1
        exact Sound.pivot_keeps hrefresh hpivots hs.1.refresh hs.1.refresh_linked
          ⟨by omega, by omega⟩ (hrefresh s hs.1 hs.2)
  | @pivot s arc harc hfresh _ ih =>
    have hlinked := ih.1.refresh_linked
    change (s.tree.refresh s.network).2.Linked s.network at hlinked
    rw [hfresh] at hlinked
    have hstored : Stored s.network.arcCount arc := ⟨by omega, by omega⟩
    exact ⟨ih.1.pivot hlinked hstored,
      Sound.pivot_keeps hrefresh hpivots ih.1 hlinked hstored ih.2⟩

end Keeping

theorem Sound.reachable (h : start.Sound options nodeCount arcs) (hreach : start.Reachable s) :
    s.Sound options nodeCount arcs :=
  (Sound.reachable_keeps (P := fun _ => True) (fun _ _ _ => trivial)
    (fun _ _ _ _ _ _ _ => trivial) h trivial hreach).1

end Solver

end Circulation
