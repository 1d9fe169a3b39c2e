import Circulation.Proofs.Digits
import Circulation.Proofs.Invariants

/-!
What a caller can ask of a solver, in any order: to look for an arc, to pivot around the arc that is
found, to say whether the flow is optimal, and to solve. Main result: only a solve can fail, and it
fails by its limits alone; in every state the checks find nothing, so it makes no difference to any
answer whether they are made.
-/

namespace Circulation

theorem Tree.refresh_congr {t t' : Tree} (hroot : t'.root = t.root)
    (hcount : t'.nodeCount = t.nodeCount) (net : Network) : t'.refresh net = t.refresh net := by
  have hclear : t'.clear = t.clear := by simp only [clear, hroot, hcount]
  have hstart : ∀ root, Walk.start t' root = Walk.start t root := by
    intro root
    simp only [Walk.start, hclear, hcount]
  have hreached : ∀ reached, t'.checkReached reached = t.checkReached reached := by
    intro reached
    simp only [checkReached, hroot, hcount]
  simp only [refresh, refreshFrom, refreshFromTruth, hasNode, hroot, hcount, hclear, hstart,
    hreached]
  rfl

namespace Solver

section Requests

inductive Request where
  | find
  /-- To find an arc and to pivot around it. -/
  | advance
  | isOptimal
  | solve (maxIterations interval : Value)

inductive Answer where
  | found (result : Except Fault (Option Nat))
  | advanced (result : Except Fault (Option Pivot))
  | optimal (result : Except Fault Bool)
  | solved (result : Except Fault Solution) (progress : List Progress) (events : List Event)

/-- A limit that is not positive, with too many digits for the refusal to show it. -/
def IsUnshown (limit : Value) : Prop :=
  ∃ n : Int, limit = .int n ∧ n ≤ 0 ∧ ¬ Decimal.IsShort n

/-- Searches and pivots succeed. A solve may fail because its budget is spent. Before it begins it
may be refused, for a limit that is not positive or is no number; a limit of too many digits is
refused as such. -/
def Request.IsServed : Request → Answer → Prop
  | .find, .found result => ∃ arc, result = .ok arc
  | .advance, .advanced result => ∃ p, result = .ok p
  | .isOptimal, .optimal result => ∃ optimal, result = .ok optimal
  | .solve maxIterations interval, .solved result progress events =>
    ∀ fault, result = .error fault → fault.category = .iterationLimit ∨
      progress = [] ∧ events = [] ∧ (fault.category = .configuration ∨
        fault.category = .wrongKind ∨
        fault = .badValue ∧ (IsUnshown maxIterations ∨ IsUnshown interval))
  | _, _ => False

def advance (s : Solver) : Except Fault (Option Pivot) × Solver :=
  match s.find with
  | (.error fault, s) => (.error fault, s)
  | (.ok none, s) => (.ok none, s)
  | (.ok (some entering), s) =>
    ((s.pivot entering).result.map some, (s.pivot entering).solver)

def perform (s : Solver) : Request → Answer × Solver
  | .find => (.found s.find.1, s.find.2)
  | .advance => (.advanced s.advance.1, s.advance.2)
  | .isOptimal => (.optimal s.isOptimal.1, s.isOptimal.2)
  | .solve maxIterations interval =>
    let report := s.solve maxIterations interval
    (.solved report.result report.progress report.events, report.solver)

/-- The answers to requests one after another, and the solver after them. -/
def performAll (s : Solver) : List Request → List Answer × Solver
  | [] => ([], s)
  | request :: requests =>
    let rest := (s.perform request).2.performAll requests
    ((s.perform request).1 :: rest.1, rest.2)

end Requests

variable {s s' : Solver} {options : Options} {nodeCount : Nat} {arcs : List Arc} {root : Int}

section Limits

theorem category_of_toNumber {v : Value} {fault : Fault} (h : v.toNumber = .error fault) :
    fault.category = .wrongKind := by
  simp only [Value.toNumber] at h
  cases hnumber : v.number? with
  | none =>
    rw [hnumber] at h
    cases h
    rfl
  | some x =>
    rw [hnumber] at h
    cases h

theorem toNumber_eq_ok_iff {v : Value} {x : Number} : v.toNumber = .ok x ↔ v = x.toValue := by
  simp only [Value.toNumber]
  constructor
  · intro h
    cases v <;> cases h <;> rfl
  · rintro rfl
    cases x <;> rfl

/-- A limit is refused in the words of its refusal, unless it has too many digits for them. -/
theorem raised_limit (refused : Fault) {x : Number} (hlow : x.isAtMost 0 = true)
    (hbounds : refused.shownBounds = []) (hintegers : refused.shownIntegers = x.toValue.integers) :
    refused.raised = refused ∨ refused.raised = .badValue ∧ IsUnshown x.toValue := by
  rcases Fault.raised_cases hbounds with hraised | ⟨hraised, n, hmem, hlong⟩
  · exact Or.inl hraised
  · refine Or.inr ⟨hraised, ?_⟩
    rw [hintegers] at hmem
    cases x with
    | int m =>
      obtain rfl := List.mem_singleton.mp hmem
      rw [Number.isAtMost_int, decide_eq_true_eq] at hlow
      exact ⟨n, rfl, hlow, Decimal.hasText_iff.not.mp hlong⟩
    | truth b => cases hmem
    | float y => cases hmem

theorem budgetOf_eq_ok {v : Value} {budget : Number} (h : s.budgetOf v = .ok budget) :
    budget = s.defaultBudget ∨ v.toNumber = .ok budget := by
  cases v with
  | null =>
    cases h
    exact Or.inl rfl
  | _ => exact Or.inr h

theorem defaultBudget_pos
    (h : ∀ budget, s.options.maxIterations = some budget → budget.isAtMost 0 = false) :
    s.defaultBudget.isAtMost 0 = false := by
  unfold defaultBudget
  cases hbudget : s.options.maxIterations with
  | none => simp
  | some budget => exact h budget hbudget

theorem limits_eq_error {maxIterations interval : Value} {fault : Fault}
    (h : s.limits maxIterations interval = .error fault) :
    fault.category = .configuration ∨ fault.category = .wrongKind ∨ fault = .badValue ∧
      (s.defaultBudget.isAtMost 0 = false → IsUnshown maxIterations ∨ IsUnshown interval) := by
  unfold limits at h
  obtain hbudget | ⟨budget, hbudget, h⟩ := bind_eq_error_iff.mp h
  · cases maxIterations with
    | null => cases hbudget
    | _ => exact Or.inr (Or.inl (category_of_toNumber hbudget))
  split at h
  next hlow =>
    cases h
    rcases raised_limit (.maxIterationsNotPositive budget) hlow rfl rfl with
      hraised | ⟨hraised, hunshown⟩
    · exact Or.inl (congrArg Fault.category hraised)
    · refine Or.inr (Or.inr ⟨hraised, fun hdefault => Or.inl ?_⟩)
      rcases budgetOf_eq_ok hbudget with rfl | hread
      · rw [hdefault] at hlow
        cases hlow
      · rwa [toNumber_eq_ok_iff.mp hread]
  next =>
    obtain hevery | ⟨every, hevery, h⟩ := bind_eq_error_iff.mp h
    · exact Or.inr (Or.inl (category_of_toNumber hevery))
    · split at h
      next hlow =>
        cases h
        rcases raised_limit (.progressIntervalNotPositive every) hlow rfl rfl with
          hraised | ⟨hraised, hunshown⟩
        · exact Or.inl (congrArg Fault.category hraised)
        · rw [← toNumber_eq_ok_iff.mp hevery] at hunshown
          exact Or.inr (Or.inr ⟨hraised, fun _ => Or.inr hunshown⟩)
      next => cases h

theorem category_of_limits {maxIterations interval : Value} {fault : Fault}
    (h : s.limits maxIterations interval = .error fault) :
    fault.category = .configuration ∨ fault.category = .wrongKind ∨
      fault.category = .badValue :=
  (limits_eq_error h).imp_right (Or.imp_right fun hbad => congrArg Fault.category hbad.1)

end Limits

namespace Sound

theorem isOptimal_ok (h : s.Sound options nodeCount arcs) (hroot : options.root = .int root) :
    ∃ optimal, s.isOptimal.1 = .ok optimal := by
  obtain ⟨found, hfind⟩ := h.find_ok hroot
  simp only [Solver.isOptimal]
  rw [hfind]
  exact ⟨found.isNone, rfl⟩

theorem advance (h : s.Sound options nodeCount arcs) (hroot : options.root = .int root) :
    s.advance.2.Sound options nodeCount arcs ∧ ∃ p, s.advance.1 = .ok p := by
  obtain ⟨found, hfind⟩ := h.find_ok hroot
  simp only [Solver.advance]
  rw [hfind]
  cases found with
  | none => exact ⟨h.refresh, none, rfl⟩
  | some entering =>
    obtain ⟨p, _, _, after, events, hpivot, -⟩ := h.pivot_ok hfind
    refine ⟨h.pivot_found hfind, some p, ?_⟩
    simp only [hpivot]
    rfl

theorem run_ending (h : s.Sound options nodeCount arcs) (hok : s.refresh.1 = .ok ())
    (budget : Nat) : (s.run budget).ending = .optimal ∨ (s.run budget).ending = .limit := by
  apply Sound.run_induction (P := fun _ _ r => r.ending = .optimal ∨ r.ending = .limit) ?_ ?_ ?_
    h hok
  · intro _ _ _ _ _
    exact Or.inl rfl
  · intro _ _ _ _ _
    exact Or.inr rfl
  · intro _ _ _ _ _ _ _ _ _ _ ih
    exact ih

theorem run_error (h : s.Sound options nodeCount arcs) {budget : Nat} {fault : Fault}
    (hfault : (s.run budget).result = .error fault) :
    ((s.run budget).ending = .limit ∧
      fault = .iterationLimit (s.run budget).iterations (s.run budget).solver.totalCost) ∨
    s.refresh.1 = .error fault := by
  cases hlook : s.refresh.1 with
  | error refused =>
    simp only [Run.result] at hfault
    rw [run_of_refresh hlook] at hfault
    cases hfault
    exact Or.inr rfl
  | ok _ =>
    simp only [Run.result] at hfault
    cases h.run_ending hlook budget with
    | inl hend =>
      rw [hend] at hfault
      cases hfault
    | inr hend =>
      rw [hend] at hfault
      cases hfault
      exact Or.inl ⟨hend, rfl⟩

theorem limit_of_run (h : s.Sound options nodeCount arcs) {budget iterations : Nat} {cost : Int}
    (hcut : (s.run budget).result = .error (.iterationLimit iterations cost)) :
    (s.run budget).ending = .limit ∧ iterations = (s.run budget).iterations := by
  rcases h.run_error hcut with ⟨hend, hfault⟩ | hlook
  · cases hfault
    exact ⟨hend, rfl⟩
  · rcases h.category_of_refresh hlook with hcategory | hcategory
    · cases hcategory
    · cases hcategory

/-- A solve that has begun fails because its budget is spent, or because the tree cannot be seen from
its root. -/
theorem solve_error (h : s.Sound options nodeCount arcs) {maxIterations interval : Value}
    {fault : Fault} (hfault : (s.solve maxIterations interval).result = .error fault) :
    fault.category = .iterationLimit ∨ s.refresh.1 = .error fault ∨
      s.limits maxIterations interval = .error fault ∧
        (s.solve maxIterations interval).progress = [] ∧
        (s.solve maxIterations interval).events = [] := by
  simp only [Solver.solve] at hfault ⊢
  cases hlimits : s.limits maxIterations interval with
  | error refused =>
    rw [hlimits] at hfault
    cases hfault
    exact Or.inr (Or.inr ⟨rfl, rfl, rfl⟩)
  | ok limits =>
    rw [hlimits] at hfault
    rcases h.run_error hfault with ⟨-, rfl⟩ | hlook
    · exact Or.inl rfl
    · exact Or.inr (Or.inl hlook)

theorem category_of_failed_solve (h : s.Sound options nodeCount arcs)
    {maxIterations interval : Value} {fault : Fault}
    (hfault : (s.solve maxIterations interval).result = .error fault) :
    fault.category = .iterationLimit ∨ fault.category = .configuration ∨
      fault.category = .wrongKind ∨ fault.category = .badValue := by
  rcases h.solve_error hfault with hlimit | hlook | ⟨hlimits, -⟩
  · exact Or.inl hlimit
  · exact Or.inr (Or.inr (h.category_of_refresh hlook))
  · exact Or.inr (category_of_limits hlimits)

/-- Every request leads to a sound state. -/
theorem perform (h : s.Sound options nodeCount arcs) (hroot : options.root = .int root)
    (request : Request) : (s.perform request).2.Sound options nodeCount arcs := by
  cases request with
  | find => exact h.find
  | advance => exact (h.advance hroot).1
  | isOptimal =>
    simp only [Solver.perform, isOptimal_solver]
    exact h.refresh
  | solve maxIterations interval => exact h.solve maxIterations interval

theorem isServed (h : s.Sound options nodeCount arcs) (hroot : options.root = .int root)
    (hdefault : s.defaultBudget.isAtMost 0 = false) (request : Request) :
    request.IsServed (s.perform request).1 := by
  cases request with
  | find =>
    obtain ⟨found, hfind⟩ := h.find_ok hroot
    refine ⟨found, ?_⟩
    rw [hfind]
  | advance => exact (h.advance hroot).2
  | isOptimal => exact h.isOptimal_ok hroot
  | solve maxIterations interval =>
    intro fault hfault
    rcases h.solve_error hfault with hlimit | hlook | ⟨hlimits, hprogress, hevents⟩
    · exact Or.inl hlimit
    · cases (h.refresh_ok hroot).1.symm.trans hlook
    · refine Or.inr ⟨hprogress, hevents, ?_⟩
      exact (limits_eq_error hlimits).imp_right
        (Or.imp_right fun ⟨hbad, hunshown⟩ => ⟨hbad, hunshown hdefault⟩)

theorem performAll (h : s.Sound options nodeCount arcs) (hroot : options.root = .int root)
    (hbudget : ∀ budget, options.maxIterations = some budget → budget.isAtMost 0 = false)
    (requests : List Request) : (s.performAll requests).2.Sound options nodeCount arcs ∧
      List.Forall₂ Request.IsServed requests (s.performAll requests).1 := by
  induction requests generalizing s with
  | nil => exact ⟨h, .nil⟩
  | cons request requests ih =>
    obtain ⟨hlast, hanswers⟩ := ih (h.perform hroot request)
    have hdefault := defaultBudget_pos (h.options_eq ▸ hbudget)
    exact ⟨hlast, .cons (h.isServed hroot hdefault request) hanswers⟩

end Sound

theorem pivotUnchecked_eq_ok_iff {entering : Int} {p : Pivot} {events : List Event}
    {made : Solver} : s.pivotUnchecked entering = (.ok (p, events), made) ↔
      s.network.isTree entering = false ∧ 0 < s.network.capacity entering ∧
        ∃ way, s.wayBack entering = .ok way ∧
          s.pivotAround entering way = (.ok (p, events), made) := by
  simp only [pivotUnchecked]
  by_cases hrefused : (s.network.isTree entering || decide (s.network.capacity entering ≤ 0)) = true
  · rw [if_pos hrefused]
    constructor
    · intro h
      cases h
    · rintro ⟨hoff, hroom, -⟩
      simp only [hoff, Bool.false_or, decide_eq_true_eq] at hrefused
      omega
  · rw [if_neg hrefused]
    simp only [Bool.or_eq_true, decide_eq_true_eq, not_or, Bool.not_eq_true, not_le] at hrefused
    cases hback : s.wayBack entering with
    | error fault =>
      constructor
      · intro h
        cases h
      · rintro ⟨-, -, way, hway, -⟩
        cases hway
    | ok way =>
      constructor
      · intro h
        exact ⟨hrefused.1, hrefused.2, way, rfl, h⟩
      · rintro ⟨-, -, way', hway, haround⟩
        cases hway
        exact haround

/-- The same solver with other choices and another look at the tree. -/
def withView (s : Solver) (options : Options) (tree : Tree) : Solver :=
  { s with options, tree }

section View

variable {choices : Options} (hrule : choices.rule = s.options.rule)
  (hanti : choices.antiCycling = s.options.antiCycling) (tree : Tree)
include hrule hanti

theorem updateRule_withView : (s.withView choices tree).updateRule =
    (s.updateRule.1.withView choices tree, s.updateRule.2) := by
  have hrule' : (s.withView choices tree).options.rule = s.options.rule := hrule
  have hanti' : (s.withView choices tree).options.antiCycling = s.options.antiCycling := hanti
  have hwants : (s.withView choices tree).monitor.wantsBland = s.monitor.wantsBland := rfl
  have huse : (s.withView choices tree).useBland = s.useBland := rfl
  simp only [updateRule]
  rw [hrule', hanti', hwants, huse]
  split
  · rfl
  · split
    · rfl
    · split <;> rfl

theorem note_withView (p : Pivot) : (s.withView choices tree).note p =
    ((s.note p).1.withView choices tree, (s.note p).2) := by
  let noted : Solver := { s with
    pivotCount := s.pivotCount + 1
    monitor := s.monitor.record (.int s.totalCost) p.isDegenerate }
  exact updateRule_withView (s := noted) hrule hanti tree

theorem pivotAround_withView (entering : Int) (way : List Int) :
    (s.withView choices tree).pivotAround entering way =
      ((s.pivotAround entering way).1, (s.pivotAround entering way).2.withView choices tree) := by
  have hnet : (s.withView choices tree).network = s.network := rfl
  have huse : (s.withView choices tree).useBland = s.useBland := rfl
  have hcost : (s.withView choices tree).totalCost = s.totalCost := rfl
  have hmade : ∀ network totalCost,
      ({ s.withView choices tree with network, totalCost, useBland := s.useBland } : Solver) =
        ({ s with network, totalCost } : Solver).withView choices tree := fun _ _ => rfl
  simp only [pivotAround, hnet, huse, hcost, hmade]
  generalize (s.network.augment _ _).exchange _ _ = outcome
  obtain ⟨result, network⟩ := outcome
  cases result with
  | error fault => rfl
  | ok _ =>
    have hnoted := fun totalCost p => note_withView
      (s := { s with network, totalCost }) hrule hanti tree p
    simp only [hnoted]
    rfl

end View

section Transparency

variable {check : Bool}

def withCheck (s : Solver) (check : Bool) : Solver :=
  { s with options := { s.options with checkInvariants := check } }

/-- The second solver is the first one with the check turned on or off, and perhaps with an older or
newer look at the tree. -/
structure Alike (check : Bool) (s s' : Solver) : Prop where
  same : s' = { s.withCheck check with tree := s'.tree }
  root_eq : s'.tree.root = s.tree.root
  nodeCount_eq : s'.tree.nodeCount = s.tree.nodeCount

theorem Sound.withCheck (h : s.Sound options nodeCount arcs) (check : Bool) :
    (s.withCheck check).Sound { options with checkInvariants := check } nodeCount arcs := by
  refine ⟨?_, h.nodeCount_eq, h.carries, h.wellFormed, h.circulates, h.spanning, h.atBounds,
    h.totalCost_eq, h.totals_eq, h.sized, h.root_eq, h.rootIn, h.limit_eq, h.useBland_of_rule⟩
  rw [Solver.withCheck, h.options_eq]

namespace Alike

theorem withCheck (s : Solver) (check : Bool) : Alike check s (s.withCheck check) :=
  ⟨rfl, rfl, rfl⟩

theorem refresh (h : Alike check s s') :
    s'.refresh = (s.refresh.1, s.refresh.2.withCheck check) := by
  have hlook := Tree.refresh_congr h.root_eq h.nodeCount_eq s.network
  have hnet : s'.network = s.network := by
    rw [h.same]
    rfl
  simp only [Solver.refresh]
  rw [hnet, hlook]
  conv_lhs => rw [h.same]
  rfl

theorem find (h : Alike check s s') : s'.find = (s.find.1, s.find.2.withCheck check) := by
  simp only [Solver.find]
  rw [h.refresh]
  cases hrefresh : s.refresh with
  | mk result looked =>
    cases result with
    | error fault => rfl
    | ok _ => rfl

theorem isOptimal (h : Alike check s s') :
    s'.isOptimal = (s.isOptimal.1, s.isOptimal.2.withCheck check) := by
  simp only [Solver.isOptimal]
  rw [h.find]

theorem activeRule_eq (h : Alike check s s') : s'.activeRule = s.activeRule := by
  rw [h.same]
  rfl

theorem totalCost_eq (h : Alike check s s') : s'.totalCost = s.totalCost := by
  rw [h.same]
  rfl

theorem limits_eq (h : Alike check s s') (maxIterations interval : Value) :
    s'.limits maxIterations interval = s.limits maxIterations interval := by
  rw [h.same]
  rfl

end Alike

namespace Sound

theorem alike_of_looks (h : s.Sound options nodeCount arcs) {after after' : Solver}
    (hafter : after = s ∨ after = s.refresh.2)
    (hafter' : after' = s.withCheck check ∨ after' = (s.withCheck check).refresh.2) :
    Alike check after after' := by
  have hlook : (s.withCheck check).refresh.2 = s.refresh.2.withCheck check := by
    rw [(Alike.withCheck s check).refresh]
  rw [hlook] at hafter'
  rcases hafter with rfl | rfl <;> rcases hafter' with rfl | rfl
  · exact Alike.withCheck _ check
  · exact ⟨rfl, h.root_refresh, h.nodeCount_refresh⟩
  · exact ⟨rfl, h.root_refresh.symm, h.nodeCount_refresh.symm⟩
  · exact Alike.withCheck _ check

theorem pivot_withCheck (h : s.Sound options nodeCount arcs) (hroot : options.root = .int root)
    {looked : Solver} {entering : Nat} (hfind : s.find = (.ok (some entering), looked))
    (check : Bool) : ∃ p events after after', looked.pivot entering = ⟨.ok p, after, events⟩ ∧
      (looked.withCheck check).pivot entering = ⟨.ok p, after', events⟩ ∧
      Alike check after after' := by
  obtain ⟨p, events, made, _, hpivot, -, hpivots, hmade⟩ := h.pivotUnchecked_ok hfind
  have hview : made.withView (looked.withCheck check).options looked.tree =
      made.withCheck check := by
    simp only [Solver.withView, Solver.withCheck]
    rw [hpivots.options_eq, ← hpivots.tree_eq]
  obtain ⟨hoff, hroom, way, hback, haround⟩ := pivotUnchecked_eq_ok_iff.mp hpivot
  have hpivot' : (looked.withCheck check).pivotUnchecked entering =
      (.ok (p, events), made.withCheck check) := by
    refine pivotUnchecked_eq_ok_iff.mpr ⟨hoff, hroom, way, hback, ?_⟩
    have hrule : (looked.withCheck check).options.rule = looked.options.rule := rfl
    have haround' := pivotAround_withView hrule rfl looked.tree entering way
    rw [haround, hview] at haround'
    exact haround'
  have hchecked := hmade.withCheck check
  refine ⟨p, events, _, _, pivot_of_unchecked hmade (hmade.refresh_ok hroot).1 hpivot,
    pivot_of_unchecked hchecked (hchecked.refresh_ok hroot).1 hpivot',
    hmade.alike_of_looks ?_ ?_⟩
  · split
    · exact Or.inr rfl
    · exact Or.inl rfl
  · split
    · exact Or.inr rfl
    · exact Or.inl rfl

end Sound

namespace Alike

theorem advance (h : Alike check s s') (hs : s.Sound options nodeCount arcs)
    (hroot : options.root = .int root) :
    s'.advance.1 = s.advance.1 ∧ Alike check s.advance.2 s'.advance.2 := by
  obtain ⟨found, hfind⟩ := hs.find_ok hroot
  simp only [Solver.advance]
  rw [h.find, hfind]
  cases found with
  | none => exact ⟨rfl, withCheck _ check⟩
  | some entering =>
    obtain ⟨p, events, after, after', hpivot, hpivot', halike⟩ :=
      hs.pivot_withCheck hroot hfind check
    dsimp only
    rw [hpivot, hpivot']
    exact ⟨rfl, halike⟩

theorem run (h : Alike check s s') (hs : s.Sound options nodeCount arcs)
    (hroot : options.root = .int root) (budget : Nat) :
    s'.run budget = ⟨(s.run budget).ticks, (s.run budget).ending,
      (s.run budget).solver.withCheck check⟩ := by
  induction budget generalizing s s' with
  | zero =>
    obtain ⟨found, hfind⟩ := hs.find_ok hroot
    rw [Solver.run, Solver.run, h.find, hfind]
    cases found with
    | none => rfl
    | some entering => rfl
  | succ budget ih =>
    obtain ⟨found, hfind⟩ := hs.find_ok hroot
    rw [Solver.run, Solver.run, h.find, hfind]
    cases found with
    | none => rfl
    | some entering =>
      obtain ⟨p, events, after, after', hpivot, hpivot', halike⟩ :=
        hs.pivot_withCheck hroot hfind check
      have hafter := hs.pivot_found hfind
      rw [hpivot] at hafter
      simp only [hpivot, hpivot']
      rw [ih halike hafter, halike.totalCost_eq, halike.activeRule_eq]
      rfl

theorem solve (h : Alike check s s') (hs : s.Sound options nodeCount arcs)
    (hroot : options.root = .int root) (maxIterations interval : Value) :
    (s'.solve maxIterations interval).result = (s.solve maxIterations interval).result ∧
      (s'.solve maxIterations interval).progress = (s.solve maxIterations interval).progress ∧
      (s'.solve maxIterations interval).events = (s.solve maxIterations interval).events ∧
      Alike check (s.solve maxIterations interval).solver
        (s'.solve maxIterations interval).solver := by
  have hnet : s'.network = s.network := by
    rw [h.same]
    rfl
  simp only [Solver.solve]
  rw [h.limits_eq]
  cases s.limits maxIterations interval with
  | error fault => exact ⟨rfl, rfl, rfl, h⟩
  | ok limits =>
    dsimp only
    rw [h.run hs hroot, hnet, h.activeRule_eq, h.totalCost_eq]
    exact ⟨rfl, rfl, rfl, withCheck _ check⟩

theorem perform (h : Alike check s s') (hs : s.Sound options nodeCount arcs)
    (hroot : options.root = .int root) (request : Request) :
    (s'.perform request).1 = (s.perform request).1 ∧
      Alike check (s.perform request).2 (s'.perform request).2 := by
  cases request with
  | find =>
    simp only [Solver.perform]
    rw [h.find]
    exact ⟨rfl, withCheck _ check⟩
  | advance =>
    obtain ⟨hanswer, halike⟩ := h.advance hs hroot
    simp only [Solver.perform]
    rw [hanswer]
    exact ⟨rfl, halike⟩
  | isOptimal =>
    simp only [Solver.perform]
    rw [h.isOptimal]
    exact ⟨rfl, withCheck _ check⟩
  | solve maxIterations interval =>
    obtain ⟨hresult, hprogress, hevents, halike⟩ := h.solve hs hroot maxIterations interval
    simp only [Solver.perform]
    rw [hresult, hprogress, hevents]
    exact ⟨rfl, halike⟩

theorem performAll (h : Alike check s s') (hs : s.Sound options nodeCount arcs)
    (hroot : options.root = .int root) (requests : List Request) :
    (s'.performAll requests).1 = (s.performAll requests).1 ∧
      Alike check (s.performAll requests).2 (s'.performAll requests).2 := by
  induction requests generalizing s s' with
  | nil => exact ⟨rfl, h⟩
  | cons request requests ih =>
    obtain ⟨hanswer, halike⟩ := h.perform hs hroot request
    obtain ⟨hanswers, hlast⟩ := ih halike (hs.perform hroot request)
    simp only [Solver.performAll]
    rw [hanswer, hanswers]
    exact ⟨rfl, hlast⟩

end Alike

end Transparency

end Solver

end Circulation
