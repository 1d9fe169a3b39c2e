import Circulation.Proofs.Optimality
import Circulation.Proofs.Requests
import Circulation.Proofs.Termination

/-!
Solves one after another. A run that has spent its budget has looked at the tree and found an arc.
The next look finds the same one, so that the next run goes on where the first one stopped. Main
result: a solve that is cut off and taken up again comes to what a single solve with both budgets
comes to, and a solve that has returned has left nothing to do.
-/

namespace Circulation

/-- What is reported of a run as a whole, if this is reported of its last part and the first part
has made so many pivots. -/
def Solution.after (sol : Solution) (iterations degenerate : Nat) : Solution :=
  { sol with
    iterations := iterations + sol.iterations
    degenerate := degenerate + sol.degenerate }

namespace Solver

variable {s s' start : Solver} {options : Options} {nodeCount : Nat} {arcs : List Arc}

theorem Sound.find_again (h : s.Sound options nodeCount arcs) {found : Option Nat}
    {looked : Solver} (hfind : s.find = (.ok found, looked)) :
    looked.find = (.ok found, looked) := by
  have hstate : looked = s.refresh.2 := by
    rw [← find_solver, hfind]
  subst hstate
  have hlook : s.refresh.2.refresh = s.refresh := by
    have hsame := Tree.refresh_congr h.root_refresh h.nodeCount_refresh s.network
    simp only [Solver.refresh] at hsame ⊢
    rw [hsame]
  rw [← hfind]
  simp only [Solver.find]
  rw [hlook]

theorem run_congr (h : s'.find = s.find) (budget : Nat) : s'.run budget = s.run budget := by
  cases budget with
  | zero => rw [Solver.run, Solver.run, h]
  | succ budget => rw [Solver.run, Solver.run, h]

def Run.append (first rest : Run) : Run :=
  ⟨first.ticks ++ rest.ticks, rest.ending, rest.solver⟩

theorem degenerateCount_cons (tick : Tick) (ticks : List Tick) : degenerateCount (tick :: ticks) =
    degenerateCount ticks + if tick.pivot.isDegenerate then 1 else 0 :=
  List.countP_cons

theorem degenerateCount_append (first rest : List Tick) :
    degenerateCount (first ++ rest) = degenerateCount first + degenerateCount rest :=
  List.countP_append

theorem Run.iterations_append (first rest : Run) :
    (first.append rest).iterations = first.iterations + rest.iterations :=
  List.length_append

theorem Run.solution_append (first rest : Run) : (first.append rest).solution =
    rest.solution.after first.iterations (degenerateCount first.ticks) := by
  simp only [Run.solution, Solution.after, Run.iterations_append]
  simp only [Run.append, degenerateCount_append]

theorem Run.result_of_optimal {r : Run} (hend : r.ending = .optimal) :
    r.result = .ok r.solution := by
  rw [result, hend]

theorem Run.result_of_limit {r : Run} (hend : r.ending = .limit) :
    r.result = .error (.iterationLimit r.iterations r.solver.totalCost) := by
  rw [result, hend]

/-- So many pivots of arcs that are found lead to an optimum. -/
inductive Needs : Solver → Nat → Prop where
  | none {s looked : Solver} (hfind : s.find = (.ok none, looked)) : Needs s 0
  | turn {s after : Solver} {pivots : Nat} (hturns : s.Turns after) (hrest : Needs after pivots) :
      Needs s (pivots + 1)

/-- A run that may make as many pivots as are needed comes to an optimum, and makes no more. -/
theorem Needs.run_optimal {pivots : Nat} (h : s.Needs pivots) {budget : Nat}
    (hle : pivots ≤ budget) :
    (s.run budget).ending = .optimal ∧ (s.run budget).iterations = pivots := by
  induction h generalizing budget with
  | none hfind =>
    rw [run_of_none hfind]
    exact ⟨rfl, rfl⟩
  | turn hturns _ ih =>
    obtain ⟨_, _, _, _, hfind, hpivot⟩ := hturns
    obtain ⟨more, rfl⟩ := Nat.exists_eq_add_of_le hle
    obtain ⟨hend, hcount⟩ := ih (Nat.le_add_right _ more)
    rw [Nat.add_right_comm, run_succ_of_pivot hfind hpivot]
    exact ⟨hend, congrArg Nat.succ hcount⟩

namespace Sound

section Pivot

variable (h : s.Sound options nodeCount arcs)
include h

theorem degenerate_of_pivot {looked after : Solver} {entering : Nat} {p : Pivot}
    {events : List Event} (hfind : s.find = (.ok (some entering), looked))
    (hpivot : looked.pivot entering = ⟨.ok p, after, events⟩) : after.monitor.degenerate =
      s.monitor.degenerate + if p.isDegenerate then 1 else 0 := by
  obtain ⟨p', made, _, after', events', hpivot', -, hmade, hstate⟩ := h.pivot_ok hfind
  cases hpivot.symm.trans hpivot'
  obtain ⟨rfl, -, -⟩ := find_some hfind
  have hkept : after.monitor = made.monitor := by
    rcases hstate with rfl | rfl <;> rfl
  rw [hkept, hmade.monitor_eq]
  cases hdegenerate : p.isDegenerate <;> rfl

end Pivot

section Run

variable (h : s.Sound options nodeCount arcs) (hok : s.refresh.1 = .ok ()) {n : Nat}
include h hok

/-- A run that has spent its budget is the first part of every longer one. -/
theorem run_add (hend : (s.run n).ending = .limit) (m : Nat) :
    (s.run n).iterations = n ∧ s.run (n + m) = (s.run n).append ((s.run n).solver.run m) := by
  revert hend
  apply Sound.run_induction (P := fun s n r => r.ending = .limit →
    r.iterations = n ∧ s.run (n + m) = r.append (r.solver.run m)) ?_ ?_ ?_ h hok
  · intro _ _ _ _ _ hend
    cases hend
  · intro s looked entering h hfind _
    rw [Nat.zero_add]
    exact ⟨rfl, (run_congr ((h.find_again hfind).trans hfind.symm) m).symm⟩
  · intro s looked p after events n entering _ hfind hpivot ih hend
    obtain ⟨hcount, hsplit⟩ := ih hend
    rw [Nat.succ_add, run_succ_of_pivot hfind hpivot, hsplit]
    exact ⟨congrArg Nat.succ hcount, rfl⟩

theorem needs_of_run (hend : (s.run n).ending = .optimal) :
    (s.run n).iterations ≤ n ∧ s.Needs (s.run n).iterations := by
  revert hend
  apply Sound.run_induction (P := fun s n r => r.ending = .optimal →
    r.iterations ≤ n ∧ s.Needs r.iterations) ?_ ?_ ?_ h hok
  · intro s looked n _ hfind _
    exact ⟨Nat.zero_le n, .none hfind⟩
  · intro _ _ _ _ _ hend
    cases hend
  · intro s looked p after events n entering _ hfind hpivot ih hend
    obtain ⟨hle, hneeds⟩ := ih hend
    exact ⟨Nat.succ_le_succ hle, .turn ⟨_, _, _, _, hfind, hpivot⟩ hneeds⟩

theorem find_of_run (hend : (s.run n).ending = .optimal) :
    (s.run n).solver.find = (.ok none, (s.run n).solver) := by
  revert hend
  apply Sound.run_induction (P := fun _ _ r => r.ending = .optimal →
    r.solver.find = (.ok none, r.solver)) ?_ ?_ ?_ h hok
  · intro s looked n h hfind _
    exact h.find_again hfind
  · intro _ _ _ _ _ hend
    cases hend
  · intro _ _ _ _ _ _ _ _ _ _ ih hend
    exact ih hend

theorem degenerate_of_run (n : Nat) : (s.run n).solver.monitor.degenerate =
    s.monitor.degenerate + degenerateCount (s.run n).ticks := by
  apply Sound.run_induction (P := fun s _ r => r.solver.monitor.degenerate =
    s.monitor.degenerate + degenerateCount r.ticks) ?_ ?_ ?_ h hok
  · intro s looked n h hfind
    obtain ⟨rfl, -, -⟩ := find_none hfind
    rfl
  · intro s looked entering h hfind
    obtain ⟨rfl, -, -⟩ := find_some hfind
    rfl
  · intro s looked p after events n entering h hfind hpivot ih
    have hcount := h.degenerate_of_pivot hfind hpivot
    simp only [Run.after, degenerateCount_cons]
    rw [ih, hcount]
    omega

end Run

end Sound

/-- What comes of a solve with a budget of `n`, of a solve with a budget of `m` after it, and of a
single solve with both budgets, if the first one is cut off. -/
structure Resumes (s : Solver) (n m : Nat) (first rest whole : Report) : Prop where
  cut : first.result = .error (.iterationLimit n first.solver.totalCost)
  /-- The monitor counts the pivots of the first part that moved no flow. -/
  counted : first.solver.monitor.degenerate =
    s.monitor.degenerate + degenerateCount (s.run n).ticks
  outcome :
    (∃ sol, rest.result = .ok sol ∧
      whole.result = .ok (sol.after n (degenerateCount (s.run n).ticks))) ∨
    (rest.result = .error (.iterationLimit m rest.solver.totalCost) ∧
      whole.result = .error (.iterationLimit (n + m) rest.solver.totalCost))
  solver_eq : whole.solver = rest.solver

theorem solve_int (s : Solver) {n : Nat} {every : Int} (hn : 0 < n) (hevery : 0 < every) :
    (s.solve (.int n) (.int every)).result = (s.run n).result ∧
      (s.solve (.int n) (.int every)).solver = (s.run n).solver := by
  simp only [solve]
  rw [limits_int s (by omega) hevery]
  exact ⟨rfl, rfl⟩

namespace Sound

variable (h : s.Sound options nodeCount arcs) {n m : Nat} {every every' every'' : Int}
include h

theorem resumes (hn : 0 < n) (hm : 0 < m) (hevery : 0 < every) (hevery' : 0 < every')
    (hevery'' : 0 < every'') (hend : (s.run n).ending = .limit) :
    s.Resumes n m (s.solve (.int n) (.int every))
      ((s.solve (.int n) (.int every)).solver.solve (.int m) (.int every'))
      (s.solve (.int (n + m : Nat)) (.int every'')) := by
  have hok := refresh_of_run (s := s) (n := n) (by rw [hend]; exact nofun)
  obtain ⟨hcount, hsplit⟩ := h.run_add hok hend m
  have hnext := h.run n
  obtain ⟨hfirst, hafter⟩ := s.solve_int hn hevery
  rw [hafter]
  obtain ⟨hrest, hafter'⟩ := (s.run n).solver.solve_int hm hevery'
  obtain ⟨hwhole, hafter''⟩ := s.solve_int (Nat.add_pos_left hn m) hevery''
  have hlook := h.sees hnext hok
  refine ⟨?_, ?_, ?_, ?_⟩
  · rw [hfirst, hafter, Run.result_of_limit hend, hcount]
  · rw [hafter]
    exact h.degenerate_of_run hok n
  · rw [hrest, hwhole, hafter', hsplit]
    cases hnext.run_ending hlook m with
    | inl hoptimal =>
      have hwhole' : ((s.run n).append ((s.run n).solver.run m)).ending = .optimal := hoptimal
      refine Or.inl ⟨_, Run.result_of_optimal hoptimal, ?_⟩
      rw [Run.result_of_optimal hwhole', Run.solution_append, hcount]
    | inr hlimit =>
      have hwhole' : ((s.run n).append ((s.run n).solver.run m)).ending = .limit := hlimit
      obtain ⟨hcount', -⟩ := hnext.run_add hlook hlimit 0
      refine Or.inr ⟨?_, ?_⟩
      · rw [Run.result_of_limit hlimit, hcount']
      · rw [Run.result_of_limit hwhole', Run.iterations_append, hcount, hcount']
        rfl
  · rw [hafter'', hafter', hsplit]
    rfl

omit h in
theorem run_of_solve (hn : 0 < n) (hevery : 0 < every) {sol : Solution}
    (hsolve : (s.solve (.int n) (.int every)).result = .ok sol) :
    (s.run n).ending = .optimal ∧ sol = (s.run n).solution := by
  rw [(s.solve_int hn hevery).1] at hsolve
  exact Run.solution_of_result hsolve

/-- A solve returns exactly if no more pivots are needed than it may make, and it makes as many. -/
theorem solve_iff_needs (hn : 0 < n) (hevery : 0 < every) {pivots : Nat} :
    (∃ sol, (s.solve (.int n) (.int every)).result = .ok sol ∧ sol.iterations = pivots) ↔
      pivots ≤ n ∧ s.Needs pivots := by
  constructor
  · rintro ⟨sol, hsolve, rfl⟩
    obtain ⟨hend, rfl⟩ := run_of_solve hn hevery hsolve
    exact h.needs_of_run (refresh_of_run (by rw [hend]; exact nofun)) hend
  · rintro ⟨hle, hneeds⟩
    obtain ⟨hend, hcount⟩ := hneeds.run_optimal hle
    refine ⟨(s.run n).solution, ?_, hcount⟩
    rw [(s.solve_int hn hevery).1, Run.result_of_optimal hend]

theorem solve_again (hn : 0 < n) (hevery : 0 < every) {sol : Solution}
    (hsolve : (s.solve (.int n) (.int every)).result = .ok sol) {maxIterations interval : Value}
    {limits : Number × Number}
    (hlimits : (s.solve (.int n) (.int every)).solver.limits maxIterations interval = .ok limits) :
    let later := (s.solve (.int n) (.int every)).solver.solve maxIterations interval
    later.result = .ok { sol with iterations := 0, degenerate := 0 } ∧
      later.solver = (s.solve (.int n) (.int every)).solver := by
  obtain ⟨hend, rfl⟩ := run_of_solve hn hevery hsolve
  have hfind := h.find_of_run (refresh_of_run (by rw [hend]; exact nofun)) hend
  rw [(s.solve_int hn hevery).2] at hlimits ⊢
  simp only [Solver.solve]
  rw [hlimits]
  dsimp only
  rw [run_of_none hfind]
  exact ⟨rfl, rfl⟩

end Sound

/-- To cut a solve off and to take it up again loses nothing. In every state a solve that is cut off
has made all the pivots that it may make, and goes on as a single solve with both budgets does; a
solve returns exactly if its budget is as large as the number of pivots that are needed; and after
it has returned, every further one returns the same without a pivot. -/
theorem resumes_of_reachable {count items choices : Value}
    (hoptions : Options.ofValue choices = .ok options)
    (hstart : ofValues count items options = .ok start) (hreach : start.Reachable s) {n m : Nat}
    (hn : 0 < n) (hm : 0 < m) {every every' every'' : Int} (hevery : 0 < every)
    (hevery' : 0 < every') (hevery'' : 0 < every'') :
    let first := s.solve (.int n) (.int every)
    (∀ iterations cost, first.result = .error (.iterationLimit iterations cost) →
      s.Resumes n m first (first.solver.solve (.int m) (.int every'))
        (s.solve (.int (n + m : Nat)) (.int every''))) ∧
    (∀ pivots, (∃ sol, first.result = .ok sol ∧ sol.iterations = pivots) ↔
      pivots ≤ n ∧ s.Needs pivots) ∧
    ∀ sol, first.result = .ok sol → ∀ maxIterations interval limits,
      first.solver.limits maxIterations interval = .ok limits →
        (first.solver.solve maxIterations interval).result =
          .ok { sol with iterations := 0, degenerate := 0 } ∧
        (first.solver.solve maxIterations interval).solver = first.solver := by
  intro first
  obtain ⟨_, _, _, _, hfirst⟩ := ofValues_sound hoptions hstart
  have hsound := hfirst.reachable hreach
  refine ⟨fun iterations cost hcut => ?_, fun pivots => hsound.solve_iff_needs hn hevery,
    fun sol hsolve maxIterations interval limits hlimits =>
      hsound.solve_again hn hevery hsolve hlimits⟩
  rw [(s.solve_int hn hevery).1] at hcut
  rcases hsound.run_error hcut with ⟨hend, -⟩ | hlook
  · exact hsound.resumes hn hm hevery hevery' hevery'' hend
  · rw [hsound.refresh_result] at hlook
    rcases options.lookResult_cases _ with hok | ⟨refused, hrefused, hcategory⟩
    · cases hok.symm.trans hlook
    · cases hrefused.symm.trans hlook
      cases hcategory with
      | inl hkind => cases hkind
      | inr hvalue => cases hvalue

set_option maxRecDepth 10000 in
theorem resumes_of_reachable_blocked : ∃ (start : Solver) (sol : Solution),
    ofValues (.int 3) blocked switching = .ok start ∧
      (start.solve (.int 2) (.int 1)).result = .error (.iterationLimit 2 0) ∧
      (start.solve (.int 7) (.int 1)).result = .ok sol ∧ sol.iterations = 3 ∧
      sol.degenerate = 2 ∧ start.Needs 3 ∧
      start.Resumes 2 5 (start.solve (.int 2) (.int 1))
        ((start.solve (.int 2) (.int 1)).solver.solve (.int 5) (.int 1))
        (start.solve (.int 7) (.int 1)) := by
  have hoptions : Options.ofValue (.record [("degenerate_streak_limit", .int 1)]) =
      .ok switching := rfl
  obtain ⟨start, sol, hstart, hcut, hwhole, hcount, hdegenerate⟩ :
      ∃ (start : Solver) (sol : Solution), ofValues (.int 3) blocked switching = .ok start ∧
        (start.solve (.int 2) (.int 1)).result = .error (.iterationLimit 2 0) ∧
        (start.solve (.int 7) (.int 1)).result = .ok sol ∧ sol.iterations = 3 ∧
        sol.degenerate = 2 := ⟨_, _, rfl, rfl, rfl, rfl, rfl⟩
  have hone : (0 : Int) < 1 := Int.one_pos
  obtain ⟨hresumes, -, -⟩ := resumes_of_reachable (n := 2) (m := 5) hoptions hstart .start
    (by decide) (by decide) hone hone hone
  obtain ⟨-, hneeds, -⟩ := resumes_of_reachable (n := 7) (m := 1) hoptions hstart .start
    (by decide) (by decide) hone hone hone
  exact ⟨start, sol, hstart, hcut, hwhole, hcount, hdegenerate,
    ((hneeds 3).mp ⟨sol, hwhole, hcount⟩).2, hresumes 2 0 hcut⟩

end Solver

end Circulation
