import Mathlib.Data.List.DropRight
import Circulation.Proofs.Descent

/-!
When the rule changes. The monitor counts the pivots at the end of a history that moved no flow, and
the rule in effect is the one that this count asks for, whether the pivots were made one by one or
by solves. Main result: the first-index rule is in effect exactly if it is the chosen one, or if it
may come into effect and the last pivots, as many as the limit says, all moved no flow; and every
pivot is made by the rule in effect, which chooses the entering arc and decides which arc leaves.
-/

namespace Circulation

theorem le_length_rtakeWhile_iff {α : Type} (p : α → Bool) (xs : List α) (n : Nat) :
    n ≤ (xs.rtakeWhile p).length ↔ n ≤ xs.length ∧ ∀ x ∈ xs.rtake n, p x := by
  induction xs using List.reverseRecOn generalizing n with
  | nil => simp
  | append_singleton xs x ih =>
    cases n with
    | zero => simp
    | succ n =>
      rw [List.rtake_concat_succ, List.rtakeWhile_concat]
      by_cases hx : p x
      · simp [hx, ih, or_imp, forall_and]
      · simp [hx]

theorem rtakeWhile_append {α : Type} {p : α → Bool} {xs ys : List α}
    (hxs : ∀ x ∈ xs.getLast?, p x = false) (hys : ∀ y ∈ ys, p y) :
    (xs ++ ys).rtakeWhile p = ys := by
  have hnil : xs.rtakeWhile p = [] := by
    rw [List.rtakeWhile_eq_nil_iff]
    intro hne
    simp [hxs _ (List.getLast?_eq_some_getLast hne)]
  simp only [List.rtakeWhile] at hnil ⊢
  rw [List.reverse_append, List.takeWhile_append_of_pos, List.reverse_append, hnil]
  · simp
  · simpa using hys

theorem Number.isAtMost_mono {x : Number} {k n : Int} (hkn : k ≤ n) (h : x.isAtMost k = true) :
    x.isAtMost n = true := by
  cases x with
  | int m =>
    rw [isAtMost_int, decide_eq_true_eq] at h ⊢
    exact h.trans hkn
  | truth b =>
    have hone : ∀ i, (truth b).isAtMost i = (int (ofTruth b)).isAtMost i := fun _ => rfl
    rw [hone, isAtMost_int, decide_eq_true_eq] at h ⊢
    exact h.trans hkn
  | float x =>
    simp only [isAtMost, compare?] at h ⊢
    cases hread : Decimal.Reading.ofFloat x with
    | nan => simp [hread] at h
    | infinite negative => simpa [hread] using h
    | finite b =>
      simp only [hread, Option.any_some, Int.isLE_compare] at h ⊢
      exact h.trans (Int.mul_le_mul_of_nonneg_right hkn (Int.natCast_nonneg _))

theorem Options.streakLimit_of_ofValue {choices : Value} {options : Options}
    (h : ofValue choices = .ok options) {limit : Number}
    (hlimit : options.streakLimit = some limit) : limit.isAtMost 0 = false := by
  rcases parts_of_ofValue h with rfl | ⟨_, _, _, -, hread, -⟩
  · cases hlimit
  · exact not_isAtMost_of_positive (hread.trans (congrArg Except.ok hlimit))

/-- The arc of a cycle that leaves by a rule is one of the narrowest: the first of them, or by the
first-index rule one of the earliest pair. -/
structure Rule.Leaves (rule : Rule) (net : Network) (cycle : List Int) (leaving : Int) : Prop where
  mem : leaving ∈ cycle
  le : ∀ x ∈ cycle, net.capacity leaving ≤ net.capacity x
  first : rule = .dantzig →
    cycle.find? (fun x => net.capacity x == net.capacity leaving) = some leaving
  least : rule = .bland → ∀ x ∈ cycle, net.capacity x = net.capacity leaving →
    pairOf leaving ≤ pairOf x

namespace Solver

variable {s s' start after : Solver} {options : Options} {nodeCount : Nat} {arcs : List Arc}
variable {ps qs : List Pivot}

/-- A pivot of the arc that is found, by the rule in effect: the rule has chosen the arc that enters
and decides which arc of the cycle leaves. -/
def PivotsBy (s after : Solver) (rule : Rule) (p : Pivot) : Prop :=
  s.activeRule = rule ∧ ∃ (entering : Nat) (looked : Solver) (events : List Event) (way : List Int),
    s.find = (.ok (some entering), looked) ∧ looked.pivot entering = ⟨.ok p, after, events⟩ ∧
    p.entering = entering ∧ rule.select looked.network looked.tree = some entering ∧
    looked.tree.pathArcs (.int (looked.network.head entering))
      (.int (looked.network.tail entering)) = .ok way ∧
    rule.Leaves looked.network (p.entering :: way) p.leaving

def solvePivots (s : Solver) (maxIterations interval : Value) : List Pivot :=
  match s.limits maxIterations interval with
  | .error _ => []
  | .ok (budget, _) => (s.run (pivotsWithin budget)).ticks.map Tick.pivot

/-- The states to which searches, pivots of the arcs that are found and solves lead, whether the
solves return or are cut off, with all pivots that were made on the way. -/
inductive Course (start : Solver) : List Pivot → Solver → Prop where
  | start : Course start [] start
  | find {ps : List Pivot} {s : Solver} (h : Course start ps s) : Course start ps s.find.2
  | pivot {ps : List Pivot} {s looked after : Solver} {entering : Nat} {p : Pivot}
      {events : List Event} (h : Course start ps s) (hfind : s.find = (.ok (some entering), looked))
      (hpivot : looked.pivot entering = ⟨.ok p, after, events⟩) : Course start (ps ++ [p]) after
  | solve {ps : List Pivot} {s : Solver} (h : Course start ps s) (maxIterations interval : Value) :
      Course start (ps ++ s.solvePivots maxIterations interval)
        (s.solve maxIterations interval).solver

section Histories

theorem Trace.append (h : s.Trace ps s') (h' : s'.Trace qs after) : s.Trace (ps ++ qs) after := by
  induction h with
  | stop s => exact h'
  | look _ ih => exact .look (ih h')
  | turn hfind hpivot _ ih => exact .turn hfind hpivot (ih h')

theorem Trace.split {front rest : List Pivot} {p : Pivot} (h : s.Trace (front ++ p :: rest) s') :
    ∃ mid looked after, ∃ entering : Nat, ∃ events, s.Trace front mid ∧
      mid.find = (.ok (some entering), looked) ∧
      looked.pivot entering = ⟨.ok p, after, events⟩ ∧ after.Trace rest s' := by
  generalize hall : front ++ p :: rest = ps at h
  induction h generalizing front with
  | stop s => simp at hall
  | look _ ih =>
    obtain ⟨mid, looked, after, entering, events, hfront, hmade⟩ := ih hall
    exact ⟨mid, looked, after, entering, events, .look hfront, hmade⟩
  | @turn s looked after s' entering q events qs hfind hpivot hrest ih =>
    cases front with
    | nil =>
      cases hall
      exact ⟨s, looked, after, entering, events, .stop s, hfind, hpivot, hrest⟩
    | cons q' front =>
      simp only [List.cons_append, List.cons.injEq] at hall
      obtain ⟨rfl, hall⟩ := hall
      obtain ⟨mid, looked', after', entering', events', hfront, hmade⟩ := ih hall
      exact ⟨mid, looked', after', entering', events', .turn hfind hpivot hfront, hmade⟩

theorem Course.append_trace (h : start.Course ps s) (htrace : s.Trace qs s') :
    start.Course (ps ++ qs) s' := by
  induction htrace generalizing ps with
  | stop s => rwa [List.append_nil]
  | look _ ih => exact ih h.find
  | turn hfind hpivot _ ih =>
    rw [List.append_cons]
    exact ih (h.pivot hfind hpivot)

theorem Sound.course_trace (hstart : start.Sound options nodeCount arcs)
    (h : start.Course ps s) : start.Trace ps s := by
  induction h with
  | start => exact .stop start
  | find _ ih =>
    have hlook := ih.append (.look (.stop _))
    rwa [List.append_nil] at hlook
  | pivot _ hfind hpivot ih => exact ih.append (.turn hfind hpivot (.stop _))
  | @solve ps s _ maxIterations interval ih =>
    refine ih.append ?_
    simp only [solvePivots, Solver.solve]
    cases s.limits maxIterations interval with
    | error fault => exact .stop s
    | ok limits => exact (hstart.trace_descends ih).1.trace_run _

end Histories

/-- What a solver has kept of its pivots: how many of the last ones moved no flow, and the rule that
this number asks for, if the rule may change. -/
structure Recalls (s : Solver) (ps : List Pivot) : Prop where
  streak_eq : s.monitor.streak = (ps.rtakeWhile Pivot.isDegenerate).length
  useBland_eq : s.useBland = if s.options.rule == .bland || !s.options.antiCycling
    then s.options.rule == .bland else s.monitor.wantsBland

namespace Sound

theorem recalls_start {net : Network} {choices : Value}
    (hoptions : Options.ofValue choices = .ok options) :
    (Solver.start options net).Recalls [] := by
  refine ⟨rfl, ?_⟩
  have hpatient : (Solver.start options net).monitor.wantsBland = false := by
    change (options.streakLimit.getD (.int (max 1 net.nodeCount))).isAtMost 0 = false
    cases hlimit : options.streakLimit with
    | none =>
      rw [Option.getD_none, Number.isAtMost_int, decide_eq_false_iff_not]
      omega
    | some limit => exact Options.streakLimit_of_ofValue hoptions hlimit
  rw [hpatient]
  change (options.rule == .bland) = _
  cases hrule : options.rule == .bland with
  | true => simp [Solver.start, hrule]
  | false => simp [Solver.start, hrule]

theorem recalls_pivot (h : s.Sound options nodeCount arcs) (hrecalls : s.Recalls ps)
    {looked : Solver} {entering : Nat} {p : Pivot} {events : List Event}
    (hfind : s.find = (.ok (some entering), looked))
    (hpivot : looked.pivot entering = ⟨.ok p, after, events⟩) : after.Recalls (ps ++ [p]) := by
  obtain ⟨p', made, _, after', events', hpivot', -, hmade, hstate⟩ := h.pivot_ok hfind
  cases hpivot.symm.trans hpivot'
  obtain ⟨rfl, -, -⟩ := find_some hfind
  have hmonitor : made.monitor = s.monitor.record (.int made.totalCost) p.isDegenerate :=
    hmade.monitor_eq
  have hkept : made.Recalls (ps ++ [p]) := by
    constructor
    · rw [hmonitor, Monitor.streak_record, List.rtakeWhile_concat, hrecalls.streak_eq]
      cases p.isDegenerate with
      | true => simp
      | false => simp
    · rw [hmade.useBland_eq, hmade.options_eq]
      change (if s.options.rule == .bland || !s.options.antiCycling then s.useBland
        else made.monitor.wantsBland) = if s.options.rule == .bland || !s.options.antiCycling
          then s.options.rule == .bland else made.monitor.wantsBland
      split
      · rename_i hfixed
        rw [hrecalls.useBland_eq, if_pos hfixed]
      · rfl
  rcases hstate with rfl | rfl
  · exact hkept
  · exact ⟨hkept.streak_eq, hkept.useBland_eq⟩

theorem recalls_trace (h : s.Sound options nodeCount arcs) (hrecalls : s.Recalls ps)
    (htrace : s.Trace qs s') : s'.Recalls (ps ++ qs) := by
  induction htrace generalizing ps with
  | stop s => rwa [List.append_nil]
  | look _ ih =>
    refine ih h.find ?_
    rw [find_solver]
    exact ⟨hrecalls.streak_eq, hrecalls.useBland_eq⟩
  | turn hfind hpivot _ ih =>
    have hafter := h.pivot_found hfind
    rw [hpivot] at hafter
    rw [List.append_cons]
    exact ih hafter (h.recalls_pivot hrecalls hfind hpivot)

theorem activeRule_eq_bland_iff (h : s.Sound options nodeCount arcs) (hrecalls : s.Recalls ps) :
    s.activeRule = .bland ↔ options.rule = .bland ∨
      options.antiCycling = true ∧
        (options.streakLimit.getD (.int (max 1 nodeCount))).isAtMost
          (ps.rtakeWhile Pivot.isDegenerate).length = true := by
  have huse := h.useBland_eq
  rw [hrecalls.useBland_eq, Monitor.wantsBland, hrecalls.streak_eq, h.limit_eq,
    h.options_eq] at huse
  have hactive : s.activeRule = .bland ↔ decide (s.activeRule = .bland) = true := by simp
  rw [hactive, ← huse]
  cases options.rule with
  | bland => simp
  | dantzig =>
    cases options.antiCycling with
    | true => simp
    | false => simp

theorem pivotsBy (h : s.Sound options nodeCount arcs) {looked : Solver} {entering : Nat}
    {p : Pivot} {events : List Event} (hfind : s.find = (.ok (some entering), looked))
    (hpivot : looked.pivot entering = ⟨.ok p, after, events⟩) :
    s.PivotsBy after s.activeRule p := by
  obtain ⟨way, hway, hentering, heffect⟩ := h.effect_of_find hfind hpivot
  refine ⟨rfl, entering, looked, events, way, hfind, hpivot, hentering, ?_, hway, ?_⟩
  · obtain ⟨rfl, -, hselect⟩ := find_some hfind
    exact hselect
  · have hrule : looked.activeRule = s.activeRule := by
      obtain ⟨rfl, -, -⟩ := find_some hfind
      rfl
    rw [← hrule]
    have hdelta := heffect.delta_eq
    refine ⟨heffect.leaving_mem, ?_, ?_, ?_⟩
    · rw [← hdelta]
      exact heffect.delta_le
    · rw [← hdelta]
      exact heffect.first
    · rw [← hdelta]
      exact heffect.least

/-- A pivot of a history was made by the rule that was in effect after the pivots before it. -/
theorem course_split (h : start.Sound options nodeCount arcs) {front rest : List Pivot} {p : Pivot}
    (hcourse : start.Course (front ++ p :: rest) s) : ∃ mid after, start.Course front mid ∧
      mid.PivotsBy after mid.activeRule p ∧ after.Course rest s := by
  obtain ⟨mid, looked, after, entering, events, hfront, hfind, hpivot, hrest⟩ :=
    (h.course_trace hcourse).split
  have hmid := (h.trace_descends hfront).1
  exact ⟨mid, after, Course.start.append_trace hfront, hmid.pivotsBy hfind hpivot,
    Course.start.append_trace hrest⟩

/-- The rule in effect after the pivots of a history. -/
theorem course_activeRule (h : start.Sound options nodeCount arcs) (hrecalls : start.Recalls [])
    (hcourse : start.Course ps s) : s.activeRule = .bland ↔ options.rule = .bland ∨
      options.antiCycling = true ∧
        (options.streakLimit.getD (.int (max 1 nodeCount))).isAtMost
          (ps.rtakeWhile Pivot.isDegenerate).length = true := by
  have htrace := h.course_trace hcourse
  exact (h.trace_descends htrace).1.activeRule_eq_bland_iff (h.recalls_trace hrecalls htrace)

end Sound

/-- The rule in effect is settled by the pivots that were made. It is the first-index rule if that
was chosen, or if the rule may change and the last pivots, as many as the limit says, all moved no
flow. So where it may change, pivots without flow in a row are made by the other rule up to the
limit, and by the first-index rule from then on, and so is the pivot that ends them. Every pivot is
made by the rule that was in effect after the pivots before it. -/
theorem rule_of_course {count items choices : Value}
    (hoptions : Options.ofValue choices = .ok options)
    (hstart : ofValues count items options = .ok start) (hcourse : start.Course ps s) :
    ∃ nodeCount, Network.nodeCountOf count = .ok nodeCount ∧
      (s.activeRule = .bland ↔ options.rule = .bland ∨ options.antiCycling = true ∧
        ∃ n : Nat, (options.streakLimit.getD (.int nodeCount)).isAtMost n = true ∧
          n ≤ ps.length ∧ ∀ p ∈ ps.rtake n, p.isDegenerate = true) ∧
      (∀ front p rest, ps = front ++ p :: rest → ∃ mid after, start.Course front mid ∧
        mid.PivotsBy after mid.activeRule p ∧ after.Course rest s) ∧
      ∀ limit : Nat, (options.streakLimit.getD (.int nodeCount)).integer? = some (limit : Int) →
        (s.activeRule = .bland ↔ options.rule = .bland ∨ options.antiCycling = true ∧
          limit ≤ ps.length ∧ ∀ p ∈ ps.rtake limit, p.isDegenerate = true) ∧
        (options.rule = .dantzig → options.antiCycling = true →
          ∀ front streak p rest, ps = front ++ streak ++ p :: rest →
            (∀ q ∈ front.getLast?, q.isDegenerate = false) →
            (∀ q ∈ streak, q.isDegenerate = true) →
            ∃ mid after, start.Course (front ++ streak) mid ∧
              mid.PivotsBy after (if streak.length < limit then .dantzig else .bland) p ∧
              after.Course rest s) := by
  obtain ⟨nodeCount, arcs, hcount, -, hfirst⟩ := ofValues_sound hoptions hstart
  have hpos := Network.nodeCountOf_pos hcount
  have hmax : (max 1 nodeCount : Int) = nodeCount := by omega
  have hnothing : start.Recalls [] := by
    obtain ⟨net, -, -, rfl⟩ := ofValues_eq_ok_iff.mp hstart
    exact Sound.recalls_start hoptions
  have hrule : ∀ {qs : List Pivot} {mid : Solver}, start.Course qs mid →
      (mid.activeRule = .bland ↔ options.rule = .bland ∨ options.antiCycling = true ∧
        (options.streakLimit.getD (.int nodeCount)).isAtMost
          (qs.rtakeWhile Pivot.isDegenerate).length = true) := by
    intro qs mid hmid
    have hiff := hfirst.course_activeRule hnothing hmid
    rwa [hmax] at hiff
  refine ⟨nodeCount, hcount, ?_, fun front p rest hall => hfirst.course_split (hall ▸ hcourse),
    fun limit hlimit => ⟨?_, ?_⟩⟩
  · rw [hrule hcourse]
    refine or_congr_right (and_congr_right fun _ => ⟨fun hreached => ?_, ?_⟩)
    · exact ⟨_, hreached, (le_length_rtakeWhile_iff _ _ _).mp (Nat.le_refl _)⟩
    · rintro ⟨n, hreached, hlast⟩
      have hle := (le_length_rtakeWhile_iff _ _ _).mpr hlast
      exact Number.isAtMost_mono (by omega) hreached
  · rw [hrule hcourse, Number.isAtMost_of_integer hlimit, decide_eq_true_eq, Int.ofNat_le,
      le_length_rtakeWhile_iff]
  · intro hdantzig hanti front streak p rest hall hfront hstreak
    rw [hall] at hcourse
    obtain ⟨mid, after, hmid, hpivot, hrest⟩ := hfirst.course_split hcourse
    refine ⟨mid, after, hmid, ?_, hrest⟩
    have hiff := hrule hmid
    rw [Number.isAtMost_of_integer hlimit, decide_eq_true_eq, Int.ofNat_le,
      rtakeWhile_append hfront hstreak, hdantzig] at hiff
    have hactive : mid.activeRule = if streak.length < limit then .dantzig else .bland := by
      split
      · cases hmidRule : mid.activeRule with
        | dantzig => rfl
        | bland =>
          have hlate := hiff.mp hmidRule
          simp only [reduceCtorEq, false_or] at hlate
          omega
      · exact hiff.mpr (Or.inr ⟨hanti, by omega⟩)
    rwa [← hactive]

set_option maxRecDepth 10000 in
theorem rule_of_course_blocked : ∃ start s mid after : Solver,
    ofValues (.int 3) blocked switching = .ok start ∧
      start.Course [⟨8, 0, 0, 0⟩, ⟨6, 3, 0, 0⟩, ⟨4, 6, 4, -44⟩] s ∧ s.activeRule ≠ .bland ∧
      start.Course [⟨8, 0, 0, 0⟩, ⟨6, 3, 0, 0⟩] mid ∧
      mid.PivotsBy after .bland ⟨4, 6, 4, -44⟩ ∧ after.Course [] s := by
  have hoptions : Options.ofValue (.record [("degenerate_streak_limit", .int 1)]) =
      .ok switching := rfl
  -- The first solve is cut off after one pivot, and a second one makes the last pivot.
  obtain ⟨start, looked, turned, events, hstart, hfirst, hfind, hturn, hlast⟩ :
      ∃ (start looked turned : Solver) (events : List Event),
        ofValues (.int 3) blocked switching = .ok start ∧
        start.solvePivots (.int 1) (.int 100) = [⟨8, 0, 0, 0⟩] ∧
        (start.solve (.int 1) (.int 100)).solver.find = (.ok (some 6), looked) ∧
        looked.pivot (6 : Nat) = ⟨.ok ⟨6, 3, 0, 0⟩, turned, events⟩ ∧
        turned.solvePivots .null (.int 100) = [⟨4, 6, 4, -44⟩] :=
    ⟨_, _, _, _, rfl, rfl, rfl, rfl, rfl⟩
  have hcourse :=
    ((Course.start.solve (.int 1) (.int 100)).pivot hfind hturn).solve .null (.int 100)
  rw [hfirst, hlast] at hcourse
  obtain ⟨nodeCount, -, -, -, hlimits⟩ := rule_of_course hoptions hstart hcourse
  obtain ⟨hrule, hstreaks⟩ := hlimits 1 rfl
  obtain ⟨mid, after, hmid, hpivot, hrest⟩ :=
    hstreaks rfl rfl [] [⟨8, 0, 0, 0⟩, ⟨6, 3, 0, 0⟩] ⟨4, 6, 4, -44⟩ [] rfl (by decide) (by decide)
  refine ⟨start, _, mid, after, hstart, hcourse, ?_, hmid, hpivot, hrest⟩
  rw [Ne, hrule]
  decide

end Solver

end Circulation
