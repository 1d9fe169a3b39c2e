import Mathlib.Order.Bounds.Basic
import Circulation.Proofs.Switching

/-!
What the monitor keeps of the pivots. Its counters and its window are those of the whole history of
outcomes, however long. Main result: as a solver never raises its cost, and lowers it by every pivot
that moves flow, the two ends of a full window agree exactly if no pivot after its first one moved
flow, so that the cost is the same throughout.
-/

namespace Circulation

namespace Monitor

def recordAll (m : Monitor) (outcomes : List (Number × Bool)) : Monitor :=
  outcomes.foldl (fun m outcome => m.record outcome.1 outcome.2) m

/-- The lengths of the stretches at the end of a history in which no pivot moved flow. -/
def idleEndings (outcomes : List (Number × Bool)) : Set Nat :=
  {n | ∃ ending, ending <:+ outcomes ∧ (∀ outcome ∈ ending, outcome.2 = true) ∧ ending.length = n}

def idleStretches (outcomes : List (Number × Bool)) : Set Nat :=
  {n | ∃ stretch, stretch <:+: outcomes ∧ (∀ outcome ∈ stretch, outcome.2 = true) ∧
    stretch.length = n}

/-- The monitor says of a history what is asked of it: the last costs, as many as there is room for,
how many pivots there were and how many of them moved no flow, and the longest stretches of these,
the one at the end and the longest of all. -/
structure Summarizes (m : Monitor) (window : Nat) (outcomes : List (Number × Bool)) : Prop where
  window_eq : m.window = window
  history_eq : m.history = (outcomes.map Prod.fst).rtake window
  length_history : m.history.length = min outcomes.length window
  pivots_eq : m.pivots = outcomes.length
  degenerate_eq : m.degenerate = outcomes.countP Prod.snd
  streak : IsGreatest (idleEndings outcomes) m.streak
  longest : IsGreatest (idleStretches outcomes) m.longest

section Stretches

variable {outcomes : List (Number × Bool)} {cost : Number} {n : Nat}

theorem idleEndings_subset (outcomes : List (Number × Bool)) :
    idleEndings outcomes ⊆ idleStretches outcomes := by
  rintro n ⟨ending, hsuffix, hidle⟩
  exact ⟨ending, hsuffix.isInfix, hidle⟩

theorem mem_idleEndings_true : n ∈ idleEndings (outcomes ++ [(cost, true)]) ↔
    n = 0 ∨ ∃ k ∈ idleEndings outcomes, n = k + 1 := by
  constructor
  · rintro ⟨ending, hsuffix, hidle, rfl⟩
    rcases List.suffix_concat_iff.mp hsuffix with rfl | ⟨front, rfl, hfront⟩
    · exact Or.inl rfl
    · refine Or.inr ⟨front.length, ⟨front, hfront, fun outcome hmem => ?_, rfl⟩, by simp⟩
      exact hidle outcome (List.mem_append_left _ hmem)
  · rintro (rfl | ⟨_, ⟨front, hfront, hidle, rfl⟩, rfl⟩)
    · exact ⟨[], List.nil_suffix, nofun, rfl⟩
    · refine ⟨front ++ [(cost, true)], List.suffix_concat_iff.mpr (Or.inr ⟨front, rfl, hfront⟩),
        fun outcome hmem => ?_, by simp⟩
      rcases List.mem_append.mp hmem with hmem | hmem
      · exact hidle outcome hmem
      · rw [List.mem_singleton.mp hmem]

theorem mem_idleEndings_false : n ∈ idleEndings (outcomes ++ [(cost, false)]) ↔ n = 0 := by
  constructor
  · rintro ⟨ending, hsuffix, hidle, rfl⟩
    rcases List.suffix_concat_iff.mp hsuffix with rfl | ⟨front, rfl, -⟩
    · rfl
    · have hlast := hidle (cost, false) (by simp)
      cases hlast
  · rintro rfl
    exact ⟨[], List.nil_suffix, nofun, rfl⟩

theorem idleStretches_concat (outcomes : List (Number × Bool)) (outcome : Number × Bool) :
    idleStretches (outcomes ++ [outcome]) =
      idleStretches outcomes ∪ idleEndings (outcomes ++ [outcome]) := by
  ext n
  constructor
  · rintro ⟨stretch, hinfix, hidle⟩
    rcases List.infix_concat_iff.mp hinfix with hsuffix | hinfix
    · exact Or.inr ⟨stretch, hsuffix, hidle⟩
    · exact Or.inl ⟨stretch, hinfix, hidle⟩
  · rintro (⟨stretch, hinfix, hidle⟩ | hending)
    · exact ⟨stretch, List.infix_concat_iff.mpr (Or.inr hinfix), hidle⟩
    · exact idleEndings_subset _ hending

end Stretches

theorem summarizes_start (limit : Number) (window : Nat) :
    (start limit window).Summarizes window [] := by
  have hnone : IsGreatest (idleStretches []) 0 := by
    refine ⟨⟨[], List.nil_infix, nofun, rfl⟩, ?_⟩
    rintro n ⟨stretch, hinfix, -, rfl⟩
    rw [List.infix_nil.mp hinfix]
    exact Nat.le_refl 0
  refine ⟨rfl, by simp [start, List.rtake], by simp [start], rfl, rfl, ⟨?_, ?_⟩, hnone⟩
  · exact ⟨[], List.nil_suffix, nofun, rfl⟩
  · exact fun n hn => hnone.2 (idleEndings_subset _ hn)

/-- What falls out of the window does not come back. -/
theorem rtake_rtake_concat {α : Type} (xs : List α) (x : α) (n : Nat) :
    (xs.rtake n ++ [x]).rtake n = (xs ++ [x]).rtake n := by
  cases n with
  | zero => simp
  | succ n =>
    rw [List.rtake_concat_succ, List.rtake_concat_succ]
    simp only [List.rtake, List.length_drop, List.drop_drop]
    congr 2
    omega

theorem Summarizes.record {m : Monitor} {window : Nat} {outcomes : List (Number × Bool)}
    (h : m.Summarizes window outcomes) (cost : Number) (degenerate : Bool) :
    (m.record cost degenerate).Summarizes window (outcomes ++ [(cost, degenerate)]) := by
  have hhistory : (m.record cost degenerate).history =
      ((outcomes ++ [(cost, degenerate)]).map Prod.fst).rtake window := by
    have hstep : (m.record cost degenerate).history = (m.history ++ [cost]).rtake m.window := by
      cases degenerate <;> rfl
    rw [hstep, h.window_eq, h.history_eq, rtake_rtake_concat, List.map_append]
    rfl
  have hlength : (m.record cost degenerate).history.length =
      min (outcomes ++ [(cost, degenerate)]).length window := by
    rw [length_history_record, h.length_history, h.window_eq, List.length_append]
    simp only [List.length_cons, List.length_nil]
    omega
  cases degenerate with
  | false =>
    refine ⟨h.window_eq, hhistory, hlength, by simp [Monitor.record, h.pivots_eq],
      by simp [Monitor.record, h.degenerate_eq], ⟨?_, ?_⟩, ?_⟩
    · exact mem_idleEndings_false.mpr rfl
    · exact fun n hn => (mem_idleEndings_false.mp hn).le
    · rw [idleStretches_concat]
      refine ⟨Or.inl h.longest.1, ?_⟩
      rintro n (hn | hn)
      · exact h.longest.2 hn
      · rw [mem_idleEndings_false.mp hn]
        exact Nat.zero_le _
  | true =>
    have hstreak : IsGreatest (idleEndings (outcomes ++ [(cost, true)])) (m.streak + 1) := by
      refine ⟨mem_idleEndings_true.mpr (Or.inr ⟨_, h.streak.1, rfl⟩), fun n hn => ?_⟩
      rcases mem_idleEndings_true.mp hn with rfl | ⟨k, hk, rfl⟩
      · exact Nat.zero_le _
      · exact Nat.succ_le_succ (h.streak.2 hk)
    refine ⟨h.window_eq, hhistory, hlength, by simp [Monitor.record, h.pivots_eq],
      by simp [Monitor.record, h.degenerate_eq], hstreak, ?_⟩
    rw [idleStretches_concat]
    exact h.longest.union hstreak

theorem Summarizes.recordAll {m : Monitor} {window : Nat} {before : List (Number × Bool)}
    (h : m.Summarizes window before) (outcomes : List (Number × Bool)) :
    (m.recordAll outcomes).Summarizes window (before ++ outcomes) := by
  induction outcomes generalizing m before with
  | nil => rwa [List.append_nil]
  | cons outcome outcomes ih =>
    rw [List.append_cons]
    exact ih (h.record outcome.1 outcome.2)

theorem create_eq_ok {limit : Number} {window : Int} {m : Monitor}
    (h : create limit window = .ok m) : m = start limit window.toNat := by
  simp only [create] at h
  split at h
  · cases h
  · split at h
    · cases h
    · exact (Except.ok.inj h).symm

end Monitor

namespace Pivot

def totals : Int → List Pivot → List Int
  | _, [] => []
  | cost, p :: ps => (cost + p.costChange) :: totals (cost + p.costChange) ps

def outcomes (cost : Int) (ps : List Pivot) : List (Number × Bool) :=
  List.zipWith (fun total p => (.int total, p.isDegenerate)) (totals cost ps) ps

theorem length_totals (cost : Int) (ps : List Pivot) : (totals cost ps).length = ps.length := by
  induction ps generalizing cost with
  | nil => rfl
  | cons p ps ih => simp [totals, ih]

theorem map_fst_outcomes (cost : Int) (ps : List Pivot) :
    (outcomes cost ps).map Prod.fst = (totals cost ps).map .int := by
  induction ps generalizing cost with
  | nil => rfl
  | cons p ps ih => simpa [outcomes, totals] using ih (cost + p.costChange)

theorem totals_append (cost : Int) (ps qs : List Pivot) : totals cost (ps ++ qs) =
    totals cost ps ++ totals (cost + intSum (ps.map costChange)) qs := by
  induction ps generalizing cost with
  | nil => simp [totals]
  | cons p ps ih => simp [totals, ih, Int.add_assoc]

theorem getLast_totals (cost : Int) (ps : List Pivot) :
    (cost :: totals cost ps).getLast? = some (cost + intSum (ps.map costChange)) := by
  induction ps generalizing cost with
  | nil => simp [totals]
  | cons p ps ih => simpa [totals, Int.add_assoc] using ih (cost + p.costChange)

theorem Descends.costChange_eq_zero_iff {p : Pivot} (h : p.Descends) :
    p.costChange = 0 ↔ p.isDegenerate = true := by
  obtain ⟨hdelta, hchange, hiff⟩ := h
  simp only [isDegenerate, beq_iff_eq]
  omega

theorem sum_costChange_eq_zero_iff {ps : List Pivot} (h : ∀ p ∈ ps, p.Descends) :
    intSum (ps.map costChange) = 0 ↔ ∀ p ∈ ps, p.isDegenerate = true := by
  constructor
  · intro hsum
    have hmoves := moves_le h
    have hnone : moves ps = 0 := by omega
    simpa [moves, List.countP_eq_zero] using hnone
  · intro hidle
    induction ps with
    | nil => rfl
    | cons p ps ih =>
      have hp := (h p List.mem_cons_self).costChange_eq_zero_iff.mpr (hidle p List.mem_cons_self)
      rw [List.map_cons, intSum_cons, hp, Int.zero_add]
      exact ih (fun q hq => h q (List.mem_cons_of_mem p hq))
        fun q hq => hidle q (List.mem_cons_of_mem p hq)

theorem totals_of_idle {ps : List Pivot} (h : ∀ p ∈ ps, p.Descends)
    (hidle : ∀ p ∈ ps, p.isDegenerate = true) (cost : Int) : ∀ total ∈ totals cost ps,
      total = cost := by
  induction ps with
  | nil => exact nofun
  | cons p ps ih =>
    have hp := (h p List.mem_cons_self).costChange_eq_zero_iff.mpr (hidle p List.mem_cons_self)
    rw [totals, hp, Int.add_zero]
    exact List.forall_mem_cons.mpr ⟨rfl, ih (fun q hq => h q (List.mem_cons_of_mem p hq))
      fun q hq => hidle q (List.mem_cons_of_mem p hq)⟩

theorem rtake_totals {ps : List Pivot} {window : Nat} (hps : ps ≠ []) (hwindow : 0 < window)
    (cost : Int) : ∃ first, (totals cost ps).rtake window =
      first :: totals first (ps.rtake (min ps.length window - 1)) := by
  have hlength := List.length_pos_iff.mpr hps
  have hstart : ps.length - window < ps.length := by omega
  have hrest : ps.rtake (min ps.length window - 1) = ps.drop (ps.length - window + 1) := by
    rw [List.rtake]
    congr 1
    omega
  have hsplit : ps = ps.take (ps.length - window) ++
      ps[ps.length - window] :: ps.rtake (min ps.length window - 1) := by
    rw [hrest, List.cons_getElem_drop_succ, List.take_append_drop]
  refine ⟨cost + intSum ((ps.take (ps.length - window)).map costChange) +
    ps[ps.length - window].costChange, ?_⟩
  calc
    (totals cost ps).rtake window = (totals cost (ps.take (ps.length - window) ++
        ps[ps.length - window] :: ps.rtake (min ps.length window - 1))).drop
          (ps.length - window) := by
      rw [← hsplit, List.rtake, length_totals]
    _ = _ := by
      rw [totals_append]
      exact List.drop_left' (by simp [length_totals])

end Pivot

namespace Monitor

/-- What the window of a monitor says of the pivots of a solver. -/
structure Surveys (m : Monitor) (window : Nat) (ps : List Pivot) : Prop where
  history_eq : m.history = ((Pivot.totals 0 ps).rtake window).map .int
  /-- The cost has stalled if the last pivots, one less than there is room for costs, moved no flow,
  which is to say, if the window is full and all costs in it are the same. -/
  stalled_iff : ∃ stalled, m.stalled? = .ok stalled ∧
    (stalled = true ↔ window ≤ ps.length ∧ ∀ p ∈ ps.rtake (window - 1), p.isDegenerate = true) ∧
    (stalled = true ↔ m.history.length = window ∧ ∀ x ∈ m.history, ∀ y ∈ m.history, x = y)
  /-- The improvement is how far the cost fell from the first entry of the window to the last. -/
  improvement_eq : ∃ fall, m.improvement? = some (.int fall) ∧ 0 ≤ fall ∧
    fall = ((Pivot.totals 0 ps).rtake window).headD 0 -
      ((Pivot.totals 0 ps).rtake window).getLastD 0

section Window

variable {m : Monitor} {first last : Int} {rest : List Int}

theorem ends?_of_history (h : m.history = (first :: rest).map .int)
    (hlast : (first :: rest).getLast? = some last) : m.ends? = some (.int first, .int last) := by
  simp only [ends?]
  rw [h, List.getLast?_map, hlast]
  rfl

theorem improvement?_of_history (h : m.history = (first :: rest).map .int)
    (hlast : (first :: rest).getLast? = some last) :
    m.improvement? = some (.int (first - last)) := by
  simp only [improvement?]
  rw [ends?_of_history h hlast, h]
  cases rest with
  | nil =>
    cases hlast
    simp
  | cons cost rest => exact Number.sub?_int first last

theorem isStalled_of_history (h : m.history = (first :: rest).map .int)
    (hlast : (first :: rest).getLast? = some last) :
    m.isStalled = true ↔ m.window ≤ m.history.length ∧ last = first := by
  simp only [isStalled]
  rw [ends?_of_history h hlast]
  simp

end Window

/-- In a window of a solver the first cost is the last one exactly if no pivot after the first one
moved flow, and then all costs are the same. -/
theorem surveys {limit : Number} {window : Nat} {ps : List Pivot} (hwindow : 0 < window)
    (h : ∀ p ∈ ps, p.Descends) :
    ((start limit window).recordAll (Pivot.outcomes 0 ps)).Surveys window ps := by
  have hsummary := (summarizes_start limit window).recordAll (Pivot.outcomes 0 ps)
  rw [List.nil_append] at hsummary
  generalize (start limit window).recordAll (Pivot.outcomes 0 ps) = m at hsummary
  have hlength := hsummary.length_history
  rw [Pivot.outcomes, List.length_zipWith, Pivot.length_totals, Nat.min_self] at hlength
  have hhistory : m.history = ((Pivot.totals 0 ps).rtake window).map .int := by
    rw [hsummary.history_eq, Pivot.map_fst_outcomes, List.rtake, List.rtake, List.length_map,
      List.map_drop]
  have hstalled : m.stalled? = .ok m.isStalled := by
    rw [stalled?, if_neg (by rw [hsummary.window_eq]; omega)]
  by_cases hps : ps = []
  · subst hps
    have hempty : m.history = [] := by simpa [Pivot.totals] using hhistory
    have hrunning : m.isStalled = false := by
      simp [isStalled, ends?, hempty]
    refine ⟨hhistory, ⟨_, hstalled, ?_, ?_⟩, 0, ?_, Int.le_refl 0, by simp [Pivot.totals]⟩
    · simp [hrunning, hwindow.ne']
    · simp [hrunning, hempty, hwindow.ne]
    · simp [improvement?, hempty]
  · obtain ⟨first, hentries⟩ := Pivot.rtake_totals hps hwindow 0
    have hlast := Pivot.getLast_totals first (ps.rtake (min ps.length window - 1))
    have hdescends : ∀ p ∈ ps.rtake (min ps.length window - 1), p.Descends :=
      fun p hp => h p (List.mem_of_mem_drop hp)
    have hfall := Pivot.moves_le hdescends
    have hflat := Pivot.sum_costChange_eq_zero_iff hdescends
    have hsame := fun hidle => Pivot.totals_of_idle hdescends hidle first
    have hentries' := hhistory
    rw [hentries] at hentries'
    have hends := isStalled_of_history hentries' hlast
    rw [hsummary.window_eq, hlength, add_eq_left, hflat] at hends
    generalize hrest : ps.rtake (min ps.length window - 1) = rest at *
    refine ⟨hhistory, ⟨_, hstalled, ?_, ?_⟩, _, improvement?_of_history hentries' hlast, by omega,
      ?_⟩
    · rw [hends, Nat.le_min, and_iff_left (Nat.le_refl _)]
      refine and_congr_right fun hfull => ?_
      rw [← hrest, Nat.min_eq_right hfull]
    · rw [hends, hlength]
      constructor
      · rintro ⟨hfull, hidle⟩
        refine ⟨by omega, ?_⟩
        have hall : ∀ x ∈ m.history, x = .int first := by
          rw [hentries']
          simpa using hsame hidle
        exact fun x hx y hy => (hall x hx).trans (hall y hy).symm
      · rintro ⟨hfull, hall⟩
        refine ⟨by omega, hflat.mp ?_⟩
        have hlast' := List.mem_map_of_mem (f := Number.int) (List.mem_of_getLast? hlast)
        rw [← hentries'] at hlast'
        have hequal := Number.int.inj (hall _ hlast' (.int first) (by simp [hentries']))
        omega
    · rw [hentries, List.getLastD_eq_getLast?, hlast]
      rfl

end Monitor

namespace Solver

variable {start s s' : Solver} {options : Options} {nodeCount : Nat} {arcs : List Arc}

namespace Sound

theorem monitor_pivot (h : s.Sound options nodeCount arcs) {looked after : Solver} {entering : Nat}
    {p : Pivot} {events : List Event} (hfind : s.find = (.ok (some entering), looked))
    (hpivot : looked.pivot entering = ⟨.ok p, after, events⟩) :
    after.monitor = s.monitor.record (.int after.totalCost) p.isDegenerate := by
  obtain ⟨p', made, _, after', events', hpivot', -, hmade, hstate⟩ := h.pivot_ok hfind
  cases hpivot.symm.trans hpivot'
  obtain ⟨rfl, -, -⟩ := find_some hfind
  rcases hstate with rfl | rfl
  · exact hmade.monitor_eq
  · exact hmade.monitor_eq

theorem monitor_trace (h : s.Sound options nodeCount arcs) {ps : List Pivot}
    (htrace : s.Trace ps s') :
    s'.monitor = s.monitor.recordAll (Pivot.outcomes s.totalCost ps) := by
  induction htrace with
  | stop s => rfl
  | look _ ih =>
    rw [ih h.find, find_solver]
    rfl
  | turn hfind hpivot _ ih =>
    have hafter := h.pivot_found hfind
    rw [hpivot] at hafter
    rw [ih hafter, h.monitor_pivot hfind hpivot, (h.pivot_descends hfind hpivot).2]
    rfl

end Sound

/-- The monitor summarizes the history that it is told of. After any outcomes it has the last costs
in order, as many as fit, and knows the number of pivots without flow, the longest stretch of them
and the one at the end. Of a solver, whether its pivots are made one by one or by solves, it is told
the total cost after every pivot, so that a full window whose ends agree is one in which the cost is
the same throughout, as the last pivots moved no flow, and the improvement is how far the cost fell
across the window, which it never does upwards. -/
theorem monitor_of_course :
    (∀ (limit : Number) (window : Int) (m : Monitor), 1 ≤ window →
      Monitor.create limit window = .ok m →
        ∀ outcomes, (m.recordAll outcomes).Summarizes window.toNat outcomes) ∧
    ∀ (count items choices : Value) (options : Options) (start s : Solver) (ps : List Pivot),
      Options.ofValue choices = .ok options → ofValues count items options = .ok start →
      start.Course ps s →
        s.totalCost = intSum (ps.map Pivot.costChange) ∧
        (∃ limit m, Monitor.create limit costWindow = .ok m ∧
          s.monitor = m.recordAll (Pivot.outcomes 0 ps) ∧
          s.monitor.Surveys costWindow ps) ∧
        ∀ (limit : Number) (window : Int) (m : Monitor), 1 ≤ window →
          Monitor.create limit window = .ok m →
            (m.recordAll (Pivot.outcomes 0 ps)).Surveys window.toNat ps := by
  refine ⟨fun limit window m _ hcreate outcomes => ?_,
    fun count items choices options start s ps hoptions hstart hcourse => ?_⟩
  · rw [Monitor.create_eq_ok hcreate]
    exact (Monitor.summarizes_start limit _).recordAll outcomes
  · obtain ⟨_, _, _, _, hfirst⟩ := ofValues_sound hoptions hstart
    obtain ⟨net, -, -, rfl⟩ := ofValues_eq_ok_iff.mp hstart
    have htrace := hfirst.course_trace hcourse
    obtain ⟨-, hdescends, hcost⟩ := hfirst.trace_descends htrace
    have hmonitor := hfirst.monitor_trace htrace
    refine ⟨hcost.trans (Int.zero_add _), ⟨_, _, rfl, hmonitor, ?_⟩,
      fun limit window m hwindow hcreate => ?_⟩
    · rw [hmonitor]
      exact Monitor.surveys (by decide) hdescends
    · rw [Monitor.create_eq_ok hcreate]
      exact Monitor.surveys (by omega) hdescends

set_option maxRecDepth 10000 in
theorem monitor_of_course_blocked : ∃ (m : Monitor) (start s : Solver),
    Monitor.create (.int 3) 2 = .ok m ∧
      IsGreatest (Monitor.idleStretches [(.int 0, true), (.int 0, true), (.int (-44), false)]) 2 ∧
      IsGreatest (Monitor.idleEndings [(.int 0, true), (.int 0, true), (.int (-44), false)]) 0 ∧
      ofValues (.int 3) blocked switching = .ok start ∧
      start.Course [⟨8, 0, 0, 0⟩, ⟨6, 3, 0, 0⟩] s ∧
      s.monitor.Surveys 50 [⟨8, 0, 0, 0⟩, ⟨6, 3, 0, 0⟩] ∧
      (m.recordAll (Pivot.outcomes 0 [⟨8, 0, 0, 0⟩, ⟨6, 3, 0, 0⟩])).stalled? = .ok true := by
  have hoptions : Options.ofValue (.record [("degenerate_streak_limit", .int 1)]) =
      .ok switching := rfl
  obtain ⟨start, looked, turned, events, hstart, hfirst, hfind, hturn⟩ :
      ∃ (start looked turned : Solver) (events : List Event),
        ofValues (.int 3) blocked switching = .ok start ∧
        start.solvePivots (.int 1) (.int 100) = [⟨8, 0, 0, 0⟩] ∧
        (start.solve (.int 1) (.int 100)).solver.find = (.ok (some 6), looked) ∧
        looked.pivot (6 : Nat) = ⟨.ok ⟨6, 3, 0, 0⟩, turned, events⟩ :=
    ⟨_, _, _, _, rfl, rfl, rfl, rfl⟩
  have hcourse := (Course.start.solve (.int 1) (.int 100)).pivot hfind hturn
  rw [hfirst] at hcourse
  have hcreate : Monitor.create (.int 3) 2 = .ok (.start (.int 3) 2) := rfl
  have hsummary := monitor_of_course.1 _ _ _ (by decide) hcreate
    [(.int 0, true), (.int 0, true), (.int (-44), false)]
  obtain ⟨-, ⟨_, _, _, _, hown⟩, hsurveys⟩ :=
    monitor_of_course.2 _ _ _ _ _ _ _ hoptions hstart hcourse
  obtain ⟨stalled, hstalled, hiff, -⟩ := (hsurveys _ _ _ (by decide) hcreate).stalled_iff
  rw [hiff.mpr (by decide)] at hstalled
  exact ⟨_, start, turned, hcreate, hsummary.longest, hsummary.streak, hstart, hcourse, hown,
    hstalled⟩

end Solver

end Circulation
