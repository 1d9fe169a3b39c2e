import Circulation.Assignment.Relaxation
import Circulation.Proofs.Assignment.Posing
import Circulation.Proofs.Floating.Least

/-!
The rounds of a relaxation. Each round is solved with the centers that the round before it leads to,
and no round follows one that reaches the tolerance. Main result: the round that is returned is the
first one with the least spread, it comes with the centers that it was solved with, and it is the
last one if a round reaches the tolerance.
-/

namespace Circulation

open Floating (value rank)

namespace Spread

theorem within_eq_ok_iff {α : Type} {result : Option α} {x : α} :
    within result = .ok x ↔ result = some x := by
  cases result <;> simp [within]

theorem isFinite_of_ofInt? {n : Int} {x : Float} (h : Decimal.ofInt? n = some x) :
    x.isFinite = true := by
  unfold Decimal.ofInt? at h
  simp only at h
  split at h
  · cases h
    assumption
  · cases h

theorem isFinite_half_mul {x : Float} (hx : x.isFinite = true) : (0.5 * x).isFinite = true := by
  have hhalf := Floating.approximates_mul (x := 0.5) rfl hx
  rw [Floating.value_half] at hhalf
  rcases le_total 0 (value x) with hvalue | hvalue
  · refine hhalf.isFinite (y := 0.0) rfl hx ?_ (by linarith)
    rw [Floating.value_zero]
    linarith
  · refine hhalf.isFinite (z := 0.0) hx rfl (by linarith) ?_
    rw [Floating.value_zero]
    linarith

theorem isNaN_between {high low : Int} {x : Float}
    (h : between (.int high) (.int low) = .ok x) : x.isNaN = false := by
  unfold between at h
  obtain ⟨sum, hsum, h⟩ := bind_eq_ok_iff.mp h
  rw [within_eq_ok_iff, Number.add?_int] at hsum
  cases hsum
  split at h
  · cases h
    rfl
  obtain ⟨gap, hgap, h⟩ := bind_eq_ok_iff.mp h
  obtain ⟨total, htotal, h⟩ := bind_eq_ok_iff.mp h
  rw [within_eq_ok_iff, Number.sub?_int] at hgap
  rw [within_eq_ok_iff] at htotal
  have hgap' := isFinite_of_ofInt? hgap
  have hmean := isFinite_half_mul (isFinite_of_ofInt? htotal)
  simp only at h
  split at h
  · exact absurd h throw_bind_ne_ok
  next hzero =>
    cases h
    refine Floating.isNaN_div (Floating.approximates_mul rfl hgap').isNaN hmean ?_
    rwa [Floating.beq_iff_value_eq hmean rfl, Floating.value_zero] at hzero

theorem isNaN_ofInts {loads : List Int} {x : Float} (h : ofInts loads = .ok x) :
    x.isNaN = false := by
  cases loads with
  | nil =>
    cases h
    rfl
  | cons n ns => exact isNaN_between h

end Spread

namespace Assignment.Relaxation

/-- A round is what solving with its centers gives. -/
def IsRound (s : Settings) (points : List Site) (p : Problem) (r : Round) : Prop :=
  Problem.ofSites points r.centers s.terms = .ok p ∧
    (p.solve s.options .null).result = .ok r.plan ∧ r.plan.spread = .ok r.spread

/-- A round misses the tolerance, and it leads to the centers of the next one. -/
def Follows (s : Settings) (points : List Site) (r next : Round) : Prop :=
  ¬ r.spread ≤ s.tolerance ∧ ∃ p step moved, IsRound s points p r ∧ stepAfter s p r = .ok step ∧
    p.centroids r.plan = .ok moved ∧
      adjustWeights moved (r.plan.regionLoads.map .int) (r.plan.quotas.map .int) step =
        .ok next.centers

/-- The rounds that start from some centers, at most as many as are left. -/
structure Unfolds (s : Settings) (points centers : List Site) (left : Nat) (rounds : List Round) :
    Prop where
  length_le : rounds.length ≤ left
  head : ∀ r ∈ rounds.head?, r.centers = centers
  isRound : ∀ r ∈ rounds, ∃ p, IsRound s points p r
  follows : rounds.IsChain (Follows s points)
  ends : rounds.length < left → ∃ r ∈ rounds.getLast?, r.spread ≤ s.tolerance

variable {s : Settings} {points centers : List Site}

theorem isRound_of_play {p : Problem} {r : Round} (h : play s points centers = .ok (p, r)) :
    r.centers = centers ∧ IsRound s points p r := by
  unfold play at h
  obtain ⟨p', hp, h⟩ := bind_eq_ok_iff.mp h
  obtain ⟨plan, hplan, h⟩ := bind_eq_ok_iff.mp h
  obtain ⟨spread, hspread, h⟩ := bind_eq_ok_iff.mp h
  cases h
  exact ⟨rfl, hp, hplan, hspread⟩

theorem follows_of_advance {p : Problem} {r next : Round} (hround : IsRound s points p r)
    (hmiss : ¬ r.spread ≤ s.tolerance) (h : advance s p r = .ok next.centers) :
    Follows s points r next := by
  unfold advance at h
  obtain ⟨step, hstep, h⟩ := bind_eq_ok_iff.mp h
  obtain ⟨moved, hmoved, h⟩ := bind_eq_ok_iff.mp h
  exact ⟨hmiss, p, step, moved, hround, hstep, hmoved, h⟩

theorem Unfolds.last {p : Problem} {r : Round} {left : Nat} (hround : IsRound s points p r)
    (hreach : r.spread ≤ s.tolerance) : Unfolds s points r.centers (left + 1) [r] where
  length_le := by simp
  head := by simp
  isRound := by simpa using ⟨p, hround⟩
  follows := .singleton r
  ends := fun _ => ⟨r, rfl, hreach⟩

theorem Unfolds.cons {p : Problem} {r : Round} {next : List Site} {left : Nat}
    {rounds : List Round} (hround : IsRound s points p r) (hmiss : ¬ r.spread ≤ s.tolerance)
    (hnext : advance s p r = .ok next) (h : Unfolds s points next left rounds) :
    Unfolds s points r.centers (left + 1) (r :: rounds) where
  length_le := Nat.succ_le_succ h.length_le
  head := by simp
  isRound := List.forall_mem_cons.mpr ⟨⟨p, hround⟩, h.isRound⟩
  follows := List.isChain_cons.mpr ⟨fun r' hr' => by
    refine follows_of_advance hround hmiss ?_
    rw [h.head r' hr', hnext], h.follows⟩
  ends := fun hlt => by
    obtain ⟨last, hlast, hreach⟩ := h.ends (Nat.lt_of_succ_lt_succ hlt)
    refine ⟨last, ?_, hreach⟩
    rw [List.getLast?_cons, Option.mem_def.mp hlast]
    rfl

theorem unfolds_of_roundsFrom {left : Nat} {rounds : List Round}
    (h : roundsFrom s points left centers = .ok rounds) :
    Unfolds s points centers left rounds := by
  induction left generalizing centers rounds with
  | zero =>
    cases h
    exact ⟨le_rfl, by simp, by simp, .nil, by simp⟩
  | succ left ih =>
    unfold roundsFrom at h
    obtain ⟨⟨p, r⟩, hplay, hrounds⟩ := bind_eq_ok_iff.mp h
    obtain ⟨rfl, hround⟩ := isRound_of_play hplay
    clear h
    simp only at hrounds
    split at hrounds
    next hreach =>
      cases hrounds
      exact .last hround hreach
    next hmiss =>
      obtain ⟨next, hnext, hrounds⟩ := bind_eq_ok_iff.mp hrounds
      obtain ⟨rest, hrest, hrounds⟩ := bind_eq_ok_iff.mp hrounds
      cases hrounds
      exact .cons hround hmiss hnext (ih hrest)

theorem integer?_of_roundCount {count : Nat} (hcheck : s.check = .ok ())
    (hcount : s.roundCount = .ok count) : s.rounds.integer? = some (count : Int) := by
  have hbelow : s.rounds.isBelow 1 = false := by
    unfold Settings.check at hcheck
    split at hcheck
    · cases hcheck
    next hbelow => simpa using hbelow
  unfold Settings.roundCount at hcount
  split at hcount
  next n hn =>
    rw [hn, Number.isBelow_int] at hbelow
    cases hcount
    rw [hn, Number.integer?, Int.toNat_of_nonneg (by grind)]
  next b hb =>
    cases hcount
    rw [hb]
    cases b <;> rfl
  next => cases hcount

theorem eq_of_checked {role : Role} {site site' : Site} (h : Site.checked role site = .ok site') :
    site' = site := by
  unfold Site.checked at h
  split at h <;> cases h
  rfl

theorem listOfValue_sites {role : Role} {sites sites' : List Site}
    (h : sites.mapM (Site.checked role) = .ok sites') :
    Site.listOfValue role (.list (sites.map (.site role))) = .ok sites := by
  change (sites.map (Value.site role)).mapM (Site.ofValue role) = .ok sites
  induction sites generalizing sites' with
  | nil => rfl
  | cons site sites ih =>
    rw [List.mapM_cons] at h
    obtain ⟨site', hsite, hrest⟩ := bind_eq_ok_iff.mp h
    obtain ⟨rest, hsites, _⟩ := bind_eq_ok_iff.mp hrest
    obtain rfl := eq_of_checked hsite
    have hread : Site.ofValue role (.site role site') = .ok site' := (if_pos rfl).trans hsite
    rw [List.map_cons, List.mapM_cons, hread, ih hsites]
    rfl

theorem IsRound.plan_eq {p : Problem} {r : Round} {pointsValue : Value}
    (h : IsRound s points p r) (hpoints : Site.listOfValue .point pointsValue = .ok points) :
    Assignment.plan pointsValue (.list (r.centers.map (.site .center))) s.terms s.options =
      .ok r.plan := by
  obtain ⟨hproblem, hplan, -⟩ := h
  have hcenters : Site.listOfValue .center (.list (r.centers.map (.site .center))) =
      .ok r.centers := by
    unfold Problem.ofSites at hproblem
    obtain ⟨_, _, hrest⟩ := bind_eq_ok_iff.mp hproblem
    obtain ⟨checked, hchecked, _⟩ := bind_eq_ok_iff.mp hrest
    exact listOfValue_sites hchecked
  rw [Assignment.plan, Problem.ofValues, hpoints, hcenters]
  change (Problem.ofSites points r.centers s.terms >>= _) = _
  rw [hproblem]
  exact hplan

theorem IsRound.isNaN_spread {p : Problem} {r : Round} (h : IsRound s points p r) :
    r.spread.isNaN = false :=
  Spread.isNaN_ofInts h.2.2

/-- The first round with the least spread. If a round reaches the tolerance, it is the last one. -/
theorem Unfolds.best_spec {left : Nat} {first : Round} {rest : List Round}
    (htolerance : s.tolerance.isNaN = false)
    (h : Unfolds s points centers left (first :: rest)) : ∃ front back,
      first :: rest = front ++ best first rest :: back ∧
        (∀ r ∈ front, (best first rest).spread < r.spread) ∧
          (∀ r ∈ back, (best first rest).spread ≤ r.spread) ∧
            ((∃ r ∈ (first :: rest).getLast?, r.spread ≤ s.tolerance) →
              back = [] ∧ (best first rest).spread ≤ s.tolerance) := by
  have hdefined : ∀ r ∈ first :: rest, r.spread.isNaN = false := fun r hr =>
    let ⟨p, hround⟩ := h.isRound r hr
    hround.isNaN_spread
  have hbest := hdefined _ (Spread.lowest_mem (fun a b : Round => a.spread < b.spread) first rest)
  obtain ⟨front, back, hsplit, hfront, hback⟩ := Spread.lowest_rank hdefined
  change (best first rest).spread.isNaN = false at hbest
  change first :: rest = front ++ best first rest :: back at hsplit
  change ∀ r ∈ front, rank (best first rest).spread < rank r.spread at hfront
  change ∀ r ∈ back, rank (best first rest).spread ≤ rank r.spread at hback
  refine ⟨front, back, hsplit, fun r hr => ?_, fun r hr => ?_, fun ⟨last, hlast, hreach⟩ => ?_⟩
  · exact (Floating.lt_iff_rank_lt hbest (hdefined r (by rw [hsplit]; simp [hr]))).mpr (hfront r hr)
  · exact (Floating.le_iff_rank_le hbest (hdefined r (by rw [hsplit]; simp [hr]))).mpr (hback r hr)
  · have hfollows := h.follows
    rw [hsplit] at hfollows hlast hdefined
    cases back with
    | nil =>
      rw [List.getLast?_concat] at hlast
      cases hlast
      exact ⟨rfl, hreach⟩
    | cons next back =>
      -- a round that misses the tolerance has a larger spread than one that reaches it
      refine absurd ?_ (List.isChain_append_cons_cons.mp hfollows).2.1.1
      have hmem : last ∈ next :: back := by
        rw [List.getLast?_append_cons, List.getLast?_cons_cons] at hlast
        exact List.mem_of_getLast? hlast
      have hlast' := hdefined last (by simp [hmem])
      have hreach' := (Floating.le_iff_rank_le hlast' htolerance).mp hreach
      exact (Floating.le_iff_rank_le hbest htolerance).mpr ((hback last hmem).trans hreach')

theorem isConverged_iff {rounds : List Round} (hne : rounds ≠ []) :
    isConverged s rounds = true ↔ ∃ r ∈ rounds.getLast?, r.spread ≤ s.tolerance := by
  unfold isConverged
  rw [List.getLast?_eq_getLast_of_ne_nil hne]
  simp

/-- The rounds of a relaxation, from the given centers on, each with the centers that the one before
leads to. Only the last one may reach the tolerance, and there are fewer than allowed only if it
does. The round that is returned is the first one with the least spread, together with the centers
that it was solved with, so solving with these gives its assignment again. If a round reaches the
tolerance, it is the one that is returned. -/
theorem outcome_of_run {points centers : Value} {s : Settings} {o : Outcome}
    (htolerance : s.tolerance.isNaN = false) (h : run points centers s = .ok o) :
    ∃ (count : Int) (ps cs : List Site), s.rounds.integer? = some count ∧
      Site.listOfValue .point points = .ok ps ∧ Site.listOfValue .center centers = .ok cs ∧
      o.rounds ≠ [] ∧ o.rounds.length ≤ count ∧
      (∀ r ∈ o.rounds.head?, r.centers = cs) ∧
      (∀ r ∈ o.rounds, ∃ p, IsRound s ps p r) ∧ o.rounds.IsChain (Follows s ps) ∧
      (o.converged = true ↔ ∃ r ∈ o.rounds.getLast?, r.spread ≤ s.tolerance) ∧
      (o.rounds.length < count → o.converged = true) ∧
      Assignment.plan points (.list (o.best.centers.map (.site .center))) s.terms s.options =
        .ok o.best.plan ∧
      ∃ front back, o.rounds = front ++ o.best :: back ∧
        (∀ r ∈ front, o.best.spread < r.spread) ∧ (∀ r ∈ back, o.best.spread ≤ r.spread) ∧
        (o.converged = true → back = [] ∧ o.best.spread ≤ s.tolerance) := by
  unfold run at h
  obtain ⟨_, hcheck, h⟩ := bind_eq_ok_iff.mp h
  obtain ⟨ps, hps, h⟩ := bind_eq_ok_iff.mp h
  obtain ⟨cs, hcs, h⟩ := bind_eq_ok_iff.mp h
  obtain ⟨count, hcount, h⟩ := bind_eq_ok_iff.mp h
  obtain ⟨rounds, hrounds, h⟩ := bind_eq_ok_iff.mp h
  have hunfolds := unfolds_of_roundsFrom hrounds
  cases rounds with
  | nil => cases h
  | cons first rest =>
    cases h
    have hconverged := isConverged_iff (s := s) (List.cons_ne_nil first rest)
    obtain ⟨front, back, hsplit, hfront, hback, hlast⟩ := hunfolds.best_spec htolerance
    obtain ⟨p, hbest⟩ := hunfolds.isRound (best first rest) (by rw [hsplit]; simp)
    refine ⟨count, ps, cs, integer?_of_roundCount hcheck hcount, hps, hcs, List.cons_ne_nil _ _,
      by exact_mod_cast hunfolds.length_le, hunfolds.head, hunfolds.isRound, hunfolds.follows,
      hconverged, fun hlt => hconverged.mpr (hunfolds.ends (by exact_mod_cast hlt)),
      hbest.plan_eq hps, front, back, hsplit, hfront, hback, fun hreach =>
        hlast (hconverged.mp hreach)⟩

def nearPoints : Value := .list [.list [.int 1, .int 0], .list [.int 2, .int 0]]

def farCenters : Value := .list [.list [.int 0, .int 0], .list [.int 4, .int 0]]

def standardSettings : Settings := ⟨.int 10, 1.0, none, .standard, .standard⟩

set_option maxRecDepth 20000 in
theorem outcome_of_run_near : ∃ o, standardSettings.tolerance.isNaN = false ∧
    run nearPoints farCenters standardSettings = .ok o ∧
      o.rounds.map (fun r => r.plan.regionLoads) = [[2, 0], [1, 1]] ∧ o.converged = true ∧
      Assignment.plan nearPoints (.list (o.best.centers.map (.site .center))) .standard .standard =
        .ok o.best.plan ∧
      ∃ front, o.rounds = front ++ [o.best] ∧ ∀ r ∈ front, o.best.spread < r.spread := by
  obtain ⟨o, hrun, hloads, hconverged⟩ : ∃ o, run nearPoints farCenters standardSettings = .ok o ∧
      o.rounds.map (fun r => r.plan.regionLoads) = [[2, 0], [1, 1]] ∧ o.converged = true :=
    ⟨_, rfl, rfl, rfl⟩
  have htolerance : standardSettings.tolerance.isNaN = false := rfl
  obtain ⟨count, ps, cs, -, -, -, -, -, -, -, -, -, -, hplan, front, back, hsplit, hfront, -,
    hlast⟩ := outcome_of_run htolerance hrun
  obtain ⟨rfl, -⟩ := hlast hconverged
  exact ⟨o, htolerance, hrun, hloads, hconverged, hplan, front, hsplit, hfront⟩

end Assignment.Relaxation

end Circulation
