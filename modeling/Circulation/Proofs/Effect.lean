import Circulation.Proofs.Cycling
import Circulation.Proofs.Requests

/-!
What one pivot does, in full. Flow goes once around the cycle that the entering arc closes with the
way through the tree, so each arc of it loses what its twin gains, and the cost changes by the
entering arc's reduced cost a unit, as the arcs of the tree have none. Main result: around every arc
off the tree with capacity left a pivot is made with exactly this effect, and around any other arc
it is refused and changes nothing.
-/

namespace Circulation

open Adjacency (Stored)

namespace Network

/-- Arcs that lead from one node to another, each from where the one before it ends. -/
inductive Passes (net : Network) : Nat → List Int → Nat → Prop where
  | stop (a : Nat) : Passes net a [] a
  | step {a b : Nat} {arc : Int} {arcs : List Int} (htail : net.tail arc = a)
      (hrest : Passes net (net.head arc) arcs b) : Passes net a (arc :: arcs) b

theorem Passes.append {net : Network} {a b c : Nat} {arcs more : List Int}
    (h : net.Passes a arcs b) (h' : net.Passes b more c) : net.Passes a (arcs ++ more) c := by
  induction h with
  | stop a => exact h'
  | step htail _ ih => exact step htail (ih h')

end Network

namespace Tree

variable {t : Tree} {net : Network} {a b : Nat} {nodes : List Int}

theorem Ascends.passes_up (h : t.Ascends net a nodes b) :
    net.Passes a (nodes.map t.upArcOf) b := by
  induction h with
  | stay _ => exact .stop _
  | step _ hhangs _ ih =>
    rw [List.map_cons, hhangs.upArcOf_eq]
    refine .step hhangs.tail_eq ?_
    rwa [hhangs.head_eq]

theorem Ascends.passes_down (h : t.Ascends net a nodes b) :
    net.Passes b (nodes.map fun x => twin (t.upArcOf x)).reverse a := by
  induction h with
  | stay _ => exact .stop _
  | step _ hhangs _ ih =>
    rw [List.map_cons, List.reverse_cons, hhangs.upArcOf_eq]
    refine ih.append (.step ?_ ?_)
    · rw [Network.tail_twin, hhangs.head_eq]
    · rw [Network.head_twin, hhangs.tail_eq]
      exact .stop _

/-- The arcs of a way that is found lead from its first node to its last one, if those on the way
down are taken from the top. -/
theorem Linked.path_passes (h : t.Linked net) (ha : a < net.nodeCount) (hb : b < net.nodeCount)
    {steps : List Step} (hok : t.path a b = (steps, .ok ())) :
    ∃ arcs, arcs.Perm (steps.map t.stepArc) ∧ net.Passes a arcs b := by
  obtain ⟨top, ups, downs, hmeets⟩ := h.wayBetween_spec ha hb (path_eq_ok_iff.mp hok)
  refine ⟨_, ?_, hmeets.left.passes_up.append hmeets.right.passes_down⟩
  exact ((List.reverse_perm _).append_left _).trans hmeets.perm_arcs.symm

theorem pathArcs_of_path {t : Tree} {a b : Nat} {steps : List Step}
    (h : t.path a b = (steps, .ok ())) :
    t.pathArcs (.int a) (.int b) = .ok (steps.map t.stepArc) := by
  have hway := path_eq_ok_iff.mp h
  simp only [pathArcs, Value.number?, Option.bind_some, Number.integer?, hway]
  rfl

end Tree

namespace Network

variable {net net' : Network} {t : Tree}

theorem find?_bottleneck {net : Network} {entering leaving : Int} {way : List Int}
    (hleaving : net.bottleneck false entering way = leaving) :
    (entering :: way).find? (fun x => net.capacity x == net.capacity leaving) = some leaving := by
  induction way generalizing entering with
  | nil => simp [← hleaving, bottleneck]
  | cons arc way ih =>
    have hleast := (net.bottleneck_spec false entering (arc :: way)).2
    rw [hleaving] at hleast
    have hle := (hleast entering (by simp)).1
    have hle' := (hleast arc (by simp)).1
    rw [bottleneck, List.foldl_cons] at hleaving
    by_cases hless : net.capacity arc < net.capacity entering
    · -- the arc takes the place of the first one, which is wider
      have hnarrower : net.narrower false entering arc = arc := by simp [narrower, hless]
      rw [hnarrower] at hleaving
      have hwider : (net.capacity entering == net.capacity leaving) = false := by
        rw [beq_eq_false_iff_ne]
        omega
      rw [List.find?_cons, hwider]
      exact ih hleaving
    · have hnarrower : net.narrower false entering arc = entering := by simp [narrower, hless]
      rw [hnarrower] at hleaving
      have hrest := ih hleaving
      rw [List.find?_cons] at hrest ⊢
      cases hfirst : net.capacity entering == net.capacity leaving with
      | true => simpa [hfirst] using hrest
      | false =>
        have hwider : (net.capacity arc == net.capacity leaving) = false := by
          rw [beq_eq_false_iff_ne] at hfirst ⊢
          omega
        simpa [hfirst, hwider] using hrest

end Network

namespace Solver

variable {s made after : Solver} {options : Options} {nodeCount : Nat} {arcs : List Arc}

/-- The full effect of a pivot that goes along a way through the tree. -/
structure Effect (s after : Solver) (p : Pivot) (way : List Int) : Prop where
  /-- The way leads from the head of the entering arc back to its tail. It is listed in the order of
  the climb, in which the way down is mixed with the way up. -/
  passes : ∃ path : List Int, path.Perm way ∧
    s.network.Passes (s.network.head p.entering) path (s.network.tail p.entering)
  stored : ∀ x ∈ way, Stored s.network.arcCount x
  isTree : ∀ x ∈ way, s.network.isTree x = true
  /-- The cycle passes no edge twice. -/
  nodup : ((p.entering :: way).map pairOf).Nodup
  leaving_mem : p.leaving ∈ p.entering :: way
  delta_eq : p.delta = s.network.capacity p.leaving
  delta_le : ∀ x ∈ p.entering :: way, p.delta ≤ s.network.capacity x
  costChange_eq : p.costChange = p.delta * s.network.reducedCost s.tree p.entering
  /-- The entering arc leaves if it is as narrow as any, or else the first such arc of the way. -/
  first : s.activeRule = .dantzig →
    (p.entering :: way).find? (fun x => s.network.capacity x == p.delta) = some p.leaving
  least : s.activeRule = .bland → ∀ x ∈ p.entering :: way, s.network.capacity x = p.delta →
    pairOf p.leaving ≤ pairOf x
  capacity_eq : ∀ y, 0 ≤ y → after.network.capacity y =
    if y ∈ p.entering :: way then s.network.capacity y - p.delta
    else if twin y ∈ p.entering :: way then s.network.capacity y + p.delta
    else s.network.capacity y
  edges_eq : after.network.edges = s.network.edges
  nodeCount_eq : after.network.nodeCount = s.network.nodeCount
  treeSet_eq : after.network.treeSet = if p.leaving = p.entering then s.network.treeSet
    else insert (pairOf p.entering) (s.network.treeSet \ {pairOf p.leaving})
  totalCost_eq : after.totalCost = s.totalCost + p.costChange

theorem pivotAround_pivot {entering : Int} {way : List Int} {p : Pivot} {events : List Event}
    (h : s.pivotAround entering way = (.ok (p, events), made)) :
    p = ⟨entering, s.network.bottleneck s.useBland entering way,
      s.network.capacity (s.network.bottleneck s.useBland entering way),
      s.network.capacity (s.network.bottleneck s.useBland entering way) *
        s.network.cycleCost (way ++ [entering])⟩ := by
  simp only [pivotAround] at h
  generalize (s.network.augment _ _).exchange _ _ = outcome at h
  obtain ⟨result, net⟩ := outcome
  cases result with
  | error fault => cases h
  | ok _ =>
    cases h
    rfl

namespace Sound

theorem useBland_eq (h : s.Sound options nodeCount arcs) :
    s.useBland = decide (s.activeRule = .bland) := by
  simp only [activeRule]
  by_cases huse : s.useBland = true
  · simp [huse]
  · have hother : s.options.rule ≠ .bland := by
      intro hbland
      rw [h.options_eq] at hbland
      exact huse (h.useBland_of_rule hbland)
    simp [huse, hother]

/-- A pivot around the way back in a rooted tree has its full effect. -/
theorem effect (h : s.Sound options nodeCount arcs) {root : Nat}
    (hrooted : s.tree.Rooted s.network root) {p : Pivot} {way : List Int} {events : List Event}
    (hback : s.wayBack p.entering = .ok way)
    (haround : s.pivotAround p.entering way = (.ok (p, events), made))
    (hpivots : s.Pivots made p way) (hnet : after.network = made.network)
    (hcost : after.totalCost = made.totalCost) : s.Effect after p way := by
  have hstep := hpivots.step
  have hp := pivotAround_pivot haround
  have hleaving : s.network.bottleneck s.useBland p.entering way = p.leaving := by
    rw [hp]
  have hchange : p.costChange =
      s.network.capacity p.leaving * s.network.cycleCost (way ++ [p.entering]) := by
    rw [hp]
  have hcycle : ∀ x, x ∈ p.entering :: way ↔ x ∈ way ++ [p.entering] := fun x =>
    (List.perm_append_singleton p.entering way).mem_iff.symm
  obtain ⟨steps, hpath, rfl⟩ := wayBack_steps hback
  have hhead := h.wellFormed.head_lt hstep.stored
  have htail := h.wellFormed.tail_lt _ hstep.stored
  constructor
  case passes => exact hrooted.linked.path_passes hhead htail hpath
  case stored => exact hstep.isWay.stored
  case isTree => exact hstep.isWay.isTree
  case nodup =>
    have hnodup := (hstep.isCycle h.wellFormed).nodup
    rw [List.map_append, List.map_singleton] at hnodup
    exact (List.perm_append_singleton _ _).nodup_iff.mp hnodup
  case leaving_mem => exact (hcycle _).mpr hstep.leaving_mem
  case delta_eq => exact hpivots.delta_eq
  case delta_le =>
    intro x hx
    rw [hpivots.delta_eq]
    exact (hstep.notAfter x ((hcycle x).mp hx)).1
  case costChange_eq =>
    rw [hchange, hpivots.delta_eq,
      hstep.isWay.cycleCost_eq h.wellFormed hrooted hstep.stored hstep.off]
  case first =>
    intro hrule
    rw [h.useBland_eq, hrule] at hleaving
    rw [hpivots.delta_eq]
    exact Network.find?_bottleneck hleaving
  case least =>
    intro hrule x hx heq
    have hbland : s.useBland = true := by rw [h.useBland_eq, hrule]; rfl
    rw [hpivots.delta_eq] at heq
    have hle := (hstep.notAfter x ((hcycle x).mp hx)).2 hbland heq.symm
    simp only [pairOf]
    omega
  case capacity_eq =>
    intro y hy
    rw [hnet, hstep.capacity_eq y hy, hpivots.delta_eq]
    simp only [hcycle]
  case edges_eq => rw [hnet, hstep.edges_eq]
  case nodeCount_eq => rw [hnet, hstep.nodeCount_eq]
  case treeSet_eq => rw [hnet, hstep.treeSet_eq h.wellFormed]
  case totalCost_eq => rw [hcost, hpivots.totalCost_eq, hchange]

theorem pivot_of_look (h : s.Sound options nodeCount arcs) {looked : Solver}
    (hlook : s.refresh = (.ok (), looked)) {entering : Nat}
    (harc : entering < looked.network.arcCount) (hoff : looked.network.isTree entering = false)
    (hroom : 0 < looked.network.capacity entering) :
    ∃ way p after events,
      looked.tree.pathArcs (.int (looked.network.head entering))
          (.int (looked.network.tail entering)) = .ok way ∧
        looked.pivot entering = ⟨.ok p, after, events⟩ ∧ p.entering = entering ∧
        looked.Effect after p way := by
  have hok : s.refresh.1 = .ok () := by rw [hlook]
  obtain ⟨root, -, hrooted⟩ := h.refresh_rooted hok
  have hlooked := h.refresh
  have hnet : s.refresh.2.network = s.network := rfl
  rw [← hnet] at hrooted
  rw [hlook] at hrooted hlooked
  have hstored : Stored looked.network.arcCount entering := ⟨by omega, by omega⟩
  obtain ⟨p, events, made, way, hback, hpivot, hentering, hpivots, hmade⟩ :=
    hlooked.pivotUnchecked_of_rooted hrooted hstored hoff hroom
  obtain ⟨-, -, way', hback', haround⟩ := pivotUnchecked_eq_ok_iff.mp hpivot
  cases hback.symm.trans hback'
  refine ⟨way, p, _, events, ?_, pivot_of_unchecked hmade (h.sees hmade hok) hpivot, hentering, ?_⟩
  · obtain ⟨steps, hpath, rfl⟩ := wayBack_steps hback
    exact Tree.pathArcs_of_path hpath
  · rw [← hentering] at hback haround
    apply hlooked.effect hrooted hback haround hpivots
    · split <;> rfl
    · split <;> rfl

theorem effect_of_find (h : s.Sound options nodeCount arcs) {looked : Solver} {entering : Nat}
    {p : Pivot} {events : List Event} (hfind : s.find = (.ok (some entering), looked))
    (hpivot : looked.pivot entering = ⟨.ok p, after, events⟩) :
    ∃ way, looked.tree.pathArcs (.int (looked.network.head entering))
        (.int (looked.network.tail entering)) = .ok way ∧ p.entering = entering ∧
      looked.Effect after p way := by
  obtain ⟨rfl, hok, hselect⟩ := find_some hfind
  have hlook : s.refresh = (.ok (), s.refresh.2) := Prod.ext hok rfl
  obtain ⟨hlt, heligible⟩ := Rule.isEligible_of_select hselect
  simp only [Network.isEligible, Bool.and_eq_true, Bool.not_eq_true', decide_eq_true_eq]
    at heligible
  obtain ⟨way, p', after', events', hway, hpivot', hentering, heffect⟩ :=
    h.pivot_of_look hlook hlt heligible.1.1 heligible.1.2
  cases hpivot.symm.trans hpivot'
  exact ⟨way, hway, hentering, heffect⟩

end Sound

/-- After a look at the tree, in whatever state, a pivot of an arc off the tree with capacity left
is made and has its full effect along the way through the tree that leads from the arc's head to its
tail. A pivot of another arc is refused, and the solver is left as it was. -/
theorem pivot_effect {start looked : Solver} {count items choices : Value}
    (hoptions : Options.ofValue choices = .ok options)
    (hstart : ofValues count items options = .ok start) (hreach : start.Reachable s)
    (hlook : s.refresh = (.ok (), looked)) {entering : Nat}
    (harc : entering < looked.network.arcCount) :
    (looked.network.isTree entering = false → 0 < looked.network.capacity entering →
      ∃ way p after events,
        looked.tree.pathArcs (.int (looked.network.head entering))
            (.int (looked.network.tail entering)) = .ok way ∧
          looked.pivot entering = ⟨.ok p, after, events⟩ ∧ p.entering = entering ∧
          looked.Effect after p way) ∧
      (looked.network.isTree entering = true ∨ looked.network.capacity entering ≤ 0 →
        looked.pivot entering = ⟨.error (.cannotEnter entering), looked, []⟩) := by
  obtain ⟨_, _, _, _, hfirst⟩ := ofValues_sound hoptions hstart
  refine ⟨(hfirst.reachable hreach).pivot_of_look hlook harc, fun hrefused => ?_⟩
  have hguard :
      (looked.network.isTree entering || decide (looked.network.capacity entering ≤ 0)) = true := by
    simpa using hrefused
  simp only [pivot, pivotUnchecked]
  rw [if_pos hguard]

set_option maxRecDepth 10000 in
theorem pivot_effect_triangle : ∃ start s after : Solver, ∃ events,
    ofValues (.int 3) triangle checking = .ok start ∧ start.refresh = (.ok (), s) ∧
      s.network.head (4 : Nat) = 0 ∧ s.network.tail (4 : Nat) = 2 ∧
      s.tree.pathArcs (.int 0) (.int 2) = .ok [0, 2] ∧
      s.pivot (4 : Nat) = ⟨.ok ⟨4, 2, 3, -21⟩, after, events⟩ ∧
      s.Effect after ⟨4, 2, 3, -21⟩ [0, 2] ∧
      s.pivot (0 : Nat) = ⟨.error (.cannotEnter 0), s, []⟩ := by
  obtain ⟨start, s, hstart, hlook, hless, hoff, hroom, hon, hhead, htail, hway, hresult⟩ :
      ∃ start s : Solver, ofValues (.int 3) triangle checking = .ok start ∧
        start.refresh = (.ok (), s) ∧ 4 < s.network.arcCount ∧
        s.network.isTree (4 : Nat) = false ∧ 0 < s.network.capacity (4 : Nat) ∧
        s.network.isTree (0 : Nat) = true ∧ s.network.head (4 : Nat) = 0 ∧
        s.network.tail (4 : Nat) = 2 ∧ s.tree.pathArcs (.int 0) (.int 2) = .ok [0, 2] ∧
        (s.pivot (4 : Nat)).result = .ok ⟨4, 2, 3, -21⟩ :=
    ⟨_, _, rfl, rfl, by decide, rfl, by decide, rfl, rfl, rfl, rfl, rfl⟩
  obtain ⟨way, p, after, events, hway', hpivot, -, heffect⟩ :=
    (pivot_effect ofValue_checking hstart .start hlook hless).1 hoff hroom
  rw [hhead, htail] at hway'
  cases hway.symm.trans hway'
  rw [hpivot] at hresult
  cases hresult
  exact ⟨start, s, after, events, hstart, hlook, hhead, htail, hway, hpivot, heffect,
    (pivot_effect ofValue_checking hstart .start hlook (Nat.zero_lt_of_lt hless)).2 (Or.inl hon)⟩

end Solver

end Circulation
