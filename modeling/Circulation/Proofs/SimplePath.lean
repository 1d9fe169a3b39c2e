import Circulation.Proofs.Spanning

/-!
The path between two nodes of a tree. The arcs of a way that is found are those of a path that comes
to no node twice, and there is one such path only, since its arcs can be put in one order. Main
result: from a tree that has been refreshed every way is found, and it consists of the arcs of the
only simple path, each of them once.
-/

namespace Circulation

open Adjacency (Stored)

namespace Network

variable {net : Network} {a b : Nat} {arc x : Int} {arcs path path' : List Int}

theorem Passes.tail_mem (h : net.Passes a arcs b) (hx : x ∈ arcs) :
    net.tail x ∈ a :: arcs.map net.head := by
  induction h with
  | stop a => exact absurd hx List.not_mem_nil
  | @step _ _ arc arcs htail _ ih =>
    cases List.mem_cons.mp hx with
    | inl hx =>
      rw [hx, htail]
      exact List.mem_cons_self
    | inr hx => exact List.mem_cons_of_mem _ (ih hx)

theorem Passes.telescopes (h : net.Passes a arcs b) (value : Nat → Int) :
    intSum (arcs.map fun x => value (net.tail x) - value (net.head x)) = value a - value b := by
  induction h with
  | stop a => simp
  | step htail _ ih =>
    rw [List.map_cons, intSum_cons, ih, htail]
    omega

/-- A walk along the tree that comes to no node twice. -/
structure SimplePath (net : Network) (a : Nat) (arcs : List Int) (b : Nat) : Prop where
  walk : net.TreeWalk a arcs b
  nodup : (a :: arcs.map net.head).Nodup

namespace SimplePath

theorem rest (h : net.SimplePath a (arc :: arcs) b) : net.SimplePath (net.head arc) arcs b :=
  ⟨h.walk.rest, (List.nodup_cons.mp h.nodup).2⟩

theorem apart (h : net.SimplePath a (arc :: arcs) b) (hx : x ∈ arcs) :
    net.tail x ≠ a ∧ net.head x ≠ a := by
  have hout : a ∉ net.head arc :: arcs.map net.head := (List.nodup_cons.mp h.nodup).1
  constructor
  · intro htail
    exact hout (htail ▸ h.rest.walk.passes.tail_mem hx)
  · intro hhead
    exact hout (hhead ▸ List.mem_cons_of_mem _ (List.mem_map_of_mem hx))

theorem nodup_pairs (h : net.SimplePath a arcs b) : (arcs.map pairOf).Nodup := by
  induction arcs generalizing a with
  | nil => exact List.nodup_nil
  | cons arc arcs ih =>
    rw [List.map_cons, List.nodup_cons]
    refine ⟨fun hmem => ?_, ih h.rest⟩
    obtain ⟨x, hx, hpair⟩ := List.mem_map.mp hmem
    have harc := (h.walk.stored arc List.mem_cons_self).1
    have hx' := (h.rest.walk.stored x hx).1
    obtain ⟨htail, hhead⟩ := h.apart hx
    cases eq_or_eq_twin hx' harc hpair with
    | inl heq => exact htail (by rw [heq, h.walk.tail_eq])
    | inr heq => exact hhead (by rw [heq, head_twin, h.walk.tail_eq])

theorem length_lt (h : net.SimplePath a arcs b) (hnet : net.WellFormed) (ha : a < net.nodeCount) :
    arcs.length < net.nodeCount := by
  have hsub : a :: arcs.map net.head ⊆ List.range net.nodeCount := by
    intro v hv
    rw [List.mem_range]
    cases List.mem_cons.mp hv with
    | inl hv => exact hv ▸ ha
    | inr hv =>
      obtain ⟨x, hx, rfl⟩ := List.mem_map.mp hv
      exact hnet.head_lt (h.walk.stored x hx)
  have hle := (h.nodup.subperm hsub).length_le
  rw [List.length_cons, List.length_map, List.length_range] at hle
  omega

theorem isWay (h : net.SimplePath a arcs b) (hnet : net.WellFormed) (ha : a < net.nodeCount) :
    net.IsWay a b arcs :=
  ⟨h.walk.stored, h.walk.isTree, h.nodup_pairs, h.walk.passes.telescopes, h.length_lt hnet ha⟩

theorem eq_of_perm (h : net.SimplePath a path b) (h' : net.SimplePath a path' b)
    (hperm : path.Perm path') : path' = path := by
  induction path generalizing a path' with
  | nil => exact hperm.symm.eq_nil
  | cons arc path ih =>
    cases path' with
    | nil => cases hperm.eq_nil
    | cons arc' path' =>
      have hfirst : arc = arc' := by
        by_contra hne
        have hmem : arc ∈ arc' :: path' := hperm.subset List.mem_cons_self
        have hlater : arc ∈ path' := (List.mem_cons.mp hmem).resolve_left hne
        exact (h'.apart hlater).1 h.walk.tail_eq
      subst hfirst
      rw [ih h.rest h'.rest hperm.cons_inv]

/-- There is one simple path only between two nodes of a tree. -/
theorem unique (h : net.SimplePath a path b) (h' : net.SimplePath a path' b)
    (hnet : net.WellFormed) (hacyclic : Acyclic net.ends net.treeSet) (ha : a < net.nodeCount) :
    path' = path :=
  h.eq_of_perm h' ((h.isWay hnet ha).perm hnet hacyclic (h'.isWay hnet ha))

end SimplePath

theorem IsWay.turned (h : net.IsWay a b arcs) (hnet : net.WellFormed) :
    net.IsWay b a (arcs.map twin) where
  stored y hy := by
    obtain ⟨x, hx, rfl⟩ := List.mem_map.mp hy
    exact (h.stored x hx).twin
  isTree y hy := by
    obtain ⟨x, hx, rfl⟩ := List.mem_map.mp hy
    rw [hnet.isTree_twin x (h.stored x hx), h.isTree x hx]
  nodup := by
    have hpairs : (arcs.map twin).map pairOf = arcs.map pairOf := by simp [Function.comp_def]
    rw [hpairs]
    exact h.nodup
  telescopes value := by
    have hforth := h.telescopes fun v => -value v
    have hback : ∀ x, value (net.tail (twin x)) - value (net.head (twin x)) =
        -value (net.tail x) - -value (net.head x) := by
      intro x
      rw [tail_twin, head_twin]
      omega
    simp only [List.map_map, Function.comp_def, hback]
    omega
  length_lt := by
    rw [List.length_map]
    exact h.length_lt

theorem IsWay.countP_tail_sub (h : net.IsWay a b arcs) (v : Nat) :
    (arcs.countP (net.tail · = v) : Int) - arcs.countP (net.head · = v) =
      (if a = v then 1 else 0) - if b = v then 1 else 0 := by
  have hsum : ∀ xs : List Int,
      intSum (xs.map fun x => (if net.tail x = v then 1 else 0) - if net.head x = v then 1 else 0) =
        xs.countP (net.tail · = v) - xs.countP (net.head · = v) := by
    intro xs
    induction xs with
    | nil => rfl
    | cons x xs ih =>
      rw [List.map_cons, intSum_cons, ih, List.countP_cons, List.countP_cons]
      simp only [decide_eq_true_eq]
      split <;> split <;> omega
  rw [← hsum]
  exact h.telescopes fun u => if u = v then 1 else 0

end Network

namespace Tree

variable {t : Tree} {net : Network} {root a b : Nat} {nodes : List Int}

theorem Ascends.heads_up (h : t.Ascends net a nodes b) :
    (a :: (nodes.map t.upArcOf).map net.head).map (fun v : Nat => (v : Int)) =
      nodes ++ [(b : Int)] := by
  induction h with
  | stay _ => rfl
  | step _ hhangs _ ih =>
    rw [List.map_cons, List.map_cons, hhangs.upArcOf_eq, List.map_cons, hhangs.head_eq, ih,
      List.cons_append]

theorem Ascends.heads_down (h : t.Ascends net a nodes b) :
    ((nodes.map fun x => twin (t.upArcOf x)).map net.head).map (fun v : Nat => (v : Int)) =
      nodes := by
  rw [List.map_map, List.map_map]
  refine (List.map_congr_left fun x hx => ?_).trans (List.map_id nodes)
  obtain ⟨v, _, rfl, _, hhangs⟩ := h.hangs hx
  simp only [Function.comp_apply, Network.head_twin, hhangs.tail_eq, id]

theorem Meets.simplePath {steps : List Step} {top : Nat} {ups downs : List Int}
    (h : t.Meets net a b steps top ups downs) (hnet : net.WellFormed) :
    ∃ path, (steps.map t.stepArc).Perm path ∧ net.SimplePath a path b := by
  have hperm : (steps.map t.stepArc).Perm
      (ups.map t.upArcOf ++ (downs.map fun x => twin (t.upArcOf x)).reverse) :=
    h.perm_arcs.trans ((List.reverse_perm _).symm.append_left _)
  have hway := h.isWay hnet
  refine ⟨_, hperm, ⟨h.left.passes_up.append h.right.passes_down, ?_, ?_⟩, ?_⟩
  · exact fun x hx => hway.stored x (hperm.mem_iff.mpr hx)
  · exact fun x hx => hway.isTree x (hperm.mem_iff.mpr hx)
  · refine List.Nodup.of_map (fun v : Nat => (v : Int)) ?_
    rw [List.map_append, ← List.cons_append, List.map_append, h.left.heads_up, List.map_reverse,
      List.map_reverse, h.right.heads_down, List.append_assoc]
    refine (List.Perm.nodup_iff ?_).mp h.nodup_cons
    refine List.perm_middle.symm.trans ?_
    exact ((List.reverse_perm downs).symm.cons _).append_left _

/-- The steps of the way from `a` to `b` if no climb makes more than so many rounds. -/
def wayWithin (t : Tree) (rounds : Nat) (a b : Int) : List Step × Except Fault Unit :=
  if !t.hasNode b then ([], .error .outOfBounds)
  else
    match t.climb (t.depthOf b) rounds a with
    | (left, .error fault) => (left.map .up, .error fault)
    | (left, .ok a') =>
      match t.climb (t.depthOf a') rounds b with
      | (right, .error fault) => (left.map .up ++ right.map .down, .error fault)
      | (right, .ok b') =>
        let (steps, stop) := t.meet rounds a' b'
        (left.map .up ++ right.map .down ++ steps, stop)

/-- The search for a way is over after at most as many rounds of each climb as there are nodes. -/
theorem Hung.wayWithin_eq (h : t.Hung net root) (ha : a < net.nodeCount) (hb : b < net.nodeCount)
    {rounds : Nat} (hrounds : net.nodeCount ≤ rounds) :
    t.wayWithin rounds a b = t.wayBetween a b := by
  obtain ⟨left, right, rest, _, _, hleft, hright, hmeet, -⟩ := h.exists_climbs ha hb
  obtain ⟨hcap, hsquare⟩ := h.sized.le_rounds
  simp only [wayWithin, wayBetween, hleft _ hrounds, hleft _ hcap, hright _ hrounds, hright _ hcap,
    hmeet _ hrounds, hmeet _ hsquare]

/-- A tree that has been refreshed finds the way between any two nodes. It consists of the arcs of
the only simple path, each of them once, and the way back of their twins. -/
theorem pathArcs_of_refresh {count items : Value} {start : Network}
    (hbuilt : Network.ofValues count items = .ok start) (h : start.Altered net)
    (hsized : t.Sized start.nodeCount) (hin : t.RootIn start.nodeCount)
    (hok : (t.refresh net).1 = .ok ()) (ha : a < start.nodeCount) (hb : b < start.nodeCount) :
    (∀ rounds, start.nodeCount < rounds →
      (t.refresh net).2.wayWithin rounds a b = (t.refresh net).2.wayBetween a b) ∧
    ∃ arcs back path, (t.refresh net).2.pathArcs (.int a) (.int b) = .ok arcs ∧
      (t.refresh net).2.pathArcs (.int b) (.int a) = .ok back ∧
      net.SimplePath a path b ∧ (∀ other, net.SimplePath a other b → other = path) ∧
      arcs.Perm path ∧ arcs.Nodup ∧ arcs.length < start.nodeCount ∧ (a = b → arcs = []) ∧
      (∀ v, (arcs.countP (net.tail · = v) : Int) - arcs.countP (net.head · = v) =
        (if a = v then 1 else 0) - if b = v then 1 else 0) ∧
      back.Perm (arcs.map twin) := by
  obtain ⟨hwell, hcount, -⟩ := h.wellFormed (Network.wellFormed_of_ofValues hbuilt)
  rw [← hcount] at hsized hin ha hb ⊢
  obtain ⟨root, -, hrooted⟩ := refresh_rooted hwell hsized hin hok
  have hacyclic := (hrooted.isSpanningTree hwell).acyclic
  have hhung := hrooted.hung
  obtain ⟨steps, _, _, _, hsteps, hmeets⟩ := hhung.wayBetween_ok ha hb
  obtain ⟨steps', _, _, _, hsteps', hmeets'⟩ := hhung.wayBetween_ok hb ha
  obtain ⟨path, hperm, hsimple⟩ := hmeets.simplePath hwell
  have hway := hmeets.isWay hwell
  have hway' := hmeets'.isWay hwell
  refine ⟨fun rounds hrounds => hhung.wayWithin_eq ha hb hrounds.le, _, _, path,
    pathArcs_of_path (path_eq_ok_iff.mpr hsteps), pathArcs_of_path (path_eq_ok_iff.mpr hsteps'),
    hsimple,
    fun other hother => hsimple.unique hother hwell hacyclic ha, hperm, hway.nodup.of_map,
    hway.length_lt, ?_, hway.countP_tail_sub, hway'.perm hwell hacyclic (hway.turned hwell)⟩
  rintro rfl
  have hempty : net.SimplePath a [] a := ⟨.stop net a, List.nodup_singleton a⟩
  rw [← hsimple.unique hempty hwell hacyclic ha] at hperm
  exact hperm.eq_nil

theorem pathArcs_of_refresh_triangle : ∃ start net : Network, ∃ back path,
    Network.ofValues (.int 3) Solver.triangle = .ok start ∧ start.Altered net ∧
      ((blank 3 (.int 1)).refresh net).2.pathArcs (.int 1) (.int 0) = .ok [4, 2] ∧
      net.SimplePath 1 path 0 ∧ [4, 2].Perm path ∧
      ((blank 3 (.int 1)).refresh net).2.pathArcs (.int 0) (.int 1) = .ok back ∧
      back.Perm [5, 3] := by
  obtain ⟨start, net, hstart, halter, hthree, hok, hfound⟩ := altered_triangle
  have hsized : (blank 3 (.int 1)).Sized start.nodeCount := hthree ▸ sized_blank 3 _
  have hin : (blank 3 (.int 1)).RootIn start.nodeCount := by
    rintro root (hroot | ⟨b, hroot, -⟩)
    · cases hroot
      rw [hthree]
      decide
    · cases hroot
  obtain ⟨-, arcs, back, path, hforth, hback, hsimple, -, hperm, -, -, -, -, hturned⟩ :=
    pathArcs_of_refresh hstart halter hsized hin hok (by rw [hthree]; decide : 1 < start.nodeCount)
      (by rw [hthree]; decide : 0 < start.nodeCount)
  cases hfound.symm.trans hforth
  exact ⟨start, net, back, path, hstart, halter, hfound, hsimple, hperm, hback, hturned⟩

end Tree

end Circulation
