import Circulation.Proofs.Assignment.Plans

/-!
How many points are split. A share that is only a part of what its point supplies is on the tree of
the solver, so the points that are split join the centers between which they are split without
closing a cycle. Main result: fewer points are split than there are centers.
-/

namespace Circulation

variable {ends : Nat → Nat × Nat} {nodeCount : Nat}

theorem Acyclic.subset {pairs more : Set Nat} (h : Acyclic ends more) (hsub : pairs ⊆ more) :
    Acyclic ends pairs := by
  intro k hk hjoined
  exact h k (hsub hk) (hjoined.mono (Set.sdiff_subset_sdiff_left hsub))

theorem Acyclic.exists_represents (pairs : Finset Nat) (h : Acyclic ends pairs)
    (hends : ∀ k ∈ pairs, (ends k).1 < nodeCount ∧ (ends k).2 < nodeCount) :
    ∃ p : Partition, p.Represents nodeCount ends pairs ∧ p.components + pairs.card = nodeCount := by
  induction pairs using Finset.induction_on with
  | empty =>
    refine ⟨Partition.discrete nodeCount, ?_, by simp [Partition.discrete]⟩
    rw [Finset.coe_empty]
    exact Partition.represents_discrete nodeCount ends
  | insert k pairs hnew ih =>
    rw [Finset.coe_insert] at h ⊢
    have hbefore : Acyclic ends pairs := h.subset (Set.subset_insert k _)
    obtain ⟨p, hp, hcount⟩ := ih hbefore fun l hl => hends l (Finset.mem_insert_of_mem hl)
    obtain ⟨hfirst, hlast⟩ := hends k (Finset.mem_insert_self k pairs)
    obtain ⟨hnext, hflag, hless⟩ := hp.union (k := k) rfl hfirst hlast
    have hrest : (pairs : Set Nat) ⊆ Insert.insert k (pairs : Set Nat) \ {k} := by
      intro l hl
      exact ⟨Set.mem_insert_of_mem k hl, fun hlk => hnew (hlk ▸ hl)⟩
    have hapart : ¬ Joined ends pairs (ends k).1 (ends k).2 := fun hjoined =>
      h k (Set.mem_insert k _) (hjoined.mono hrest)
    refine ⟨_, hnext, ?_⟩
    rw [hless, if_pos (hflag.mpr hapart), Finset.card_insert_of_notMem hnew]
    push_cast
    omega

theorem Acyclic.card_lt {pairs : Finset Nat} (h : Acyclic ends pairs) (hpos : 0 < nodeCount)
    (hends : ∀ k ∈ pairs, (ends k).1 < nodeCount ∧ (ends k).2 < nodeCount) :
    pairs.card < nodeCount := by
  obtain ⟨p, hp, hcount⟩ := Acyclic.exists_represents pairs h hends
  have hroots := Finset.card_pos.mpr ⟨_, hp.root_mem_roots hpos⟩
  rw [hp.components_eq] at hcount
  omega

/-- Pairs stand for two pairs each that meet in between, at a node of their own. They close no cycle
if the pairs that they stand for close none. -/
theorem Acyclic.of_twoStep {ends' : Nat → Nat × Nat} {pairs more : Set Nat} (h : Acyclic ends' more)
    (node middle first second : Nat → Nat) (hmem : ∀ k ∈ pairs, first k ∈ more ∧ second k ∈ more)
    (hfirst : ∀ k ∈ pairs, ends' (first k) = (middle k, node (ends k).1))
    (hsecond : ∀ k ∈ pairs, ends' (second k) = (middle k, node (ends k).2))
    (hown : ∀ k ∈ pairs, ∀ l ∈ pairs, first l = first k → l = k)
    (hother : ∀ k ∈ pairs, ∀ l ∈ pairs, second l ≠ first k) : Acyclic ends pairs := by
  intro k hk hjoined
  have hstep : ∀ l ∈ pairs, l ≠ k →
      Joined ends' (more \ {first k}) (middle l) (node (ends l).1) := by
    intro l hl hlk
    have hpair : Joined ends' (more \ {first k}) (ends' (first l)).1 (ends' (first l)).2 :=
      Joined.of_mem ⟨(hmem l hl).1, fun heq => hlk (hown k hk l hl heq)⟩
    rwa [hfirst l hl] at hpair
  have hstep' : ∀ l ∈ pairs, Joined ends' (more \ {first k}) (middle l) (node (ends l).2) := by
    intro l hl
    have hpair : Joined ends' (more \ {first k}) (ends' (second l)).1 (ends' (second l)).2 :=
      Joined.of_mem ⟨(hmem l hl).2, hother k hk l hl⟩
    rwa [hsecond l hl] at hpair
  -- the other pairs lead from one end to the other, and from there the second part leads back
  have hround : Joined ends' (more \ {first k}) (node (ends k).1) (node (ends k).2) :=
    hjoined.lift (fun a b => Joined ends' (more \ {first k}) (node a) (node b))
      ⟨fun _ => Joined.refl _, Joined.symm, Joined.trans⟩
      fun l hl => (hstep l hl.1 hl.2).symm.trans (hstep' l hl.1)
  refine h (first k) (hmem k hk).1 ?_
  rw [hfirst k hk]
  exact (hstep' k hk).trans hround.symm

namespace Assignment.Problem

variable {p : Problem}

/-- The points of which two centers or more take a part. -/
def splitPoints (p : Problem) (flows : Array Int) : Finset Nat :=
  (Finset.range p.pointCount).filter fun i =>
    2 ≤ ((Finset.range p.centerCount).filter fun j => 0 < p.unitsOf flows i j).card

theorem exists_of_mem_splitPoints {flows : Array Int} {i : Nat} (h : i ∈ p.splitPoints flows) :
    ∃ a b, a < p.centerCount ∧ b < p.centerCount ∧ a ≠ b ∧
      0 < p.unitsOf flows i a ∧ 0 < p.unitsOf flows i b := by
  have htwo := (Finset.mem_filter.mp h).2
  obtain ⟨a, ha, b, hb, hne⟩ := Finset.one_lt_card.mp htwo
  simp only [Finset.mem_filter, Finset.mem_range] at ha hb
  exact ⟨a, b, ha.1, hb.1, hne, ha.2, hb.2⟩

theorem IsAllotment.unitsOf_lt {flows : Array Int}
    (h : p.IsAllotment fun i j => p.unitsOf flows i j) (i : Fin p.pointCount)
    {a b : Fin p.centerCount} (hne : a ≠ b) (hb : 0 < p.unitsOf flows i b) :
    p.unitsOf flows i a < p.supply i := by
  have hsum := Finset.add_le_sum (f := fun j : Fin p.centerCount => p.unitsOf flows i j)
    (fun j _ => h.nonneg i j) (Finset.mem_univ a) (Finset.mem_univ b) hne
  rw [h.row i] at hsum
  omega

theorem assignmentArc_inj {i i' j j' : Nat} (hi : i < p.pointCount) (hi' : i' < p.pointCount)
    (hj : j < p.centerCount) (hj' : j' < p.centerCount)
    (h : p.assignmentArc i j = p.assignmentArc i' j') : i = i' ∧ j = j' := by
  have hplace : Link.equivFin p.pointCount p.centerCount (.share ⟨i, hi⟩ ⟨j, hj⟩) =
      Link.equivFin p.pointCount p.centerCount (.share ⟨i', hi'⟩ ⟨j', hj'⟩) := by
    rw [Fin.ext_iff, p.val_equivFin, p.val_equivFin]
    exact h
  simpa using (Link.equivFin _ _).injective hplace

section Tree

variable {s : Solver} {sol : Solution} {options : Options}

/-- The share of a point at a center is on the tree if another center takes a part, too. -/
theorem WellPosed.assignmentArc_mem_treeSet (h : p.WellPosed)
    (hsound : s.Sound options p.nodeCount p.arcs)
    (hopt : sol.IsOptimum p.arcs (s.network.flowOn p.arcs)) {i a b : Nat} (hi : i < p.pointCount)
    (ha : a < p.centerCount) (hb : b < p.centerCount) (hne : a ≠ b)
    (hflow : 0 < p.unitsOf sol.flows.toArray i a) (hother : 0 < p.unitsOf sol.flows.toArray i b) :
    p.assignmentArc i a ∈ s.network.treeSet ∧
      s.network.ends (p.assignmentArc i a) = (pointNode i, p.centerNode a) := by
  let k := h.place (.share ⟨i, hi⟩ ⟨a, ha⟩)
  have hval : (k : Nat) = p.assignmentArc i a := h.val_place _
  have hget : p.arcs.get k = ⟨pointNode i, p.centerNode a, p.supply i, p.cost i a⟩ := h.get_place _
  have hunits : s.network.flowOn p.arcs k = p.unitsOf sol.flows.toArray i a := by
    rw [hopt.flows_eq]
    exact (h.unitsOf_ofFn _ ⟨i, hi⟩ ⟨a, ha⟩).symm
  have hpart : p.unitsOf sol.flows.toArray i a < p.supply i :=
    (h.isAllotment_unitsOf hopt).1.unitsOf_lt ⟨i, hi⟩ (a := ⟨a, ha⟩) (b := ⟨b, hb⟩)
      (by simpa using hne) hother
  have htree := hsound.isTree_of_flow k (by rwa [hunits]) (by rwa [hunits, hget])
  have htail := hsound.carries.tail_eq k k.isLt
  have hhead := hsound.carries.head_eq k k.isLt
  rw [← List.get_eq_getElem, hget] at htail hhead
  rw [← hval]
  exact ⟨⟨hsound.carries.lt_edgeCount k, htree⟩,
    Prod.ext (Int.ofNat_inj.mp htail) (Int.ofNat_inj.mp hhead)⟩

theorem WellPosed.card_splitPoints_lt (h : p.WellPosed)
    (hsound : s.Sound options p.nodeCount p.arcs)
    (hopt : sol.IsOptimum p.arcs (s.network.flowOn p.arcs)) :
    (p.splitPoints sol.flows.toArray).card < p.centerCount := by
  -- two of the centers between which a point is split
  choose! a b ha hb hne hflowA hflowB using
    fun i (hi : i ∈ p.splitPoints sol.flows.toArray) => exists_of_mem_splitPoints hi
  have hrange : ∀ i ∈ p.splitPoints sol.flows.toArray, i < p.pointCount := fun i hi =>
    Finset.mem_range.mp (Finset.mem_of_mem_filter i hi)
  have hpartA := fun i hi => h.assignmentArc_mem_treeSet hsound hopt (hrange i hi) (ha i hi)
    (hb i hi) (hne i hi) (hflowA i hi) (hflowB i hi)
  have hpartB := fun i hi => h.assignmentArc_mem_treeSet hsound hopt (hrange i hi) (hb i hi)
    (ha i hi) (hne i hi).symm (hflowB i hi) (hflowA i hi)
  have hacyclic : Acyclic (fun i => (a i, b i)) (p.splitPoints sol.flows.toArray) := by
    refine hsound.spanning.acyclic.of_twoStep p.centerNode pointNode
      (fun i => p.assignmentArc i (a i)) (fun i => p.assignmentArc i (b i))
      (fun i hi => ⟨(hpartA i hi).1, (hpartB i hi).1⟩) (fun i hi => (hpartA i hi).2)
      (fun i hi => (hpartB i hi).2) ?_ ?_
    · intro i hi i' hi' heq
      exact (assignmentArc_inj (hrange i' hi') (hrange i hi) (ha i' hi') (ha i hi) heq).1
    · intro i hi i' hi' heq
      obtain ⟨rfl, hcenter⟩ :=
        assignmentArc_inj (hrange i' hi') (hrange i hi) (hb i' hi') (ha i hi) heq
      exact hne i' hi' hcenter.symm
  exact hacyclic.card_lt h.centerCount_pos fun i hi => ⟨ha i hi, hb i hi⟩

end Tree

/-- Few points are split, whether points count as one or by their weights: at most as many as there
are centers but one have their supply divided over two or more of them. -/
theorem card_splitPoints_le {points centers choices maxIterations : Value} {terms : Terms}
    {options : Options} {plan : Plan} (hposed : ofValues points centers terms = .ok p)
    (hoptions : Options.ofValue choices = .ok options)
    (hsolve : (p.solve options maxIterations).result = .ok plan) :
    ∃ sol, plan.solution = some sol ∧
      (p.splitPoints sol.flows.toArray).card ≤ p.centerCount - 1 := by
  obtain ⟨h, -⟩ := ofValues_ok hposed
  obtain ⟨sol, s, hread, hsound, hopt⟩ := h.exists_solver hoptions hsolve
  have hless := h.card_splitPoints_lt hsound hopt
  exact ⟨sol, (planOf_ok hread).1, by omega⟩

set_option maxRecDepth 20000 in
/-- Of the three points one is split between the two centers. -/
theorem card_splitPoints_le_heavy : ∃ p plan sol,
    ofValues heavyPoints heavyCenters heavyTerms = .ok p ∧ p.centerCount = 2 ∧
      (p.solve .standard .null).result = .ok plan ∧ plan.solution = some sol ∧
      p.splitPoints sol.flows.toArray = {2} ∧ (p.splitPoints sol.flows.toArray).card ≤ 2 - 1 := by
  obtain ⟨p, plan, sol, hposed, hcenters, hplan, hsolution, hsplit⟩ : ∃ p plan sol,
      ofValues heavyPoints heavyCenters heavyTerms = .ok p ∧ p.centerCount = 2 ∧
        (p.solve .standard .null).result = .ok plan ∧ plan.solution = some sol ∧
        p.splitPoints sol.flows.toArray = {2} := ⟨_, _, _, rfl, rfl, rfl, rfl, by decide⟩
  have hoptions : Options.ofValue .null = .ok .standard := rfl
  obtain ⟨sol', hsolution', hfew⟩ := card_splitPoints_le hposed hoptions hplan
  cases hsolution.symm.trans hsolution'
  rw [hcenters] at hfew
  exact ⟨p, plan, sol, hposed, hcenters, hplan, hsolution, hsplit, hfew⟩

end Assignment.Problem

end Circulation
