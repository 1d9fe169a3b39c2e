import Mathlib.Algebra.BigOperators.Group.List.Basic
import Mathlib.Algebra.Ring.Int.Defs
import Mathlib.Data.Finset.Max
import Circulation.Proofs.Rooted
import Circulation.Tree.Path

/-!
Ways through a tree. A climb passes nodes that lie less and less deep, so the two climbs of a way
meet at a node, and no edge is passed twice. Main results: a way that is found runs from its first
node to its last one over different tree edges, and if every node but the root hangs from another
one, whatever the depth of the root, every way is found.
-/

namespace Circulation

open Adjacency (Stored)

theorem intSum_eq_sum (ns : List Int) : intSum ns = ns.sum := rfl

theorem intSum_perm {ms ns : List Int} (h : ms.Perm ns) : intSum ms = intSum ns := by
  rw [intSum_eq_sum, intSum_eq_sum]
  exact h.sum_eq

/-- Tree arcs of different edges that lead from one node to another one. The order of the arcs is
open: what a quantity gains over all of them is its difference between the two nodes. -/
structure Network.IsWay (net : Network) (a b : Nat) (way : List Int) : Prop where
  stored : ∀ x ∈ way, Stored net.arcCount x
  isTree : ∀ x ∈ way, net.isTree x = true
  nodup : (way.map pairOf).Nodup
  telescopes : ∀ value : Nat → Int,
    intSum (way.map fun x => value (net.tail x) - value (net.head x)) = value a - value b
  length_lt : way.length < net.nodeCount

namespace Tree

/-- A climb from a node past the given nodes. -/
inductive Ascends (t : Tree) (net : Network) : Nat → List Int → Nat → Prop where
  | stay {a : Nat} (ha : a < net.nodeCount) : Ascends t net a [] a
  | step {a parent last : Nat} {arc : Int} {nodes : List Int} (ha : a < net.nodeCount)
      (hhangs : t.Hangs net a parent arc) (hrest : Ascends t net parent nodes last) :
      Ascends t net a (a :: nodes) last

namespace Ascends

variable {t : Tree} {net : Network} {a b c : Nat} {nodes more : List Int}

theorem last_lt (h : t.Ascends net a nodes b) : b < net.nodeCount := by
  induction h with
  | stay ha => exact ha
  | step _ _ _ ih => exact ih

theorem append (h : t.Ascends net a nodes b) (h' : t.Ascends net b more c) :
    t.Ascends net a (nodes ++ more) c := by
  induction h with
  | stay _ => exact h'
  | step ha hhangs _ ih => exact step ha hhangs (ih h')

theorem depthOf_eq (h : t.Ascends net a nodes b) : t.depthOf a = t.depthOf b + nodes.length := by
  induction h with
  | stay _ => simp
  | step _ hhangs _ ih =>
    rw [hhangs.depthOf_eq, ih, List.length_cons]
    omega

theorem depth_mem (h : t.Ascends net a nodes b) :
    t.depthOf b ≤ t.depthOf a ∧
      ∀ x ∈ nodes, t.depthOf b < t.depthOf x ∧ t.depthOf x ≤ t.depthOf a := by
  induction h with
  | stay _ => simp
  | step _ hhangs _ ih =>
    have hdepth := hhangs.depthOf_eq
    refine ⟨by omega, fun x hx => ?_⟩
    cases List.mem_cons.mp hx with
    | inl hx =>
      rw [hx]
      omega
    | inr hx =>
      obtain ⟨hlow, hhigh⟩ := ih.2 x hx
      exact ⟨hlow, by omega⟩

theorem nodup (h : t.Ascends net a nodes b) : nodes.Nodup := by
  induction h with
  | stay _ => exact List.nodup_nil
  | step _ hhangs hrest ih =>
    refine List.nodup_cons.mpr ⟨fun hmem => ?_, ih⟩
    have hdepth := hhangs.depthOf_eq
    have hhigh := (hrest.depth_mem.2 _ hmem).2
    omega

theorem hangs (h : t.Ascends net a nodes b) {x : Int} (hx : x ∈ nodes) :
    ∃ v parent : Nat, x = v ∧ v < net.nodeCount ∧ t.Hangs net v parent (t.upArcOf x) := by
  induction h with
  | stay _ => exact absurd hx List.not_mem_nil
  | step ha hhangs _ ih =>
    cases List.mem_cons.mp hx with
    | inl hx =>
      rw [hx, hhangs.upArcOf_eq]
      exact ⟨_, _, rfl, ha, hhangs⟩
    | inr hx => exact ih hx

theorem telescopes (h : t.Ascends net a nodes b) (value : Nat → Int) :
    intSum (nodes.map fun x => value (net.tail (t.upArcOf x)) - value (net.head (t.upArcOf x))) =
      value a - value b := by
  induction h with
  | stay _ => simp
  | step _ hhangs _ ih =>
    rw [List.map_cons, intSum_cons, ih, hhangs.upArcOf_eq, hhangs.tail_eq, hhangs.head_eq]
    omega

theorem telescopes_twin (h : t.Ascends net a nodes b) (value : Nat → Int) :
    intSum (nodes.map fun x => value (net.tail (twin (t.upArcOf x))) -
      value (net.head (twin (t.upArcOf x)))) = value b - value a := by
  induction h with
  | stay _ => simp
  | step _ hhangs _ ih =>
    rw [List.map_cons, intSum_cons, ih, hhangs.upArcOf_eq, Network.tail_twin, Network.head_twin,
      hhangs.tail_eq, hhangs.head_eq]
    omega

end Ascends

/-- The steps of two climbs to one node that share no node below it. -/
structure Meets (t : Tree) (net : Network) (a b : Nat) (steps : List Step) (top : Nat)
    (ups downs : List Int) : Prop where
  perm : steps.Perm (ups.map .up ++ downs.map .down)
  left : t.Ascends net a ups top
  right : t.Ascends net b downs top
  disjoint : ∀ x ∈ ups, x ∉ downs

/-- Two nodes of one depth climb to their parents, and from there on to where these meet. -/
theorem Meets.cons {t : Tree} {net : Network} {a b p q top : Nat} {arc arc' : Int}
    {steps : List Step} {ups downs : List Int} (h : t.Meets net p q steps top ups downs)
    (ha : a < net.nodeCount) (hb : b < net.nodeCount) (hhangs : t.Hangs net a p arc)
    (hhangs' : t.Hangs net b q arc') (hdepth : t.depthOf a = t.depthOf b) (hne : (a : Int) ≠ b) :
    t.Meets net a b (.up a :: .down b :: steps) top (a :: ups) (b :: downs) := by
  refine ⟨(List.Perm.cons _ ((h.perm.cons _).trans List.perm_middle.symm)), .step ha hhangs h.left,
    .step hb hhangs' h.right, fun x hx hx' => ?_⟩
  -- nodes further up are not as deep as the two nodes that have just been left
  have hstep := hhangs.depthOf_eq
  have hstep' := hhangs'.depthOf_eq
  have hhigh := h.left.depth_mem.2
  have hhigh' := h.right.depth_mem.2
  rcases List.mem_cons.mp hx with hx | hx <;> rcases List.mem_cons.mp hx' with hx' | hx'
  · exact hne (hx.symm.trans hx')
  · have hle := (hhigh' x hx').2
    rw [hx] at hle
    omega
  · have hle := (hhigh x hx).2
    rw [hx'] at hle
    omega
  · exact h.disjoint x hx hx'

section Find

variable {t : Tree} {net : Network} {a b : Nat}

theorem Meets.refl (ha : a < net.nodeCount) : t.Meets net a a [] a [] [] :=
  ⟨List.Perm.refl _, .stay ha, .stay ha, by simp⟩

theorem meet_self (fuel : Nat) (x : Int) : t.meet fuel x x = ([], .ok ()) := by
  cases fuel with
  | zero => rfl
  | succ fuel => rw [meet, if_pos rfl]

theorem climb_of_le (hsized : t.Sized net.nodeCount) (ha : a < net.nodeCount) {floor : Int}
    (hle : t.depthOf a ≤ floor) (fuel : Nat) : t.climb floor fuel a = ([], .ok a) := by
  cases fuel with
  | zero => rfl
  | succ fuel => rw [climb, if_pos (by simp [hsized.hasNode ha, hle])]

theorem parentAbove_hangs {arc : Int} {parent : Nat} (hsized : t.Sized net.nodeCount)
    (ha : a < net.nodeCount) (h : t.Hangs net a parent arc) : t.parentAbove a = .ok parent := by
  have hparent : t.parentOf a ≠ -1 := by
    rw [h.parentOf_eq]
    omega
  simp only [parentAbove]
  simp [hsized.hasNode ha, h.parentOf_eq]

theorem Linked.parentAbove_ok (h : t.Linked net) (ha : a < net.nodeCount) {x : Int}
    (hok : t.parentAbove a = .ok x) : ∃ (parent : Nat) (arc : Int), x = parent ∧
      parent < net.nodeCount ∧ t.Hangs net a parent arc := by
  by_cases hparent : t.parentOf a = -1
  · simp only [parentAbove] at hok
    simp [h.sized.hasNode ha, hparent] at hok
  · obtain ⟨parent, arc, hlt, hhangs⟩ := h.hangs a ha hparent
    rw [parentAbove_hangs h.sized ha hhangs] at hok
    cases hok
    exact ⟨parent, arc, rfl, hlt, hhangs⟩

/-- A climb that ends has ended at a node above the first one, not deeper than asked for and not
higher than needed. -/
theorem Linked.climb_spec (h : t.Linked net) {floor : Int} (fuel : Nat) (ha : a < net.nodeCount)
    (hfuel : t.depthOf a < fuel) {nodes : List Int} {x : Int}
    (hok : t.climb floor fuel a = (nodes, .ok x)) : ∃ last : Nat, x = last ∧
      t.Ascends net a nodes last ∧ t.depthOf last ≤ floor ∧
      (floor ≤ t.depthOf a → t.depthOf last = floor) ∧ (t.depthOf a ≤ floor → nodes = []) := by
  induction fuel generalizing a nodes with
  | zero =>
    have hpos := h.depth_nonneg a ha
    omega
  | succ fuel ih =>
    rw [climb] at hok
    by_cases hfloor : t.depthOf a ≤ floor
    · rw [if_pos (by simp [h.sized.hasNode ha, hfloor])] at hok
      cases hok
      exact ⟨a, rfl, .stay ha, hfloor, fun hle => by omega, fun _ => rfl⟩
    · rw [if_neg (by simp [hfloor])] at hok
      cases hparent : t.parentAbove a with
      | error fault => simp [hparent] at hok
      | ok y =>
        obtain ⟨parent, arc, rfl, hlt, hhangs⟩ := h.parentAbove_ok ha hparent
        have hdepth := hhangs.depthOf_eq
        simp only [hparent] at hok
        generalize hclimb : t.climb floor fuel parent = rest at hok
        obtain ⟨passed, stop⟩ := rest
        cases hok
        obtain ⟨last, hx, hrest, hlow, hlevel, _⟩ := ih hlt (by omega) hclimb
        exact ⟨last, hx, .step ha hhangs hrest, hlow, fun _ => hlevel (by omega),
          fun hle => absurd hle hfloor⟩

theorem Linked.meet_spec (h : t.Linked net) (fuel : Nat) (ha : a < net.nodeCount)
    (hb : b < net.nodeCount) (hdepth : t.depthOf a = t.depthOf b) (hfuel : t.depthOf a < fuel)
    {steps : List Step} (hok : t.meet fuel a b = (steps, .ok ())) :
    ∃ top ups downs, t.Meets net a b steps top ups downs := by
  induction fuel generalizing a b steps with
  | zero =>
    have hpos := h.depth_nonneg a ha
    omega
  | succ fuel ih =>
    rw [meet] at hok
    by_cases hsame : (a : Int) = b
    · rw [if_pos hsame] at hok
      cases hok
      rw [← Int.natCast_inj.mp hsame]
      exact ⟨a, [], [], .refl ha⟩
    · rw [if_neg hsame, if_neg (by simp [h.sized.hasNode, ha, hb])] at hok
      cases hleft : t.parentAbove a with
      | error fault => simp [hleft] at hok
      | ok x =>
        cases hright : t.parentAbove b with
        | error fault => simp [hleft, hright] at hok
        | ok y =>
          obtain ⟨p, arc, rfl, hp, hhangs⟩ := h.parentAbove_ok ha hleft
          obtain ⟨q, arc', rfl, hq, hhangs'⟩ := h.parentAbove_ok hb hright
          have hstep := hhangs.depthOf_eq
          have hstep' := hhangs'.depthOf_eq
          simp only [hleft, hright] at hok
          generalize hmeet : t.meet fuel p q = rest at hok
          obtain ⟨more, stop⟩ := rest
          cases hok
          obtain ⟨top, ups, downs, hmeets⟩ := ih hp hq (by omega) (by omega) hmeet
          exact ⟨top, a :: ups, b :: downs, hmeets.cons ha hb hhangs hhangs' hdepth hsame⟩

/-- The deeper of two nodes climbs alone at first, past nodes that lie deeper than all others. -/
theorem Meets.prepend {a' b' top : Nat} {left right ups downs : List Int} {steps : List Step}
    (h : t.Meets net a' b' steps top ups downs) (hleft : t.Ascends net a left a')
    (hright : t.Ascends net b right b') (hlevels : t.depthOf a' = t.depthOf b')
    (halone : left = [] ∨ right = []) :
    t.Meets net a b (left.map .up ++ right.map .down ++ steps) top (left ++ ups)
      (right ++ downs) := by
  refine ⟨?_, hleft.append h.left, hright.append h.right, fun x hx hx' => ?_⟩
  · rw [List.map_append, List.map_append, List.append_assoc, List.append_assoc]
    refine List.Perm.append_left _ ((List.Perm.append_left _ h.perm).trans ?_)
    rw [← List.append_assoc, ← List.append_assoc]
    exact List.perm_append_comm.append_right _
  · have hleftDepth := hleft.depth_mem.2
    have hrightDepth := hright.depth_mem.2
    have hupDepth := h.left.depth_mem.2
    have hdownDepth := h.right.depth_mem.2
    cases List.mem_append.mp hx with
    | inl hx =>
      cases List.mem_append.mp hx' with
      | inl hx' =>
        cases halone with
        | inl hnone =>
          rw [hnone] at hx
          exact absurd hx List.not_mem_nil
        | inr hnone =>
          rw [hnone] at hx'
          exact absurd hx' List.not_mem_nil
      | inr hx' =>
        have hone := (hleftDepth x hx).1
        have htwo := (hdownDepth x hx').2
        omega
    | inr hx =>
      cases List.mem_append.mp hx' with
      | inl hx' =>
        have hone := (hrightDepth x hx').1
        have htwo := (hupDepth x hx).2
        omega
      | inr hx' => exact h.disjoint x hx hx'

theorem Linked.wayBetween_spec (h : t.Linked net) (ha : a < net.nodeCount)
    (hb : b < net.nodeCount) {steps : List Step} (hok : t.wayBetween a b = (steps, .ok ())) :
    ∃ top ups downs, t.Meets net a b steps top ups downs := by
  have hcount : t.nodeCount = net.nodeCount := h.sized.depth
  have hdeep := h.depth_lt a ha
  have hdeep' := h.depth_lt b hb
  simp only [wayBetween] at hok
  rw [if_neg (by simp [h.sized.hasNode hb])] at hok
  generalize hleft : t.climb (t.depthOf b) (t.nodeCount + 1) a = first at hok
  obtain ⟨left, stop⟩ := first
  cases stop with
  | error fault => cases hok
  | ok x =>
    obtain ⟨a', rfl, hclimb, hlow, hlevel, hnil⟩ :=
      h.climb_spec (t.nodeCount + 1) ha (by omega) hleft
    simp only at hok
    generalize hright : t.climb (t.depthOf a') (t.nodeCount + 1) b = second at hok
    obtain ⟨right, stop⟩ := second
    cases stop with
    | error fault => cases hok
    | ok y =>
      obtain ⟨b', rfl, hclimb', _, hlevel', hnil'⟩ :=
        h.climb_spec (t.nodeCount + 1) hb (by omega) hright
      simp only at hok
      generalize hmeet : t.meet ((t.nodeCount + 1) * (t.nodeCount + 1)) a' b' = third at hok
      obtain ⟨steps', stop⟩ := third
      cases hok
      have hlevels : t.depthOf a' = t.depthOf b' := (hlevel' hlow).symm
      have hdeep'' := h.depth_lt a' hclimb.last_lt
      have hfuel : t.depthOf a' < ((t.nodeCount + 1) * (t.nodeCount + 1) : Nat) := by
        have hsquare : t.nodeCount + 1 ≤ (t.nodeCount + 1) * (t.nodeCount + 1) :=
          Nat.le_mul_of_pos_left _ (by omega)
        omega
      obtain ⟨top, ups, downs, hmeets⟩ :=
        h.meet_spec _ hclimb.last_lt hclimb'.last_lt hlevels hfuel hmeet
      refine ⟨top, left ++ ups, right ++ downs, hmeets.prepend hclimb hclimb' hlevels ?_⟩
      by_cases hle : t.depthOf a ≤ t.depthOf b
      · exact Or.inl (hnil hle)
      · have hsame := hlevel (by omega)
        exact Or.inr (hnil' (by omega))

namespace Meets

variable {steps : List Step} {top : Nat} {ups downs : List Int}

theorem perm_arcs (h : t.Meets net a b steps top ups downs) : (steps.map t.stepArc).Perm
    (ups.map t.upArcOf ++ downs.map fun x => twin (t.upArcOf x)) := by
  have hmap := h.perm.map t.stepArc
  rw [List.map_append, List.map_map, List.map_map] at hmap
  exact hmap

theorem hangs (h : t.Meets net a b steps top ups downs) {x : Int} (hx : x ∈ ups ++ downs) :
    ∃ v parent : Nat, x = v ∧ v < net.nodeCount ∧ t.Hangs net v parent (t.upArcOf x) := by
  cases List.mem_append.mp hx with
  | inl hup => exact h.left.hangs hup
  | inr hdown => exact h.right.hangs hdown

theorem mem_arcs (h : t.Meets net a b steps top ups downs) {arc : Int}
    (harc : arc ∈ steps.map t.stepArc) :
    ∃ x ∈ ups ++ downs, arc = t.upArcOf x ∨ arc = twin (t.upArcOf x) := by
  cases List.mem_append.mp (h.perm_arcs.mem_iff.mp harc) with
  | inl hup =>
    obtain ⟨x, hx, rfl⟩ := List.mem_map.mp hup
    exact ⟨x, List.mem_append_left _ hx, Or.inl rfl⟩
  | inr hdown =>
    obtain ⟨x, hx, rfl⟩ := List.mem_map.mp hdown
    exact ⟨x, List.mem_append_right _ hx, Or.inr rfl⟩

theorem nodup (h : t.Meets net a b steps top ups downs) : (ups ++ downs).Nodup :=
  List.nodup_append.mpr ⟨h.left.nodup, h.right.nodup, fun x hx _ hy hxy =>
    h.disjoint x hx (hxy ▸ hy)⟩

theorem nodup_pairs (h : t.Meets net a b steps top ups downs) :
    ((steps.map t.stepArc).map pairOf).Nodup := by
  have hpairs : ((steps.map t.stepArc).map pairOf).Perm
      ((ups ++ downs).map fun x => pairOf (t.upArcOf x)) := by
    have hmap := h.perm_arcs.map pairOf
    rw [List.map_append, List.map_map, List.map_map] at hmap
    rw [List.map_append]
    simpa [Function.comp_def] using hmap
  rw [hpairs.nodup_iff]
  refine List.Nodup.map_on (fun x hx y hy hpair => ?_) h.nodup
  obtain ⟨v, _, hv, _, hhangs⟩ := h.hangs hx
  obtain ⟨v', _, hv', _, hhangs'⟩ := h.hangs hy
  rw [hv, hv', hhangs.eq_of_pairOf_eq hhangs' hpair]

theorem depth_lt (h : t.Meets net a b steps top ups downs) {x : Int} (hx : x ∈ ups ++ downs) :
    t.depthOf top < t.depthOf x := by
  cases List.mem_append.mp hx with
  | inl hup => exact (h.left.depth_mem.2 x hup).1
  | inr hdown => exact (h.right.depth_mem.2 x hdown).1

theorem nodup_cons (h : t.Meets net a b steps top ups downs) :
    ((top : Int) :: (ups ++ downs)).Nodup :=
  List.nodup_cons.mpr ⟨fun hmem => absurd (h.depth_lt hmem) (Int.lt_irrefl _), h.nodup⟩

theorem length_lt (h : t.Meets net a b steps top ups downs) : steps.length < net.nodeCount := by
  have hsub : (top : Int) :: (ups ++ downs) ⊆
      (List.range net.nodeCount).map fun v : Nat => (v : Int) := by
    intro x hx
    rw [List.mem_map]
    cases List.mem_cons.mp hx with
    | inl heq => exact ⟨top, List.mem_range.mpr h.left.last_lt, heq.symm⟩
    | inr hmem =>
      obtain ⟨v, _, rfl, hv, _⟩ := h.hangs hmem
      exact ⟨v, List.mem_range.mpr hv, rfl⟩
  have hle := (h.nodup_cons.subperm hsub).length_le
  have hlength := h.perm.length_eq
  simp only [List.length_map, List.length_append, List.length_cons, List.length_range] at hle
  simp only [List.length_map, List.length_append] at hlength
  omega

theorem isWay (h : t.Meets net a b steps top ups downs) (hnet : net.WellFormed) :
    net.IsWay a b (steps.map t.stepArc) := by
  refine ⟨fun arc harc => ?_, fun arc harc => ?_, h.nodup_pairs, fun value => ?_, ?_⟩
  · obtain ⟨x, hx, heq⟩ := h.mem_arcs harc
    obtain ⟨_, _, _, _, hhangs⟩ := h.hangs hx
    cases heq with
    | inl heq => exact heq ▸ hhangs.stored
    | inr heq => exact heq ▸ hhangs.stored.twin
  · obtain ⟨x, hx, heq⟩ := h.mem_arcs harc
    obtain ⟨_, _, _, _, hhangs⟩ := h.hangs hx
    cases heq with
    | inl heq => rw [heq, hhangs.isTree]
    | inr heq => rw [heq, hnet.isTree_twin _ hhangs.stored, hhangs.isTree]
  · rw [intSum_perm (h.perm_arcs.map _), List.map_append, intSum_append, List.map_map, List.map_map]
    have hup := h.left.telescopes value
    have hdown := h.right.telescopes_twin value
    simp only [Function.comp_def]
    rw [hup, hdown]
    omega
  · rw [List.length_map]
    exact h.length_lt

end Meets

theorem path_eq_ok_iff {t : Tree} {a b : Int} {steps : List Step} :
    t.path a b = (steps, .ok ()) ↔ t.wayBetween a b = (steps, .ok ()) := by
  simp only [path]
  generalize t.wayBetween a b = outcome
  obtain ⟨found, stop⟩ := outcome
  cases stop with
  | error fault => simp [Except.mapError]
  | ok _ => simp [Except.mapError]

theorem Linked.path_isWay (h : t.Linked net) (hnet : net.WellFormed) (ha : a < net.nodeCount)
    (hb : b < net.nodeCount) {steps : List Step} (hok : t.path a b = (steps, .ok ())) :
    net.IsWay a b (steps.map t.stepArc) := by
  obtain ⟨top, ups, downs, hmeets⟩ := h.wayBetween_spec ha hb (path_eq_ok_iff.mp hok)
  exact hmeets.isWay hnet

end Find

namespace Ascends

variable {t : Tree} {net : Network} {a b top : Nat} {nodes : List Int}

theorem length_lt (h : t.Ascends net a nodes b) : nodes.length < net.nodeCount := by
  have hmeets : t.Meets net a b (nodes.map .up) b nodes [] :=
    ⟨by simp, h, .stay h.last_lt, by simp⟩
  simpa using hmeets.length_lt

theorem climb_eq (h : t.Ascends net a nodes b) (hsized : t.Sized net.nodeCount) {fuel : Nat}
    (hfuel : nodes.length < fuel) : t.climb (t.depthOf b) fuel a = (nodes, .ok b) := by
  induction h generalizing fuel with
  | @stay a ha => exact climb_of_le hsized ha (Int.le_refl _) fuel
  | @step a parent last arc nodes ha hhangs hrest ih =>
    have hdepth := hhangs.depthOf_eq
    have hdeeper := hrest.depth_mem.1
    have hhigh : ¬ t.depthOf a ≤ t.depthOf last := by omega
    cases fuel with
    | zero => simp at hfuel
    | succ fuel =>
      rw [climb, if_neg (by simp [hhigh]), parentAbove_hangs hsized ha hhangs]
      simp [ih (Nat.lt_of_succ_lt_succ hfuel)]

theorem exists_depth (h : t.Ascends net a nodes top) {floor : Int} (hlow : t.depthOf top ≤ floor)
    (hhigh : floor ≤ t.depthOf a) : ∃ left b, t.Ascends net a left b ∧ t.depthOf b = floor := by
  induction h with
  | @stay a ha => exact ⟨[], a, .stay ha, by omega⟩
  | @step a parent last arc nodes ha hhangs _ ih =>
    have hdepth := hhangs.depthOf_eq
    by_cases hfloor : t.depthOf a = floor
    · exact ⟨[], a, .stay ha, hfloor⟩
    · obtain ⟨left, b, hleft, hb⟩ := ih hlow (by omega)
      exact ⟨_, b, .step ha hhangs hleft, hb⟩

theorem meet_ok (h : t.Ascends net a nodes top) (hsized : t.Sized net.nodeCount) {other : List Int}
    (h' : t.Ascends net b other top) (hdepth : t.depthOf a = t.depthOf b) :
    ∃ steps middle ups downs, t.Meets net a b steps middle ups downs ∧
      ∀ fuel, nodes.length < fuel → t.meet fuel a b = (steps, .ok ()) := by
  induction h generalizing b other with
  | @stay a ha =>
    have hlength := h'.depthOf_eq
    cases h' with
    | stay _ => exact ⟨[], a, [], [], .refl ha, fun fuel _ => meet_self fuel a⟩
    | step _ _ _ =>
      rw [List.length_cons] at hlength
      omega
  | @step a parent last arc nodes ha hhangs hrest ih =>
    have hstep := hhangs.depthOf_eq
    cases h' with
    | stay _ =>
      have hdeeper := hrest.depth_mem.1
      omega
    | step hb hhangs' hrest' =>
      have hstep' := hhangs'.depthOf_eq
      by_cases hsame : (a : Int) = b
      · rw [← Int.natCast_inj.mp hsame]
        exact ⟨[], a, [], [], .refl ha, fun fuel _ => meet_self fuel a⟩
      · obtain ⟨steps, middle, ups, downs, hmeets, hmeet⟩ := ih hrest' (by omega)
        refine ⟨_, _, _, _, hmeets.cons ha hb hhangs hhangs' hdepth hsame, fun fuel hfuel => ?_⟩
        cases fuel with
        | zero => simp at hfuel
        | succ fuel =>
          rw [meet, if_neg hsame, if_neg (by simp [hsized.hasNode, ha, hb]),
            parentAbove_hangs hsized ha hhangs, parentAbove_hangs hsized hb hhangs']
          simp [hmeet fuel (Nat.lt_of_succ_lt_succ hfuel)]

end Ascends

theorem Sized.le_rounds {t : Tree} {nodeCount : Nat} (h : t.Sized nodeCount) :
    nodeCount ≤ t.nodeCount + 1 ∧ nodeCount ≤ (t.nodeCount + 1) * (t.nodeCount + 1) := by
  have hcount : t.nodeCount = nodeCount := h.depth
  have hless : nodeCount ≤ t.nodeCount + 1 := by omega
  exact ⟨hless, hless.trans (Nat.le_mul_of_pos_left _ (by omega))⟩

theorem exists_top (t : Tree) {net : Network} (hpos : 0 < net.nodeCount) :
    ∃ top < net.nodeCount, (∀ v < net.nodeCount, t.depthOf top ≤ t.depthOf v) ∧
      ∀ parent < net.nodeCount, ∀ arc, ¬ t.Hangs net top parent arc := by
  obtain ⟨top, htop, hleast⟩ := (Finset.range net.nodeCount).exists_min_image
    (fun v : Nat => t.depthOf v) ⟨0, Finset.mem_range.mpr hpos⟩
  simp only [Finset.mem_range] at htop hleast
  refine ⟨top, htop, hleast, fun parent hparent arc hhangs => ?_⟩
  have hdepth := hhangs.depthOf_eq
  have hle := hleast parent hparent
  omega

/-- Every node but the root hangs from another one. What is known of the root itself is open, its
depth included. -/
structure Hung (t : Tree) (net : Network) (root : Nat) : Prop where
  sized : t.Sized net.nodeCount
  root_lt : root < net.nodeCount
  hangs : ∀ node < net.nodeCount, node ≠ root →
    ∃ parent arc, parent < net.nodeCount ∧ t.Hangs net node parent arc

namespace Hung

variable {t : Tree} {net : Network} {root a b : Nat} (h : t.Hung net root)
include h

theorem depthOf_root_le (ha : a < net.nodeCount) : t.depthOf root ≤ t.depthOf a := by
  obtain ⟨top, htop, hleast, hnone⟩ := t.exists_top (Nat.zero_lt_of_lt ha)
  have hroot : top = root := by
    by_contra hne
    obtain ⟨parent, arc, hparent, hhangs⟩ := h.hangs top htop hne
    exact hnone parent hparent arc hhangs
  exact hroot ▸ hleast a ha

theorem exists_ascends (ha : a < net.nodeCount) : ∃ nodes, t.Ascends net a nodes root := by
  obtain ⟨n, hn⟩ := Int.eq_ofNat_of_zero_le (Int.sub_nonneg.mpr (h.depthOf_root_le ha))
  induction n generalizing a with
  | zero =>
    by_cases hroot : a = root
    · exact ⟨[], hroot ▸ .stay ha⟩
    · obtain ⟨parent, _, hparent, hhangs⟩ := h.hangs a ha hroot
      have hdepth := hhangs.depthOf_eq
      have hle := h.depthOf_root_le hparent
      omega
  | succ n ih =>
    have hroot : a ≠ root := by
      rintro rfl
      omega
    obtain ⟨parent, _, hparent, hhangs⟩ := h.hangs a ha hroot
    have hdepth := hhangs.depthOf_eq
    obtain ⟨nodes, hnodes⟩ := ih hparent (by omega)
    exact ⟨a :: nodes, .step ha hhangs hnodes⟩

theorem climb_ok (ha : a < net.nodeCount) {floor : Int} (hfloor : t.depthOf root ≤ floor) :
    ∃ nodes last, t.Ascends net a nodes last ∧ t.depthOf last ≤ floor ∧
      (floor ≤ t.depthOf a → t.depthOf last = floor) ∧ (t.depthOf a ≤ floor → nodes = []) ∧
      ∀ fuel, net.nodeCount ≤ fuel → t.climb floor fuel a = (nodes, .ok last) := by
  by_cases hle : t.depthOf a ≤ floor
  · exact ⟨[], a, .stay ha, hle, fun hge => by omega, fun _ => rfl,
      fun fuel _ => climb_of_le h.sized ha hle fuel⟩
  · obtain ⟨nodes, hnodes⟩ := h.exists_ascends ha
    obtain ⟨left, last, hleft, rfl⟩ := hnodes.exists_depth hfloor (by omega)
    exact ⟨left, last, hleft, Int.le_refl _, fun _ => rfl, fun hge => absurd hge hle,
      fun fuel hfuel => hleft.climb_eq h.sized (Nat.lt_of_lt_of_le hleft.length_lt hfuel)⟩

theorem exists_climbs (ha : a < net.nodeCount) (hb : b < net.nodeCount) :
    ∃ left right rest, ∃ a' b' : Nat,
      (∀ fuel, net.nodeCount ≤ fuel → t.climb (t.depthOf b) fuel a = (left, .ok a')) ∧
      (∀ fuel, net.nodeCount ≤ fuel → t.climb (t.depthOf a') fuel b = (right, .ok b')) ∧
      (∀ fuel, net.nodeCount ≤ fuel → t.meet fuel a' b' = (rest, .ok ())) ∧
      ∃ top ups downs,
        t.Meets net a b (left.map .up ++ right.map .down ++ rest) top ups downs := by
  obtain ⟨left, a', hleft, hlow, hlevel, hnil, hclimb⟩ := h.climb_ok ha (h.depthOf_root_le hb)
  obtain ⟨right, b', hright, -, hlevel', hnil', hclimb'⟩ :=
    h.climb_ok hb (h.depthOf_root_le hleft.last_lt)
  have hlevels : t.depthOf a' = t.depthOf b' := (hlevel' hlow).symm
  have halone : left = [] ∨ right = [] := by
    by_cases hle : t.depthOf a ≤ t.depthOf b
    · exact Or.inl (hnil hle)
    · have hsame := hlevel (by omega)
      exact Or.inr (hnil' (by omega))
  obtain ⟨nodes, hnodes⟩ := h.exists_ascends hleft.last_lt
  obtain ⟨other, hother⟩ := h.exists_ascends hright.last_lt
  obtain ⟨rest, top, ups, downs, hmeets, hmeet⟩ := hnodes.meet_ok h.sized hother hlevels
  exact ⟨left, right, rest, a', b', hclimb, hclimb',
    fun fuel hfuel => hmeet fuel (Nat.lt_of_lt_of_le hnodes.length_lt hfuel), top, _, _,
    hmeets.prepend hleft hright hlevels halone⟩

/-- There is a way between any two nodes, which consists of two climbs that meet. -/
theorem wayBetween_ok (ha : a < net.nodeCount) (hb : b < net.nodeCount) :
    ∃ steps top ups downs, t.wayBetween a b = (steps, .ok ()) ∧
      t.Meets net a b steps top ups downs := by
  obtain ⟨hrounds, hsquare⟩ := h.sized.le_rounds
  obtain ⟨left, right, rest, a', b', hleft, hright, hmeet, top, ups, downs, hmeets⟩ :=
    h.exists_climbs ha hb
  refine ⟨_, top, ups, downs, ?_, hmeets⟩
  simp only [wayBetween]
  rw [if_neg (by simp [h.sized.hasNode hb])]
  simp only [hleft _ hrounds, hright _ hrounds, hmeet _ hsquare]

end Hung

namespace Rooted

variable {t : Tree} {net : Network} {root a b : Nat}

theorem hung (h : t.Rooted net root) : t.Hung net root where
  sized := h.linked.sized
  root_lt := h.root_lt
  hangs node hnode hne := by
    obtain ⟨parent, arc, hparent, hhangs, -⟩ := h.hangs node hnode hne
    exact ⟨parent, arc, hparent, hhangs⟩

theorem path_ok (h : t.Rooted net root) (ha : a < net.nodeCount) (hb : b < net.nodeCount) :
    ∃ steps, t.path a b = (steps, .ok ()) := by
  obtain ⟨steps, _, _, _, hway, -⟩ := h.hung.wayBetween_ok ha hb
  exact ⟨steps, path_eq_ok_iff.mpr hway⟩

end Rooted

end Tree

end Circulation
