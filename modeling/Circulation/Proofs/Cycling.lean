import Mathlib.Algebra.Order.BigOperators.Group.List
import Mathlib.Data.Finset.Max
import Mathlib.Data.Fintype.Pigeonhole
import Circulation.Proofs.Exchanging

/-!
Why pivots by the first-index rule do not go round in circles. Take pivots without flow between two
moments with the same tree, and of the edges that come and go the last one. When it leaves, some
arc of its cycle has a negative reduced cost as seen at the moment when it enters. That arc would
have been found before it, unless its edge comes and goes as well and is a later one. Main results:
pivots with flow lower the cost, and there is no endless run of pivots without flow.
-/

namespace Circulation

open Adjacency (Stored)

theorem exists_end (holds : Nat → Prop) {a b : Nat} (hab : a ≤ b) (ha : holds a)
    (hb : ¬ holds b) : ∃ p, a ≤ p ∧ p < b ∧ holds p ∧ ¬ holds (p + 1) := by
  induction b, hab using Nat.le_induction with
  | base => exact absurd ha hb
  | succ b hab ih =>
    by_cases hlast : holds b
    · exact ⟨b, hab, Nat.lt_succ_self b, hlast, hb⟩
    · obtain ⟨p, hap, hpb, hp, hnext⟩ := ih hlast
      exact ⟨p, hap, by omega, hp, hnext⟩

theorem exists_end_within (holds : Nat → Prop) {i j a b : Nat} (hsame : holds i ↔ holds j)
    (hia : i ≤ a) (haj : a ≤ j) (hib : i ≤ b) (hbj : b ≤ j) (ha : holds a) (hb : ¬ holds b) :
    ∃ p, i ≤ p ∧ p < j ∧ holds p ∧ ¬ holds (p + 1) := by
  by_cases hab : a ≤ b
  · obtain ⟨p, hap, hpb, hp⟩ := exists_end holds hab ha hb
    exact ⟨p, by omega, by omega, hp⟩
  · by_cases hj : holds j
    · obtain ⟨p, hip, hpb, hp⟩ := exists_end holds hib (hsame.mpr hj) hb
      exact ⟨p, hip, by omega, hp⟩
    · obtain ⟨p, hap, hpj, hp⟩ := exists_end holds haj ha hj
      exact ⟨p, by omega, hpj, hp⟩

namespace Network

variable {net net' : Network} {t t' : Tree}

theorem reducedCost_congr (h : net'.edges = net.edges) (t : Tree) (arc : Int) :
    net'.reducedCost t arc = net.reducedCost t arc := by
  simp only [reducedCost]
  rw [cost_congr h, tail_congr h, head_congr h]

/-- Around a cycle reduced costs add up to costs, whatever the potentials. -/
theorem IsCycle.sum_reducedCost {cycle : List Int} (h : net.IsCycle cycle) (t : Tree) :
    intSum (cycle.map (net.reducedCost t)) = net.cycleCost cycle := by
  have hsplit : ∀ arcs : List Int, intSum (arcs.map (net.reducedCost t)) = net.cycleCost arcs -
      intSum (arcs.map fun x => t.potentialOf (net.tail x) - t.potentialOf (net.head x)) := by
    intro arcs
    induction arcs with
    | nil => rfl
    | cons x arcs ih =>
      simp only [cycleCost] at ih ⊢
      rw [List.map_cons, List.map_cons, List.map_cons, intSum_cons, intSum_cons, intSum_cons, ih,
        reducedCost]
      omega
  rw [hsplit, h.closes fun v => t.potentialOf v]
  omega

theorem IsWay.cycleCost_eq {way : List Int} {entering : Int} {root : Nat}
    (h : net.IsWay (net.head entering) (net.tail entering) way) (hnet : net.WellFormed)
    (hrooted : t.Rooted net root) (harc : Stored net.arcCount entering)
    (hoff : net.isTree entering = false) :
    net.cycleCost (way ++ [entering]) = net.reducedCost t entering := by
  have hzero : ∀ c ∈ way.map (net.reducedCost t), c = 0 := by
    intro c hc
    obtain ⟨x, hx, rfl⟩ := List.mem_map.mp hc
    exact reducedCost_eq_zero hnet hrooted (h.stored x hx) (h.isTree x hx)
  rw [← (h.isCycle hnet harc hoff).sum_reducedCost t, List.map_append, intSum_append,
    intSum_eq_sum, List.sum_eq_zero hzero, List.map_singleton, intSum_cons, intSum_nil]
  omega

/-- A pivot around an arc that can improve the flow; by the first-index rule it is the first one. -/
structure Round (net net' : Network) (t : Tree) (bland : Bool) (entering leaving : Int)
    (way : List Int) : Prop where
  wellFormed : net.WellFormed
  circulates : net.Circulates
  rooted : ∃ root, t.Rooted net root
  step : net.Step net' bland entering leaving way
  improves : net.reducedCost t entering < 0
  first : bland = true → ∀ x, 0 ≤ x → x < entering → net.isEligible t x = false

namespace Round

variable {bland : Bool} {entering leaving : Int} {way : List Int}

theorem cycleCost_eq (h : net.Round net' t bland entering leaving way) :
    net.cycleCost (way ++ [entering]) = net.reducedCost t entering := by
  obtain ⟨root, hrooted⟩ := h.rooted
  exact h.step.isWay.cycleCost_eq h.wellFormed hrooted h.step.stored h.step.off

theorem gain_cost_le (h : net.Round net' t bland entering leaving way) :
    net'.gain net'.cost ≤ net.gain net.cost ∧
      (net'.gain net'.cost = net.gain net.cost → net.capacity leaving = 0) := by
  have hneg := h.improves
  have hdelta := h.circulates.capacity_nonneg leaving (h.step.leaving_stored h.wellFormed)
  rw [h.step.gain_cost, h.cycleCost_eq]
  have hchange : net.capacity leaving * net.reducedCost t entering ≤ 0 :=
    Int.mul_nonpos_of_nonneg_of_nonpos hdelta (by omega)
  refine ⟨by omega, fun hsame => ?_⟩
  have hproduct : net.capacity leaving * net.reducedCost t entering = 0 := by omega
  cases Int.mul_eq_zero.mp hproduct with
  | inl hzero => exact hzero
  | inr hzero => omega

theorem leaving_ne (h : net.Round net' t bland entering leaving way)
    (hzero : net.capacity leaving = 0) : leaving ≠ entering := by
  intro hsame
  have hroom := h.step.room
  rw [← hsame, hzero] at hroom
  exact absurd hroom (Int.lt_irrefl 0)

theorem capacity_eq (h : net.Round net' t bland entering leaving way)
    (hzero : net.capacity leaving = 0) {y : Int} (hy : 0 ≤ y) :
    net'.capacity y = net.capacity y := by
  rw [h.step.capacity_eq y hy, hzero]
  split
  · omega
  · split <;> omega

theorem mem_treeSet_iff (h : net.Round net' t bland entering leaving way)
    (hzero : net.capacity leaving = 0) (k : Nat) : k ∈ net'.treeSet ↔
      k = pairOf entering ∨ (k ∈ net.treeSet ∧ k ≠ pairOf leaving) := by
  rw [h.step.treeSet_eq h.wellFormed, if_neg (h.leaving_ne hzero)]
  rfl

/-- Whatever the potentials, some arc of the cycle has a negative reduced cost. -/
theorem exists_negative (h : net.Round net' t bland entering leaving way) (other : Tree) :
    ∃ x ∈ way ++ [entering], net.reducedCost other x < 0 := by
  by_contra hnone
  push Not at hnone
  have hsum : 0 ≤ intSum ((way ++ [entering]).map (net.reducedCost other)) := by
    rw [intSum_eq_sum]
    refine List.sum_nonneg fun c hc => ?_
    obtain ⟨x, hx, rfl⟩ := List.mem_map.mp hc
    exact hnone x hx
  rw [(h.step.isCycle h.wellFormed).sum_reducedCost other, h.cycleCost_eq] at hsum
  have hnegative := h.improves
  omega

theorem off_of_negative (h : net.Round net' t bland entering leaving way) {x : Int}
    (hx : Stored net.arcCount x) (hneg : net.reducedCost t x < 0) : net.isTree x = false := by
  obtain ⟨root, hrooted⟩ := h.rooted
  by_contra htree
  rw [reducedCost_eq_zero h.wellFormed hrooted hx (by simpa using htree)] at hneg
  exact absurd hneg (Int.lt_irrefl 0)

/-- The edge that leaves in one pivot cannot be the one that enters in another unless some arc of
the first pivot's cycle is off the other tree and belongs to a later edge. -/
theorem exists_later {other other' : Network} {entering' leaving' : Int} {way' : List Int}
    (h : net.Round net' t true entering leaving way)
    (h' : other.Round other' t' true entering' leaving' way') (hedges : other.edges = net.edges)
    (hcapacity : ∀ y, 0 ≤ y → other.capacity y = net.capacity y)
    (hzero : net.capacity leaving = 0) (hpair : pairOf leaving = pairOf entering') :
    ∃ x ∈ way ++ [entering], pairOf entering' < pairOf x ∧ other.isTree x = false := by
  have hcycle := h.step.isCycle h.wellFormed
  obtain ⟨x, hx, hneg⟩ := h.exists_negative t'
  have hstored := hcycle.stored x hx
  have hstored' : Stored other.arcCount x := by rwa [arcCount_congr hedges]
  have hneg' : other.reducedCost t' x < 0 := by rwa [reducedCost_congr hedges]
  have hoff := h'.off_of_negative hstored' hneg'
  refine ⟨x, hx, ?_, hoff⟩
  rcases Nat.lt_trichotomy (pairOf x) (pairOf entering') with hless | hsame | hgreater
  · -- the arc is narrower than the leaving one, or it would have left itself
    have hroom : 0 < net.capacity x := by
      have hnonneg := h.circulates.capacity_nonneg x hstored
      by_contra hnone
      have hequal : net.capacity leaving = net.capacity x := by omega
      have hearlier := (h.step.notAfter x hx).2 rfl hequal
      have hpos := (h.step.leaving_stored h.wellFormed).1
      have hpos' := hstored.1
      simp only [pairOf] at hless hpair
      omega
    have hbefore : x < entering' := by
      have hpos := h'.step.stored.1
      have hpos' := hstored.1
      simp only [pairOf] at hless
      omega
    have hnot := h'.first rfl x hstored.1 hbefore
    simp [isEligible, hoff, hcapacity x hstored.1, hroom, hneg'] at hnot
  · -- the leaving arc itself has no capacity, and its twin has a positive reduced cost
    have hleaving : x = leaving :=
      List.inj_on_of_nodup_map hcycle.nodup hx h.step.leaving_mem (hsame.trans hpair.symm)
    have hroom := h'.step.room
    rw [hcapacity _ h'.step.stored.1] at hroom
    cases eq_or_eq_twin h'.step.stored.1 hstored.1 hsame.symm with
    | inl heq =>
      rw [heq, hleaving, hzero] at hroom
      exact absurd hroom (Int.lt_irrefl 0)
    | inr heq =>
      have himproves := h'.improves
      rw [heq, reducedCost_twin] at himproves
      omega
  · exact hgreater

end Round

/-- A run without an end of pivots by the first-index rule that move no flow. -/
structure Stalling (nets : Nat → Network) (trees : Nat → Tree) (entering leaving : Nat → Int)
    (ways : Nat → List Int) : Prop where
  round (i : Nat) :
    (nets i).Round (nets (i + 1)) (trees i) true (entering i) (leaving i) (ways i)
  still (i : Nat) : (nets i).capacity (leaving i) = 0

/-- The edge is on the tree for part of the time from one moment to another. -/
def Fickle (nets : Nat → Network) (i j k : Nat) : Prop :=
  ∃ a b, i ≤ a ∧ a ≤ j ∧ i ≤ b ∧ b ≤ j ∧ k ∈ (nets a).treeSet ∧ k ∉ (nets b).treeSet

namespace Stalling

variable {nets : Nat → Network} {trees : Nat → Tree} {entering leaving : Nat → Int}
  {ways : Nat → List Int}

theorem edges_eq (h : Stalling nets trees entering leaving ways) (i j : Nat) :
    (nets i).edges = (nets j).edges := by
  have hfirst : ∀ i, (nets i).edges = (nets 0).edges := by
    intro i
    induction i with
    | zero => rfl
    | succ i ih => rw [(h.round i).step.edges_eq, ih]
  rw [hfirst i, hfirst j]

theorem capacity_eq (h : Stalling nets trees entering leaving ways) (i j : Nat) {y : Int}
    (hy : 0 ≤ y) : (nets i).capacity y = (nets j).capacity y := by
  have hfirst : ∀ i, (nets i).capacity y = (nets 0).capacity y := by
    intro i
    induction i with
    | zero => rfl
    | succ i ih => rw [(h.round i).capacity_eq (h.still i) hy, ih]
  rw [hfirst i, hfirst j]

theorem mem_treeSet_iff (h : Stalling nets trees entering leaving ways) (i k : Nat) :
    k ∈ (nets (i + 1)).treeSet ↔
      k = pairOf (entering i) ∨ (k ∈ (nets i).treeSet ∧ k ≠ pairOf (leaving i)) :=
  (h.round i).mem_treeSet_iff (h.still i) k

theorem entering_notMem (h : Stalling nets trees entering leaving ways) (i : Nat) :
    pairOf (entering i) ∉ (nets i).treeSet := by
  rw [(h.round i).wellFormed.mem_treeSet (h.round i).step.stored, (h.round i).step.off]
  exact Bool.false_ne_true

/-- Some tree comes back, as there are only so many. -/
theorem exists_return (h : Stalling nets trees entering leaving ways) :
    ∃ i j, i < j ∧ ∀ k, k ∈ (nets i).treeSet ↔ k ∈ (nets j).treeSet := by
  obtain ⟨i, j, hne, hflags⟩ := Finite.exists_ne_map_eq_of_infinite fun (i : Nat)
    (k : Fin (nets 0).edgeCount) => (nets i).isTree (2 * (k : Nat))
  have hmem : ∀ k, k ∈ (nets i).treeSet ↔ k ∈ (nets j).treeSet := by
    intro k
    simp only [treeSet]
    rw [edgeCount_congr (h.edges_eq i 0), edgeCount_congr (h.edges_eq j 0)]
    refine and_congr_right fun hk => ?_
    have hflag := congrFun hflags ⟨k, hk⟩
    simp only at hflag
    rw [hflag]
  cases Nat.lt_or_gt_of_ne hne with
  | inl hlt => exact ⟨i, j, hlt, hmem⟩
  | inr hgt => exact ⟨j, i, hgt, fun k => (hmem k).symm⟩

theorem fickle_entering (h : Stalling nets trees entering leaving ways) {i j p : Nat} (hip : i ≤ p)
    (hpj : p < j) : Fickle nets i j (pairOf (entering p)) :=
  ⟨p + 1, p, by omega, hpj, hip, hpj.le, (h.mem_treeSet_iff p _).mpr (Or.inl rfl),
    h.entering_notMem p⟩

/-- If the edge that leaves in one pivot enters in another, then the cycle of the first one has an
arc of a later edge that is fickle as well. -/
theorem exists_later (h : Stalling nets trees entering leaving ways) {i j p q : Nat} (hip : i ≤ p)
    (hpj : p < j) (hiq : i ≤ q) (hqj : q < j) (hpair : pairOf (leaving p) = pairOf (entering q)) :
    ∃ k, pairOf (entering q) < k ∧ Fickle nets i j k := by
  obtain ⟨x, hx, hlater, hoff⟩ := (h.round p).exists_later (h.round q) (h.edges_eq q p)
    (fun y hy => h.capacity_eq q p hy) (h.still p) hpair
  refine ⟨pairOf x, hlater, ?_⟩
  cases List.mem_append.mp hx with
  | inl hway =>
    have hstored := (h.round p).step.isWay.stored x hway
    have hon : pairOf x ∈ (nets p).treeSet :=
      ((h.round p).wellFormed.mem_treeSet hstored).mpr ((h.round p).step.isWay.isTree x hway)
    have hnot : pairOf x ∉ (nets q).treeSet := by
      rw [(h.round q).wellFormed.mem_treeSet (by rwa [arcCount_congr (h.edges_eq q p)]), hoff]
      exact Bool.false_ne_true
    exact ⟨p, q, hip, hpj.le, hiq, hqj.le, hon, hnot⟩
  | inr hentering =>
    rw [List.mem_singleton.mp hentering]
    exact h.fickle_entering hip hpj

theorem exists_last (h : Stalling nets trees entering leaving ways) {i j : Nat} (hij : i < j) :
    ∃ last, Fickle nets i j last ∧ ∀ k, Fickle nets i j k → k ≤ last := by
  classical
  have hbound : ∀ k, Fickle nets i j k → k < (nets 0).edgeCount := by
    rintro k ⟨a, _, _, _, _, _, hk, _⟩
    rw [← edgeCount_congr (h.edges_eq a 0)]
    exact hk.1
  have hmem : ∀ k, Fickle nets i j k → k ∈ (Finset.range (nets 0).edgeCount).filter
      (Fickle nets i j) := fun k hk =>
    Finset.mem_filter.mpr ⟨Finset.mem_range.mpr (hbound k hk), hk⟩
  obtain ⟨last, hlast, hmax⟩ := Finset.exists_max_image
    ((Finset.range (nets 0).edgeCount).filter (Fickle nets i j)) id
    ⟨_, hmem _ (h.fickle_entering (le_refl i) hij)⟩
  exact ⟨last, (Finset.mem_filter.mp hlast).2, fun k hk => hmax k (hmem k hk)⟩

/-- Pivots that move no flow do not go on forever. -/
theorem false (h : Stalling nets trees entering leaving ways) : False := by
  obtain ⟨i, j, hij, hback⟩ := h.exists_return
  obtain ⟨last, ⟨a, b, hia, haj, hib, hbj, hon, hoff⟩, hmax⟩ := h.exists_last hij
  obtain ⟨p, hip, hpj, hpin, hpout⟩ := exists_end_within (fun i => last ∈ (nets i).treeSet)
    (hback last) hia haj hib hbj hon hoff
  obtain ⟨q, hiq, hqj, hqout, hqin⟩ := exists_end_within (fun i => last ∉ (nets i).treeSet)
    (not_congr (hback last)) hib hbj hia haj hoff (not_not.mpr hon)
  have hleaves : last = pairOf (leaving p) := by
    by_contra hne
    exact hpout ((h.mem_treeSet_iff p last).mpr (Or.inr ⟨hpin, hne⟩))
  have henters : last = pairOf (entering q) := by
    rcases (h.mem_treeSet_iff q last).mp (not_not.mp hqin) with heq | ⟨hmem, _⟩
    · exact heq
    · exact False.elim (hqout hmem)
  obtain ⟨k, hlater, hfickle⟩ := h.exists_later hip hpj hiq hqj (hleaves.symm.trans henters)
  have hle := hmax k hfickle
  omega

end Stalling

end Network

end Circulation
