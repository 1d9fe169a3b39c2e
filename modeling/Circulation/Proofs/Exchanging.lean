import Circulation.Proofs.Cutting
import Circulation.Proofs.Pushing

/-!
What one pivot does to a network. The arc that leaves lies on the cycle that the entering arc closes
and is the narrowest one there. Main results: a pivot keeps a circulation one, keeps the tree arcs a
spanning tree, and keeps all edges off the tree at one of their bounds.
-/

namespace Circulation.Network

open Adjacency (Stored)

section Bottleneck

variable {net : Network} {bland : Bool}

/-- An arc is narrower than another one, or as narrow and not to be passed over for it. -/
def NotAfter (net : Network) (bland : Bool) (a b : Int) : Prop :=
  net.capacity a ≤ net.capacity b ∧
    (bland = true → net.capacity a = net.capacity b → a / 2 ≤ b / 2)

theorem NotAfter.refl (a : Int) : net.NotAfter bland a a :=
  ⟨Int.le_refl _, fun _ _ => Int.le_refl _⟩

theorem NotAfter.trans {a b c : Int} (h : net.NotAfter bland a b) (h' : net.NotAfter bland b c) :
    net.NotAfter bland a c := by
  obtain ⟨hle, hfirst⟩ := h
  obtain ⟨hle', hfirst'⟩ := h'
  refine ⟨hle.trans hle', fun hbland heq => ?_⟩
  exact (hfirst hbland (by omega)).trans (hfirst' hbland (by omega))

theorem narrower_spec (net : Network) (bland : Bool) (best arc : Int) :
    (net.narrower bland best arc = best ∨ net.narrower bland best arc = arc) ∧
      net.NotAfter bland (net.narrower bland best arc) best ∧
      net.NotAfter bland (net.narrower bland best arc) arc := by
  simp only [narrower]
  split
  · rename_i h
    simp only [Bool.or_eq_true, Bool.and_eq_true, decide_eq_true_eq, beq_iff_eq] at h
    refine ⟨Or.inr rfl, ?_, NotAfter.refl arc⟩
    simp only [NotAfter]
    omega
  · rename_i h
    simp only [Bool.or_eq_true, Bool.and_eq_true, decide_eq_true_eq, beq_iff_eq, not_or,
      not_and] at h
    refine ⟨Or.inl rfl, NotAfter.refl best, by omega, fun hbland heq => ?_⟩
    have hlate := h.2 ⟨hbland, heq.symm⟩
    omega

theorem bottleneck_spec (net : Network) (bland : Bool) (entering : Int) (way : List Int) :
    net.bottleneck bland entering way ∈ entering :: way ∧
      ∀ x ∈ entering :: way, net.NotAfter bland (net.bottleneck bland entering way) x := by
  simp only [bottleneck]
  induction way generalizing entering with
  | nil => simpa using NotAfter.refl entering
  | cons arc way ih =>
    obtain ⟨hone, hbest, harc⟩ := net.narrower_spec bland entering arc
    obtain ⟨hmem, hall⟩ := ih (net.narrower bland entering arc)
    rw [List.foldl_cons]
    have hfirst := hall _ List.mem_cons_self
    constructor
    · cases List.mem_cons.mp hmem with
      | inl heq =>
        rw [heq]
        cases hone with
        | inl hone => simp [hone]
        | inr hone => simp [hone]
      | inr hmem => exact List.mem_cons_of_mem _ (List.mem_cons_of_mem _ hmem)
    · intro x hx
      cases List.mem_cons.mp hx with
      | inl hx =>
        rw [hx]
        exact hfirst.trans hbest
      | inr hx =>
        cases List.mem_cons.mp hx with
        | inl hx =>
          rw [hx]
          exact hfirst.trans harc
        | inr hx => exact hall x (List.mem_cons_of_mem _ hx)

end Bottleneck

theorem exchange_ok {net : Network} (h : net.WellFormed) {entering leaving : Int}
    (hin : Stored net.arcCount entering) (hout : Stored net.arcCount leaving)
    (hoff : net.isTree entering = false) (hon : leaving ≠ entering → net.isTree leaving = true) :
    ∃ adj, net.exchange entering leaving = (.ok (), { net with adjacency := adj }) ∧
      ({ net with adjacency := adj } : Network).WellFormed ∧
      ∀ y, 0 ≤ y → adj.isTree y =
        if pairOf y = pairOf entering then decide (leaving ≠ entering)
        else if pairOf y = pairOf leaving then false else net.isTree y := by
  simp only [exchange]
  by_cases hsame : leaving = entering
  · rw [if_pos hsame]
    refine ⟨net.adjacency, rfl, h, fun y hy => ?_⟩
    have hplain : net.adjacency.isTree y = net.isTree y := rfl
    rw [hplain]
    by_cases hpair : pairOf y = pairOf entering
    · cases eq_or_eq_twin hy hin.1 hpair with
      | inl heq => simp [heq, hoff, hsame]
      | inr heq => simp [heq, h.isTree_twin entering hin, hoff, hsame]
    · simp [hpair, hsame]
  · rw [if_neg hsame]
    have hopen : net.isTree entering = !true := by simpa using hoff
    obtain ⟨one, hset, hone, hflags, -⟩ := h.setTreeStatus hin hopen
    have hapart : pairOf leaving ≠ pairOf entering := by
      intro hpair
      have hmem := (h.mem_treeSet hout).mpr (hon hsame)
      rw [hpair, h.mem_treeSet hin, hoff] at hmem
      cases hmem
    have hflag : ({ net with adjacency := one } : Network).isTree leaving = !false := by
      have hkept := hflags leaving hout.1
      rw [if_neg hapart, hon hsame] at hkept
      exact hkept
    obtain ⟨two, hset', htwo, hflags', -⟩ := hone.setTreeStatus hout hflag
    refine ⟨two, ?_, htwo, fun y hy => ?_⟩
    · rw [hset]
      exact hset'
    · have hplain : ({ net with adjacency := one } : Network).isTree y = one.isTree y := rfl
      rw [hflags' y hy, hplain, hflags y hy]
      by_cases hpair : pairOf y = pairOf entering
      · simp [hpair, hapart.symm, hsame]
      · simp [hpair]

/-- What a pivot is, as far as the network is concerned. Flow is sent around the cycle that the
entering arc closes with a way through the tree, as much as the leaving arc can take, and the tree
has the entering arc in place of the leaving one. -/
structure Step (net net' : Network) (bland : Bool) (entering leaving : Int) (way : List Int) :
    Prop where
  edges_eq : net'.edges = net.edges
  nodeCount_eq : net'.nodeCount = net.nodeCount
  wellFormed : net'.WellFormed
  stored : Stored net.arcCount entering
  off : net.isTree entering = false
  room : 0 < net.capacity entering
  isWay : net.IsWay (net.head entering) (net.tail entering) way
  leaving_mem : leaving ∈ way ++ [entering]
  notAfter : ∀ x ∈ way ++ [entering], net.NotAfter bland leaving x
  capacity_eq : ∀ y, 0 ≤ y → net'.capacity y =
    if y ∈ way ++ [entering] then net.capacity y - net.capacity leaving
    else if twin y ∈ way ++ [entering] then net.capacity y + net.capacity leaving
    else net.capacity y
  gain_eq : ∀ value : Int → Int, (∀ x, value (twin x) = -value x) → net'.gain value =
    net.gain value + net.capacity leaving * intSum ((way ++ [entering]).map value)
  isTree_eq : ∀ y, 0 ≤ y → net'.isTree y =
    if pairOf y = pairOf entering then decide (leaving ≠ entering)
    else if pairOf y = pairOf leaving then false else net.isTree y

/-- Sending flow around the cycle and changing the tree is such a step. -/
theorem step_of_isWay {net : Network} (h : net.WellFormed) (bland : Bool) {entering : Int}
    {way : List Int} (hstored : Stored net.arcCount entering) (hoff : net.isTree entering = false)
    (hroom : 0 < net.capacity entering)
    (hway : net.IsWay (net.head entering) (net.tail entering) way) :
    ∃ net', (net.augment (net.capacity (net.bottleneck bland entering way))
        (way ++ [entering])).exchange entering (net.bottleneck bland entering way) =
          (.ok (), net') ∧
      net.Step net' bland entering (net.bottleneck bland entering way) way := by
  have hcycle := hway.isCycle h hstored hoff
  obtain ⟨hmem, hall⟩ := net.bottleneck_spec bland entering way
  generalize net.bottleneck bland entering way = leaving at *
  have hperm : ∀ x, x ∈ entering :: way ↔ x ∈ way ++ [entering] := fun x =>
    (List.perm_append_singleton entering way).mem_iff.symm
  have hleaving : Stored net.arcCount leaving := hcycle.stored leaving ((hperm leaving).mp hmem)
  have hedges := net.edges_augment (net.capacity leaving) (way ++ [entering])
  have hon : leaving ≠ entering → net.isTree leaving = true := fun hne =>
    hway.isTree leaving ((List.mem_cons.mp hmem).resolve_left hne)
  have hcapacity := fun y hy =>
    capacity_augment h.size_residual (net.capacity leaving) hcycle.stored hcycle.nodup (y := y) hy
  have hgain := fun (value : Int → Int) (hvalue : ∀ x, value (twin x) = -value x) =>
    gain_augment h.size_residual hcycle.stored (net.capacity leaving) hvalue
  have hflags := net.isTree_augment (net.capacity leaving) (way ++ [entering])
  have hnodes := net.nodeCount_augment (net.capacity leaving) (way ++ [entering])
  have hwell := h.augment (net.capacity leaving) (way ++ [entering])
  have harcs := arcCount_congr hedges
  generalize net.augment (net.capacity leaving) (way ++ [entering]) = moved at *
  rw [← harcs] at hstored hleaving
  rw [← hflags] at hoff
  obtain ⟨adj, hexchange, hwell', htree⟩ := exchange_ok hwell hstored hleaving hoff
    (fun hne => by rw [hflags, hon hne])
  rw [harcs] at hstored
  rw [hflags] at hoff
  refine ⟨_, hexchange, ?_⟩
  exact {
    edges_eq := hedges
    nodeCount_eq := hnodes
    wellFormed := hwell'
    stored := hstored
    off := hoff
    room := hroom
    isWay := hway
    leaving_mem := (hperm leaving).mp hmem
    notAfter := fun x hx => hall x ((hperm x).mpr hx)
    capacity_eq := hcapacity
    gain_eq := hgain
    isTree_eq := fun y hy => by
      rw [← hflags]
      exact htree y hy }

/-- Edges off the tree carry nothing or are full. -/
def AtBounds (net : Network) : Prop :=
  ∀ k : Nat, k < net.edgeCount → net.isTree (2 * k) = false →
    net.capacity (2 * k) = 0 ∨ net.capacity (2 * k + 1) = 0

namespace Step

variable {net net' : Network} {bland : Bool} {entering leaving : Int} {way : List Int}

theorem isCycle (h : net.Step net' bland entering leaving way) (hnet : net.WellFormed) :
    net.IsCycle (way ++ [entering]) :=
  h.isWay.isCycle hnet h.stored h.off

theorem leaving_stored (h : net.Step net' bland entering leaving way) (hnet : net.WellFormed) :
    Stored net.arcCount leaving :=
  (h.isCycle hnet).stored leaving h.leaving_mem

theorem leaving_mem_way (h : net.Step net' bland entering leaving way) (hne : leaving ≠ entering) :
    leaving ∈ way :=
  (List.mem_append.mp h.leaving_mem).resolve_right fun hmem => hne (List.mem_singleton.mp hmem)

theorem capacity_leaving (h : net.Step net' bland entering leaving way) (hnet : net.WellFormed) :
    net'.capacity leaving = 0 := by
  rw [h.capacity_eq leaving (h.leaving_stored hnet).1, if_pos h.leaving_mem]
  omega

theorem capacity_of_notMem (h : net.Step net' bland entering leaving way) {y : Int} (hy : 0 ≤ y)
    (hout : y ∉ way ++ [entering]) (hback : twin y ∉ way ++ [entering]) :
    net'.capacity y = net.capacity y := by
  rw [h.capacity_eq y hy, if_neg hout, if_neg hback]

theorem circulates (h : net.Step net' bland entering leaving way) (hnet : net.WellFormed)
    (hcirculates : net.Circulates) : net'.Circulates := by
  have hcycle := h.isCycle hnet
  have hdelta := hcirculates.capacity_nonneg leaving (h.leaving_stored hnet)
  refine ⟨fun y hy => ?_, fun k hk => ?_, fun value => ?_⟩
  · rw [arcCount_congr h.edges_eq] at hy
    have hnonneg := hcirculates.capacity_nonneg y hy
    rw [h.capacity_eq y hy.1]
    by_cases hmem : y ∈ way ++ [entering]
    · have hle := (h.notAfter y hmem).1
      rw [if_pos hmem]
      omega
    · rw [if_neg hmem]
      split <;> omega
  · rw [edgeCount_congr h.edges_eq] at hk
    have htotal := hcirculates.pair_total k hk
    have hedge : net'.edgeOf (2 * k) = net.edgeOf (2 * k) := by
      simp [edgeOf, arcCount, h.edges_eq]
    have hback : twin (2 * k + 1) = 2 * (k : Int) := twin_two_mul_add_one k
    rw [hedge, h.capacity_eq _ (by omega), h.capacity_eq (2 * k + 1) (by omega), hback,
      twin_two_mul]
    by_cases hforward : 2 * (k : Int) ∈ way ++ [entering]
    · have hout := hcycle.twin_notMem hforward
      rw [twin_two_mul] at hout
      rw [if_pos hforward, if_neg hout, if_pos hforward]
      omega
    · rw [if_neg hforward, if_neg hforward]
      split <;> omega
  · have hvalue : (fun x => value (net'.tail x) - value (net'.head x)) =
        fun x => value (net.tail x) - value (net.head x) := by
      funext x
      rw [tail_congr h.edges_eq, head_congr h.edges_eq]
    have htwin : ∀ x, value (net.tail (twin x)) - value (net.head (twin x)) =
        -(value (net.tail x) - value (net.head x)) := by
      intro x
      rw [tail_twin, head_twin]
      omega
    rw [hvalue, h.gain_eq _ htwin, hcirculates.balanced value, hcycle.closes value]
    omega

/-- The cost of the flow changes by what the flow around the cycle costs. -/
theorem gain_cost (h : net.Step net' bland entering leaving way) :
    net'.gain net'.cost =
      net.gain net.cost + net.capacity leaving * net.cycleCost (way ++ [entering]) := by
  have hcost : net'.cost = net.cost := funext (cost_congr h.edges_eq)
  rw [hcost, h.gain_eq net.cost net.cost_twin, cycleCost]

theorem treeSet_eq (h : net.Step net' bland entering leaving way) (hnet : net.WellFormed) :
    net'.treeSet = if leaving = entering then net.treeSet
      else insert (pairOf entering) (net.treeSet \ {pairOf leaving}) := by
  have hentering : pairOf entering < net.edgeCount := h.stored.pairOf_lt
  have hoff : pairOf entering ∉ net.treeSet := by
    rw [hnet.mem_treeSet h.stored, h.off]
    exact Bool.false_ne_true
  ext k
  have hmem : k ∈ net'.treeSet ↔ k < net.edgeCount ∧ (if k = pairOf entering
      then decide (leaving ≠ entering)
      else if k = pairOf leaving then false else net.isTree (2 * k)) = true := by
    simp only [treeSet]
    rw [edgeCount_congr h.edges_eq]
    change k < net.edgeCount ∧ net'.isTree (2 * k) = true ↔ _
    rw [h.isTree_eq _ (by omega), pairOf_two_mul]
  rw [hmem]
  by_cases hsame : leaving = entering
  · rw [if_pos hsame]
    by_cases hk : k = pairOf entering
    · rw [hk]
      simp [hsame, hoff]
    · simp [hk, hsame, treeSet]
  · rw [if_neg hsame]
    by_cases hk : k = pairOf entering
    · rw [hk]
      simp [hsame, hentering]
    · by_cases hk' : k = pairOf leaving
      · rw [if_neg hk, if_pos hk']
        constructor
        · exact fun hfalse => absurd hfalse.2 Bool.false_ne_true
        · rintro (heq | ⟨_, hother⟩)
          · exact absurd heq hk
          · exact absurd hk' hother
      · simp [hk, hk', treeSet]

/-- Without the leaving edge the tree does not join the ends of the entering one: the way between
them passes from one side of that edge to the other. -/
theorem apart (h : net.Step net' bland entering leaving way) (hnet : net.WellFormed)
    (hacyclic : Acyclic net.ends net.treeSet) (hne : leaving ≠ entering) :
    ¬ Joined net.ends (net.treeSet \ {pairOf leaving}) (net.tail entering) (net.head entering) := by
  intro hjoined
  have hway := h.leaving_mem_way hne
  obtain ⟨hhead, htail⟩ := (h.isWay.mem_iff hnet hacyclic (h.leaving_stored hnet)
    (h.isWay.isTree leaving hway)).mp hway
  exact htail (hhead.trans hjoined.symm)

theorem spanning (h : net.Step net' bland entering leaving way) (hnet : net.WellFormed)
    (hspanning : IsSpanningTree net.nodeCount net.ends net.treeSet) :
    IsSpanningTree net'.nodeCount net'.ends net'.treeSet := by
  rw [h.nodeCount_eq, ends_congr h.edges_eq, h.treeSet_eq hnet]
  by_cases hsame : leaving = entering
  · rw [if_pos hsame]
    exact hspanning
  · rw [if_neg hsame]
    have hleaving := (hnet.mem_treeSet (h.leaving_stored hnet)).mpr
      (h.isWay.isTree leaving (h.leaving_mem_way hsame))
    have hentering : Stored net.arcCount (2 * pairOf entering) := Stored.forward h.stored.pairOf_lt
    have hapart := h.apart hnet hspanning.acyclic hsame
    rw [net.joined_arc_iff h.stored.1] at hapart
    exact hspanning.exchange hleaving (hnet.tail_lt _ hentering) (hnet.head_lt hentering) hapart

theorem atBounds (h : net.Step net' bland entering leaving way) (hnet : net.WellFormed)
    (hbounds : net.AtBounds) : net'.AtBounds := by
  intro k hk hoff
  rw [edgeCount_congr h.edges_eq] at hk
  by_cases hleaving : k = pairOf leaving
  · have hzero := h.capacity_leaving hnet
    have htwin := twin_two_mul (k : Int)
    cases eq_forward_or_twin (h.leaving_stored hnet).1 with
    | inl heq =>
      left
      rwa [hleaving, ← heq]
    | inr heq =>
      right
      rw [← htwin, hleaving, ← heq]
      exact hzero
  · rw [h.isTree_eq _ (by omega), pairOf_two_mul, if_neg hleaving] at hoff
    have hother : k ≠ pairOf entering := by
      intro heq
      rw [if_pos heq, decide_eq_false_iff_not, not_not] at hoff
      exact hleaving (by rw [heq, hoff])
    rw [if_neg hother] at hoff
    -- the edge is off the tree, so the way does not pass it
    have hout : ∀ y : Int, 0 ≤ y → pairOf y = k → y ∉ way ++ [entering] := by
      intro y hy hpair hmem
      cases List.mem_append.mp hmem with
      | inl hmem =>
        have htree := (hnet.mem_treeSet (h.isWay.stored y hmem)).mpr (h.isWay.isTree y hmem)
        rw [hpair] at htree
        rw [htree.2] at hoff
        cases hoff
      | inr hmem =>
        rw [List.mem_singleton.mp hmem] at hpair
        exact hother hpair.symm
    have hkept : ∀ y : Int, 0 ≤ y → pairOf y = k → net'.capacity y = net.capacity y :=
      fun y hy hpair => h.capacity_of_notMem hy (hout y hy hpair)
        (hout _ (twin_nonneg hy) (by rw [pairOf_twin, hpair]))
    rw [hkept _ (by omega) (pairOf_two_mul k), hkept _ (by omega) (pairOf_two_mul_add_one k)]
    exact hbounds k hk hoff

end Step

end Circulation.Network
