import Circulation.Network.Adjacency
import Mathlib.Data.List.Nodup
import Mathlib.Data.List.Perm.Subperm
import Mathlib.Order.BooleanAlgebra.Set

/-!
The lists of arcs that leave each node. Each arc that is present is in one list, that of its tail
and its flag, and in no other place. Main results: putting an arc into a list and taking it out
keep all lists sound, and say what becomes of each of them.
-/

namespace Circulation

theorem Row.get_put_of_nonneg {α : Type} (xs : Array α) {i j : Int} (hi : 0 ≤ i)
    (hsize : i < xs.size) (hj : 0 ≤ j) (x standard : α) :
    Row.get (Row.put xs i x) j standard = if j = i then x else Row.get xs j standard := by
  have hholds : Row.holds xs.size i := by
    simp only [Row.holds, Bool.and_eq_true, decide_eq_true_eq]
    omega
  have hsame : j.toNat = i.toNat ↔ j = i := by omega
  rw [Row.get_put _ hholds, Row.place_of_nonneg hi, Row.place_of_nonneg hj]
  simp only [hsame]

namespace Adjacency

structure Sized (adj : Adjacency) (nodeCount arcCount : Nat) : Prop where
  onTree : adj.onTree.size = arcCount
  next : adj.next.size = arcCount
  prev : adj.prev.size = arcCount
  treeHead : adj.treeHead.size = nodeCount
  otherHead : adj.otherHead.size = nodeCount

variable {adj adj' : Adjacency} {nodeCount arcCount : Nat}

theorem head_setHead {adj : Adjacency} (h : adj.Sized nodeCount arcCount) {node : Nat}
    (hnode : node < nodeCount) (tree : Bool) (first : Int) (t : Bool) (u : Nat) :
    (adj.setHead tree node first).head t u =
      if t = tree ∧ u = node then first else adj.head t u := by
  have htree := h.treeHead
  have hother := h.otherHead
  cases tree <;> cases t <;> simp only [setHead, head, if_true, Bool.false_eq_true, if_false]
  · rw [Row.getD_setIfInBounds]
    simp [hother, hnode]
  · simp
  · simp
  · rw [Row.getD_setIfInBounds]
    simp [htree, hnode]

@[simp] theorem nextOf_setHead (tree : Bool) (node : Nat) (first arc : Int) :
    (adj.setHead tree node first).nextOf arc = adj.nextOf arc := by
  cases tree <;> rfl

@[simp] theorem prevOf_setHead (tree : Bool) (node : Nat) (first arc : Int) :
    (adj.setHead tree node first).prevOf arc = adj.prevOf arc := by
  cases tree <;> rfl

@[simp] theorem isTree_setHead (tree : Bool) (node : Nat) (first arc : Int) :
    (adj.setHead tree node first).isTree arc = adj.isTree arc := by
  cases tree <;> rfl

namespace Sized

theorem setHead (h : adj.Sized nodeCount arcCount) (tree : Bool) (node : Nat) (first : Int) :
    (adj.setHead tree node first).Sized nodeCount arcCount := by
  cases tree
  · exact ⟨h.onTree, h.next, h.prev, h.treeHead, by simpa [Adjacency.setHead] using h.otherHead⟩
  · exact ⟨h.onTree, h.next, h.prev, by simpa [Adjacency.setHead] using h.treeHead, h.otherHead⟩

theorem setNext (h : adj.Sized nodeCount arcCount) (arc after : Int) :
    (adj.setNext arc after).Sized nodeCount arcCount :=
  ⟨h.onTree, by simpa [Adjacency.setNext] using h.next, h.prev, h.treeHead, h.otherHead⟩

theorem setPrev (h : adj.Sized nodeCount arcCount) (arc before : Int) :
    (adj.setPrev arc before).Sized nodeCount arcCount :=
  ⟨h.onTree, h.next, by simpa [Adjacency.setPrev] using h.prev, h.treeHead, h.otherHead⟩

theorem setFlag (h : adj.Sized nodeCount arcCount) (arc : Int) (tree : Bool) :
    (adj.setFlag arc tree).Sized nodeCount arcCount :=
  ⟨by simpa [Adjacency.setFlag] using h.onTree, h.next, h.prev, h.treeHead, h.otherHead⟩

theorem nextOf_setNext (h : adj.Sized nodeCount arcCount) {arc x : Int} (harc : 0 ≤ arc)
    (hlt : arc < arcCount) (hx : 0 ≤ x) (after : Int) :
    (adj.setNext arc after).nextOf x = if x = arc then after else adj.nextOf x :=
  Row.get_put_of_nonneg adj.next harc (by rw [h.next]; exact hlt) hx after noArc

theorem prevOf_setPrev (h : adj.Sized nodeCount arcCount) {arc x : Int} (harc : 0 ≤ arc)
    (hlt : arc < arcCount) (hx : 0 ≤ x) (before : Int) :
    (adj.setPrev arc before).prevOf x = if x = arc then before else adj.prevOf x :=
  Row.get_put_of_nonneg adj.prev harc (by rw [h.prev]; exact hlt) hx before noArc

theorem isTree_setFlag (h : adj.Sized nodeCount arcCount) {arc x : Int} (harc : 0 ≤ arc)
    (hlt : arc < arcCount) (hx : 0 ≤ x) (tree : Bool) :
    (adj.setFlag arc tree).isTree x = if x = arc then tree else adj.isTree x :=
  Row.get_put_of_nonneg adj.onTree harc (by rw [h.onTree]; exact hlt) hx tree false

end Sized

def Stored (arcCount : Nat) (arc : Int) : Prop := 0 ≤ arc ∧ arc < arcCount

theorem Sized.insert (h : adj.Sized nodeCount arcCount) {node : Nat} (hnode : node < nodeCount)
    {arc : Int} (harc : Stored arcCount arc) (tree : Bool)
    (hfirst : adj.head tree node ≠ noArc → Stored arcCount (adj.head tree node)) :
    (adj.insert node arc tree).Sized nodeCount arcCount ∧
      (∀ t u, (adj.insert node arc tree).head t u =
        if t = tree ∧ u = node then arc else adj.head t u) ∧
      ∀ x, 0 ≤ x →
        (adj.insert node arc tree).isTree x = (if x = arc then tree else adj.isTree x) ∧
        (adj.insert node arc tree).nextOf x =
          (if x = arc then adj.head tree node else adj.nextOf x) ∧
        (adj.insert node arc tree).prevOf x =
          if x = adj.head tree node then arc else if x = arc then noArc else adj.prevOf x := by
  obtain ⟨hpos, hlt⟩ := harc
  have hsized := ((h.setFlag arc tree).setNext arc (adj.head tree node)).setPrev arc noArc
  have hfields : ∀ x, 0 ≤ x →
      (((adj.setFlag arc tree).setNext arc (adj.head tree node)).setPrev arc noArc).isTree x =
        (if x = arc then tree else adj.isTree x) ∧
      (((adj.setFlag arc tree).setNext arc (adj.head tree node)).setPrev arc noArc).nextOf x =
        (if x = arc then adj.head tree node else adj.nextOf x) ∧
      (((adj.setFlag arc tree).setNext arc (adj.head tree node)).setPrev arc noArc).prevOf x =
        if x = arc then noArc else adj.prevOf x := by
    intro x hx
    refine ⟨h.isTree_setFlag hpos hlt hx tree, ?_, ?_⟩
    · exact (h.setFlag arc tree).nextOf_setNext hpos hlt hx (adj.head tree node)
    · exact ((h.setFlag arc tree).setNext arc (adj.head tree node)).prevOf_setPrev hpos hlt hx noArc
  unfold Adjacency.insert
  simp only
  by_cases hempty : adj.head tree node = noArc
  · rw [if_pos hempty]
    refine ⟨hsized.setHead tree node arc, head_setHead hsized hnode tree arc, fun x hx => ?_⟩
    obtain ⟨hflag, hnext, hprev⟩ := hfields x hx
    have hne : x ≠ adj.head tree node := by
      rw [hempty]
      simp only [noArc]
      omega
    simp only [isTree_setHead, nextOf_setHead, prevOf_setHead, if_neg hne]
    exact ⟨hflag, hnext, hprev⟩
  · rw [if_neg hempty]
    obtain ⟨hfpos, hflt⟩ := hfirst hempty
    have hsized' := hsized.setPrev (adj.head tree node) arc
    refine ⟨hsized'.setHead tree node arc, head_setHead hsized' hnode tree arc, fun x hx => ?_⟩
    obtain ⟨hflag, hnext, hprev⟩ := hfields x hx
    simp only [isTree_setHead, nextOf_setHead, prevOf_setHead]
    refine ⟨hflag, hnext, ?_⟩
    rw [hsized.prevOf_setPrev hfpos hflt hx, hprev]

theorem ne_noArc {arc : Int} (h : 0 ≤ arc) : arc ≠ noArc := by
  simp only [noArc]
  omega

theorem Sized.mend_next (h : adj.Sized nodeCount arcCount) {node : Nat} (hnode : node < nodeCount)
    (tree : Bool) {before : Int} (hbefore : before ≠ noArc → Stored arcCount before) (after : Int)
    {mended : Adjacency} (hmended : mended = if before = noArc then adj.setHead tree node after
      else adj.setNext before after) :
    mended.Sized nodeCount arcCount ∧
      (∀ t u, mended.head t u =
        if before = noArc ∧ t = tree ∧ u = node then after else adj.head t u) ∧
      ∀ x, 0 ≤ x → mended.isTree x = adj.isTree x ∧
        mended.nextOf x = (if x = before then after else adj.nextOf x) ∧
        mended.prevOf x = adj.prevOf x := by
  by_cases hno : before = noArc
  · rw [if_pos hno] at hmended
    subst hmended
    refine ⟨h.setHead _ _ _, fun t u => ?_, fun x hx => ?_⟩
    · rw [head_setHead h hnode]
      simp [hno]
    · have hne : x ≠ before := by
        rw [hno]
        exact ne_noArc hx
      simp [if_neg hne]
  · rw [if_neg hno] at hmended
    subst hmended
    obtain ⟨hpos, hlt⟩ := hbefore hno
    refine ⟨h.setNext _ _, fun t u => ?_, fun x hx => ⟨rfl, h.nextOf_setNext hpos hlt hx _, rfl⟩⟩
    simp only [hno, false_and, if_false]
    rfl

theorem Sized.mend_prev (h : adj.Sized nodeCount arcCount) {after : Int}
    (hafter : after ≠ noArc → Stored arcCount after) (before : Int) {mended : Adjacency}
    (hmended : mended = if after = noArc then adj else adj.setPrev after before) :
    mended.Sized nodeCount arcCount ∧ (∀ t u, mended.head t u = adj.head t u) ∧
      ∀ x, 0 ≤ x → mended.isTree x = adj.isTree x ∧ mended.nextOf x = adj.nextOf x ∧
        mended.prevOf x = if x = after then before else adj.prevOf x := by
  by_cases hno : after = noArc
  · rw [if_pos hno] at hmended
    subst hmended
    refine ⟨h, fun _ _ => rfl, fun x hx => ?_⟩
    have hne : x ≠ after := by
      rw [hno]
      exact ne_noArc hx
    simp [if_neg hne]
  · rw [if_neg hno] at hmended
    subst hmended
    obtain ⟨hpos, hlt⟩ := hafter hno
    exact ⟨h.setPrev _ _, fun _ _ => rfl, fun x hx =>
      ⟨rfl, rfl, h.prevOf_setPrev hpos hlt hx _⟩⟩

theorem Sized.unlink (h : adj.Sized nodeCount arcCount) {node : Nat} (hnode : node < nodeCount)
    {arc : Int} (harc : Stored arcCount arc) (tree : Bool)
    (hbefore : adj.prevOf arc ≠ noArc → Stored arcCount (adj.prevOf arc))
    (hafter : adj.nextOf arc ≠ noArc → Stored arcCount (adj.nextOf arc)) :
    (adj.unlink node arc tree).Sized nodeCount arcCount ∧
      (∀ t u, (adj.unlink node arc tree).head t u =
        if adj.prevOf arc = noArc ∧ t = tree ∧ u = node then adj.nextOf arc else adj.head t u) ∧
      ∀ x, 0 ≤ x →
        (adj.unlink node arc tree).isTree x = adj.isTree x ∧
        (adj.unlink node arc tree).nextOf x =
          (if x = arc then noArc else if x = adj.prevOf arc then adj.nextOf arc else adj.nextOf x) ∧
        (adj.unlink node arc tree).prevOf x =
          if x = arc then noArc
            else if x = adj.nextOf arc then adj.prevOf arc else adj.prevOf x := by
  obtain ⟨hpos, hlt⟩ := harc
  obtain ⟨hsized, hhead, hfields⟩ := h.mend_next hnode tree hbefore (adj.nextOf arc) rfl
  obtain ⟨hsized', hhead', hfields'⟩ := hsized.mend_prev hafter (adj.prevOf arc) rfl
  simp only [Adjacency.unlink]
  refine ⟨(hsized'.setNext _ _).setPrev _ _, fun t u => (hhead' t u).trans (hhead t u),
    fun x hx => ?_⟩
  obtain ⟨hflag, hnext, hprev⟩ := hfields x hx
  obtain ⟨hflag', hnext', hprev'⟩ := hfields' x hx
  refine ⟨hflag'.trans hflag, ?_, ?_⟩
  · rw [← hnext, ← hnext']
    exact hsized'.nextOf_setNext hpos hlt hx noArc
  · rw [← hprev, ← hprev']
    exact (hsized'.setNext arc noArc).prevOf_setPrev hpos hlt hx noArc

/-- The links run from `first` through the arcs of a list. The arc before `first` is `before`. -/
def Runs (adj : Adjacency) (before first : Int) : List Int → Prop
  | [] => first = noArc
  | arc :: arcs =>
    first = arc ∧ arc ≠ noArc ∧ adj.prevOf arc = before ∧ Runs adj arc (adj.nextOf arc) arcs

namespace Runs

theorem chain_eq {before first : Int} {arcs : List Int} (h : adj.Runs before first arcs)
    {fuel : Nat} (hfuel : arcs.length ≤ fuel) : adj.chain fuel first = arcs := by
  induction arcs generalizing before first fuel with
  | nil =>
    have hfirst : first = noArc := h
    cases fuel with
    | zero => rfl
    | succ fuel => simp [chain, hfirst]
  | cons arc arcs ih =>
    obtain ⟨hfirst, hne, _, hrest⟩ := h
    cases fuel with
    | zero => simp at hfuel
    | succ fuel =>
      have hlength : arcs.length ≤ fuel := by simpa using hfuel
      simp [chain, hfirst, hne, ih hrest hlength]

/-- Links that do not belong to a list do not matter to it. -/
theorem frame {before first : Int} {arcs : List Int} (h : adj.Runs before first arcs)
    (hnext : ∀ a ∈ arcs, adj'.nextOf a = adj.nextOf a)
    (hprev : ∀ a ∈ arcs, adj'.prevOf a = adj.prevOf a) : adj'.Runs before first arcs := by
  induction arcs generalizing before first with
  | nil => exact h
  | cons arc arcs ih =>
    obtain ⟨hfirst, hne, hbefore, hrest⟩ := h
    refine ⟨hfirst, hne, (hprev arc (by simp)).trans hbefore, ?_⟩
    rw [hnext arc (by simp)]
    exact ih hrest (fun a ha => hnext a (List.mem_cons_of_mem arc ha))
      fun a ha => hprev a (List.mem_cons_of_mem arc ha)

theorem first_eq {before first : Int} {arcs : List Int} (h : adj.Runs before first arcs) :
    first = arcs.headD noArc := by
  cases arcs with
  | nil => exact h
  | cons arc arcs => exact h.1

theorem neighbours {before first arc : Int} {left right : List Int}
    (h : adj.Runs before first (left ++ arc :: right)) :
    adj.prevOf arc = (before :: left).getLast (by simp) ∧
      adj.nextOf arc = right.headD noArc := by
  induction left generalizing before first with
  | nil =>
    obtain ⟨_, _, hprev, hrest⟩ := h
    exact ⟨hprev, hrest.first_eq⟩
  | cons b left ih =>
    obtain ⟨_, _, _, hrest⟩ := h
    simpa using ih hrest

theorem neighbours_mem {first arc : Int} {left right : List Int}
    (h : adj.Runs noArc first (left ++ arc :: right)) :
    (adj.prevOf arc ≠ noArc → adj.prevOf arc ∈ left ++ right) ∧
      (adj.nextOf arc ≠ noArc → adj.nextOf arc ∈ left ++ right) := by
  obtain ⟨hprev, hnext⟩ := h.neighbours
  rw [hprev, hnext]
  constructor
  · cases left with
    | nil => exact fun hne => absurd rfl hne
    | cons b left =>
      intro _
      rw [List.getLast_cons (by simp)]
      exact List.mem_append_left _ (List.getLast_mem _)
  · cases right with
    | nil => exact fun hne => absurd rfl hne
    | cons b right => simp

theorem prevOf_eq_noArc_iff {first arc : Int} {left right : List Int}
    (h : adj.Runs noArc first (left ++ arc :: right)) (hno : noArc ∉ left) :
    adj.prevOf arc = noArc ↔ left = [] := by
  rw [h.neighbours.1]
  cases left with
  | nil => simp
  | cons b left =>
    rw [List.getLast_cons (by simp)]
    have hlast := List.getLast_mem (List.cons_ne_nil b left)
    refine iff_of_false (fun hnone => ?_) (List.cons_ne_nil b left)
    rw [hnone] at hlast
    exact hno hlast

theorem cons_insert {first arc : Int} {arcs : List Int} (h : adj.Runs noArc first arcs)
    (hnodup : arcs.Nodup) (hmem : arc ∉ arcs) (hne : arc ≠ noArc)
    (hnext : adj'.nextOf arc = first) (hprev : adj'.prevOf arc = noArc)
    (hfirst : first ≠ noArc → adj'.prevOf first = arc)
    (hnexts : ∀ a ∈ arcs, adj'.nextOf a = adj.nextOf a)
    (hprevs : ∀ a ∈ arcs, a ≠ first → adj'.prevOf a = adj.prevOf a) :
    adj'.Runs noArc arc (arc :: arcs) := by
  refine ⟨rfl, hne, hprev, ?_⟩
  rw [hnext]
  cases arcs with
  | nil => exact h
  | cons b arcs =>
    obtain ⟨heq, hb, _, hrest⟩ := h
    subst heq
    refine ⟨rfl, hb, hfirst hb, ?_⟩
    rw [hnexts first (by simp)]
    refine hrest.frame (fun a ha => hnexts a (List.mem_cons_of_mem _ ha)) fun a ha => ?_
    have hother : a ≠ first := by
      intro heq
      subst heq
      exact (List.nodup_cons.mp hnodup).1 ha
    exact hprevs a (List.mem_cons_of_mem _ ha) hother

/-- The links run on without their first arc: the one after it comes after `before`. -/
theorem behead {before first arc : Int} {right : List Int}
    (h : adj.Runs before first (arc :: right)) (hnodup : (before :: arc :: right).Nodup)
    (hnexts : ∀ a ∈ right, adj'.nextOf a =
      if a = adj.prevOf arc then adj.nextOf arc else adj.nextOf a)
    (hprevs : ∀ a ∈ right, adj'.prevOf a =
      if a = adj.nextOf arc then adj.prevOf arc else adj.prevOf a) :
    adj'.Runs before (adj.nextOf arc) right := by
  obtain ⟨_, _, hprev, hrest⟩ := h
  cases right with
  | nil => exact hrest
  | cons b right =>
    obtain ⟨heq, hb, _, hrest⟩ := hrest
    simp only [List.nodup_cons, List.mem_cons, not_or] at hnodup
    obtain ⟨⟨_, hbb, hbright⟩, ⟨_, _⟩, hbmem, _⟩ := hnodup
    have hplain : ∀ a ∈ b :: right, adj'.nextOf a = adj.nextOf a := by
      intro a ha
      rw [hnexts a ha, if_neg]
      rintro rfl
      rw [hprev] at ha
      cases List.mem_cons.mp ha with
      | inl ha => exact hbb ha
      | inr ha => exact hbright ha
    refine ⟨heq, hb, ?_, ?_⟩
    · rw [hprevs b List.mem_cons_self, heq, if_pos rfl, hprev]
    · rw [hplain b List.mem_cons_self]
      refine hrest.frame (fun a ha => hplain a (List.mem_cons_of_mem _ ha)) fun a ha => ?_
      rw [hprevs a (List.mem_cons_of_mem _ ha), if_neg]
      rintro rfl
      rw [heq] at ha
      exact hbmem ha

theorem erase_unlink {before first arc : Int} {left right : List Int}
    (h : adj.Runs before first (left ++ arc :: right))
    (hnodup : (before :: (left ++ arc :: right)).Nodup)
    (hnexts : ∀ a ∈ left ++ right, adj'.nextOf a =
      if a = adj.prevOf arc then adj.nextOf arc else adj.nextOf a)
    (hprevs : ∀ a ∈ left ++ right, adj'.prevOf a =
      if a = adj.nextOf arc then adj.prevOf arc else adj.prevOf a) :
    adj'.Runs before (if left = [] then adj.nextOf arc else first) (left ++ right) := by
  induction left generalizing before first with
  | nil =>
    rw [if_pos rfl]
    exact h.behead hnodup hnexts hprevs
  | cons c left ih =>
    obtain ⟨hprev, hnext⟩ := h.neighbours
    obtain ⟨heq, hc, hcprev, hrest⟩ := h
    rw [if_neg (by simp)]
    have hnodup' := (List.nodup_cons.mp hnodup).2
    have hcmem : c ∉ left ++ arc :: right := (List.nodup_cons.mp hnodup').1
    have hcnext : c ≠ adj.nextOf arc := by
      rintro rfl
      rw [hnext] at hcmem hc
      cases right with
      | nil => exact hc rfl
      | cons b right => simp at hcmem
    refine ⟨heq, hc, ?_, ?_⟩
    · rw [hprevs c (by simp), if_neg hcnext, hcprev]
    · have hrun := ih hrest hnodup'
        (fun a ha => hnexts a (List.mem_cons_of_mem c ha))
        fun a ha => hprevs a (List.mem_cons_of_mem c ha)
      rw [hnexts c (by simp)]
      by_cases hleft : left = []
      · subst hleft
        have hlast : c = adj.prevOf arc := by simpa using hprev.symm
        rw [if_pos hlast]
        simpa using hrun
      · have hlast : c ≠ adj.prevOf arc := by
          rw [hprev, List.getLast_cons (by simp), List.getLast_cons hleft]
          intro hlast
          apply hcmem
          rw [hlast]
          exact List.mem_append_left _ (List.getLast_mem hleft)
        rw [if_neg hlast]
        rw [if_neg hleft] at hrun
        exact hrun

end Runs

theorem length_le_of_stored {arcs : List Int} (hnodup : arcs.Nodup)
    (hstored : ∀ a ∈ arcs, Stored arcCount a) : arcs.length ≤ arcCount := by
  have hmap : (arcs.map Int.toNat).Nodup := by
    refine hnodup.map_on fun a ha b hb hab => ?_
    have hposa := (hstored a ha).1
    have hposb := (hstored b hb).1
    omega
  have hsub : arcs.map Int.toNat ⊆ List.range arcCount := by
    intro n hn
    obtain ⟨a, ha, rfl⟩ := List.mem_map.mp hn
    obtain ⟨hpos, hlt⟩ := hstored a ha
    rw [List.mem_range]
    omega
  have hle := (hmap.subperm hsub).length_le
  simpa using hle

/-- Every arc that is present is in the list of its tail and its flag, and nothing else is in a
list. -/
structure Holds (adj : Adjacency) (nodeCount arcCount : Nat) (tailOf : Int → Nat)
    (present : Set Int) : Prop where
  sized : adj.Sized nodeCount arcCount
  stored : ∀ arc ∈ present, Stored arcCount arc ∧ tailOf arc < nodeCount
  runs : ∀ tree, ∀ node < nodeCount, adj.Runs noArc (adj.head tree node) (adj.list tree node)
  mem_iff : ∀ tree, ∀ node < nodeCount, ∀ arc, arc ∈ adj.list tree node ↔
    arc ∈ present ∧ tailOf arc = node ∧ adj.isTree arc = tree
  nodup : ∀ tree, ∀ node < nodeCount, (adj.list tree node).Nodup

namespace Holds

variable {tailOf : Int → Nat} {present : Set Int}

theorem of_runs (hsized : adj.Sized nodeCount arcCount)
    (hstored : ∀ arc ∈ present, Stored arcCount arc ∧ tailOf arc < nodeCount)
    (lists : Bool → Nat → List Int)
    (hruns : ∀ tree, ∀ node < nodeCount, adj.Runs noArc (adj.head tree node) (lists tree node))
    (hmem : ∀ tree, ∀ node < nodeCount, ∀ arc, arc ∈ lists tree node ↔
      arc ∈ present ∧ tailOf arc = node ∧ adj.isTree arc = tree)
    (hnodup : ∀ tree, ∀ node < nodeCount, (lists tree node).Nodup) :
    adj.Holds nodeCount arcCount tailOf present ∧
      ∀ tree, ∀ node < nodeCount, adj.list tree node = lists tree node := by
  have hlist : ∀ tree, ∀ node < nodeCount, adj.list tree node = lists tree node := by
    intro tree node hnode
    apply (hruns tree node hnode).chain_eq
    rw [hsized.next]
    refine length_le_of_stored (hnodup tree node hnode) fun a ha => ?_
    exact (hstored a ((hmem tree node hnode a).mp ha).1).1
  refine ⟨⟨hsized, hstored, ?_, ?_, ?_⟩, hlist⟩
  · intro tree node hnode
    rw [hlist tree node hnode]
    exact hruns tree node hnode
  · intro tree node hnode
    rw [hlist tree node hnode]
    exact hmem tree node hnode
  · intro tree node hnode
    rw [hlist tree node hnode]
    exact hnodup tree node hnode

theorem head_stored (h : adj.Holds nodeCount arcCount tailOf present) (tree : Bool) {node : Nat}
    (hnode : node < nodeCount) (hne : adj.head tree node ≠ noArc) :
    adj.head tree node ∈ adj.list tree node := by
  have hfirst := (h.runs tree node hnode).first_eq
  cases hlist : adj.list tree node with
  | nil =>
    rw [hlist] at hfirst
    exact absurd hfirst hne
  | cons a arcs =>
    rw [hlist] at hfirst
    rw [hfirst]
    simp

theorem of_mem (h : adj.Holds nodeCount arcCount tailOf present) {tree : Bool} {node : Nat}
    (hnode : node < nodeCount) {a : Int} (ha : a ∈ adj.list tree node) :
    Stored arcCount a ∧ a ∈ present ∧ tailOf a = node ∧ adj.isTree a = tree := by
  obtain ⟨hpresent, hplace⟩ := (h.mem_iff tree node hnode a).mp ha
  exact ⟨(h.stored a hpresent).1, hpresent, hplace⟩

theorem place_eq (h : adj.Holds nodeCount arcCount tailOf present) {t t' : Bool} {u u' : Nat}
    (hu : u < nodeCount) (hu' : u' < nodeCount) {a : Int} (ha : a ∈ adj.list t u)
    (ha' : a ∈ adj.list t' u') : t = t' ∧ u = u' := by
  obtain ⟨_, _, htail, hflag⟩ := h.of_mem hu ha
  obtain ⟨_, _, htail', hflag'⟩ := h.of_mem hu' ha'
  exact ⟨hflag.symm.trans hflag', htail.symm.trans htail'⟩

theorem noArc_notMem (h : adj.Holds nodeCount arcCount tailOf present) (tree : Bool) {node : Nat}
    (hnode : node < nodeCount) : noArc ∉ adj.list tree node :=
  fun hno => ne_noArc (h.of_mem hnode hno).1.1 rfl

section Insert

variable {arc : Int} {tree : Bool}

theorem runs_insert (h : adj.Holds nodeCount arcCount tailOf present) (hnew : arc ∉ present)
    (harc : Stored arcCount arc) (hnode : tailOf arc < nodeCount) (t : Bool) {u : Nat}
    (hu : u < nodeCount) : (adj.insert (tailOf arc) arc tree).Runs noArc
      ((adj.insert (tailOf arc) arc tree).head t u)
      (if t = tree ∧ u = tailOf arc then arc :: adj.list t u else adj.list t u) := by
  have hfirst : adj.head tree (tailOf arc) ≠ noArc →
      adj.head tree (tailOf arc) ∈ adj.list tree (tailOf arc) := h.head_stored tree hnode
  have hother : ∀ t, ∀ u < nodeCount, ∀ a ∈ adj.list t u, 0 ≤ a ∧ a ≠ arc := by
    intro t u hu a ha
    obtain ⟨hstored, hpresent, _⟩ := h.of_mem hu ha
    exact ⟨hstored.1, fun heq => hnew (heq ▸ hpresent)⟩
  obtain ⟨hsized, hhead, hfields⟩ := h.sized.insert hnode harc tree fun hne =>
    (h.of_mem hnode (hfirst hne)).1
  have harcne : arc ≠ noArc := ne_noArc harc.1
  rw [hhead]
  by_cases hplace : t = tree ∧ u = tailOf arc
  · obtain ⟨rfl, rfl⟩ := hplace
    have harcfirst : arc ≠ adj.head t (tailOf arc) := by
      intro heq
      have hne : adj.head t (tailOf arc) ≠ noArc := by rwa [← heq]
      exact (hother t _ hnode _ (hfirst hne)).2 heq.symm
    simp only [and_self, if_true]
    refine (h.runs t _ hu).cons_insert (h.nodup t _ hu) ?_ harcne ?_ ?_ ?_ ?_ ?_
    · exact fun hmem => (hother t _ hu arc hmem).2 rfl
    · rw [(hfields arc harc.1).2.1, if_pos rfl]
    · rw [(hfields arc harc.1).2.2, if_neg harcfirst, if_pos rfl]
    · intro hne
      rw [(hfields _ (hother t _ hu _ (hfirst hne)).1).2.2, if_pos rfl]
    · intro a ha
      obtain ⟨hpos, hne⟩ := hother t _ hu a ha
      rw [(hfields a hpos).2.1, if_neg hne]
    · intro a ha hne
      obtain ⟨hpos, hne'⟩ := hother t _ hu a ha
      rw [(hfields a hpos).2.2, if_neg hne, if_neg hne']
  · simp only [if_neg hplace]
    refine (h.runs t u hu).frame (fun a ha => ?_) fun a ha => ?_
    · obtain ⟨hpos, hne⟩ := hother t u hu a ha
      rw [(hfields a hpos).2.1, if_neg hne]
    · obtain ⟨hpos, hne⟩ := hother t u hu a ha
      have hnot : a ≠ adj.head tree (tailOf arc) := by
        intro heq
        have hmem := hfirst (by rw [← heq]; exact ne_noArc hpos)
        rw [← heq] at hmem
        exact hplace (h.place_eq hu hnode ha hmem)
      rw [(hfields a hpos).2.2, if_neg hnot, if_neg hne]

theorem mem_insert_iff (h : adj.Holds nodeCount arcCount tailOf present) (hnew : arc ∉ present)
    (harc : Stored arcCount arc)
    (hflags : ∀ x, 0 ≤ x → adj'.isTree x = if x = arc then tree else adj.isTree x) (t : Bool)
    {u : Nat} (hu : u < nodeCount) (a : Int) :
    (a ∈ if t = tree ∧ u = tailOf arc then arc :: adj.list t u else adj.list t u) ↔
      a ∈ Insert.insert arc present ∧ tailOf a = u ∧ adj'.isTree a = t := by
  by_cases ha : a = arc
  · subst ha
    have hout : a ∉ adj.list t u := fun hmem => hnew (h.of_mem hu hmem).2.1
    rw [hflags a harc.1, if_pos rfl]
    by_cases hplace : t = tree ∧ u = tailOf a
    · obtain ⟨rfl, rfl⟩ := hplace
      simp
    · rw [if_neg hplace]
      refine iff_of_false hout ?_
      rintro ⟨_, htail, hflag⟩
      exact hplace ⟨hflag.symm, htail.symm⟩
  · have hsame : (a ∈ if t = tree ∧ u = tailOf arc then arc :: adj.list t u else adj.list t u) ↔
        a ∈ adj.list t u := by
      split <;> simp [ha]
    rw [hsame, h.mem_iff t u hu]
    constructor
    · rintro ⟨hpresent, htail, hflag⟩
      refine ⟨Or.inr hpresent, htail, ?_⟩
      rwa [hflags a (h.stored a hpresent).1.1, if_neg ha]
    · rintro ⟨hpresent, htail, hflag⟩
      have hpresent' := hpresent.resolve_left ha
      rw [hflags a (h.stored a hpresent').1.1, if_neg ha] at hflag
      exact ⟨hpresent', htail, hflag⟩

/-- An arc that was in no list is the first of its list from now on. -/
theorem insert (h : adj.Holds nodeCount arcCount tailOf present) (hnew : arc ∉ present)
    (harc : Stored arcCount arc) (hnode : tailOf arc < nodeCount) (tree : Bool) :
    (adj.insert (tailOf arc) arc tree).Holds nodeCount arcCount tailOf
        (Insert.insert arc present) ∧
      (∀ x, 0 ≤ x → (adj.insert (tailOf arc) arc tree).isTree x =
        if x = arc then tree else adj.isTree x) ∧
      ∀ t, ∀ u < nodeCount, (adj.insert (tailOf arc) arc tree).list t u =
        if t = tree ∧ u = tailOf arc then arc :: adj.list t u else adj.list t u := by
  obtain ⟨hsized, -, hfields⟩ := h.sized.insert hnode harc tree fun hne =>
    (h.of_mem hnode (h.head_stored tree hnode hne)).1
  have hflags := fun x hx => (hfields x hx).1
  obtain ⟨hholds, hlist⟩ := of_runs hsized
    (fun a ha => by
      cases ha with
      | inl heq => exact heq ▸ ⟨harc, hnode⟩
      | inr hmem => exact h.stored a hmem)
    (fun t u => if t = tree ∧ u = tailOf arc then arc :: adj.list t u else adj.list t u)
    (fun t u hu => h.runs_insert hnew harc hnode t hu)
    (fun t u hu a => h.mem_insert_iff hnew harc hflags t hu a)
    (fun t u hu => by
      split
      · exact List.nodup_cons.mpr ⟨fun hmem => hnew (h.of_mem hu hmem).2.1, h.nodup t u hu⟩
      · exact h.nodup t u hu)
  exact ⟨hholds, hflags, hlist⟩

end Insert

section Unlink

variable {arc : Int}

theorem exists_split (h : adj.Holds nodeCount arcCount tailOf present) (hmem : arc ∈ present) :
    ∃ left right, adj.list (adj.isTree arc) (tailOf arc) = left ++ arc :: right :=
  List.append_of_mem ((h.mem_iff _ _ (h.stored arc hmem).2 arc).mpr ⟨hmem, rfl, rfl⟩)

theorem neighbours_mem (h : adj.Holds nodeCount arcCount tailOf present) (hmem : arc ∈ present) :
    (adj.prevOf arc ≠ noArc → adj.prevOf arc ∈ adj.list (adj.isTree arc) (tailOf arc)) ∧
      (adj.nextOf arc ≠ noArc → adj.nextOf arc ∈ adj.list (adj.isTree arc) (tailOf arc)) := by
  obtain ⟨left, right, hsplit⟩ := h.exists_split hmem
  have hruns := h.runs (adj.isTree arc) _ (h.stored arc hmem).2
  rw [hsplit] at hruns ⊢
  have hsub := ((List.sublist_cons_self arc right).append_left left).subset
  exact ⟨fun hne => hsub (hruns.neighbours_mem.1 hne), fun hne => hsub (hruns.neighbours_mem.2 hne)⟩

theorem sized_unlink (h : adj.Holds nodeCount arcCount tailOf present) (hmem : arc ∈ present) :
    (adj.unlink (tailOf arc) arc (adj.isTree arc)).Sized nodeCount arcCount ∧
      (∀ t u, (adj.unlink (tailOf arc) arc (adj.isTree arc)).head t u =
        if adj.prevOf arc = noArc ∧ t = adj.isTree arc ∧ u = tailOf arc then adj.nextOf arc
        else adj.head t u) ∧
      ∀ x, 0 ≤ x →
        (adj.unlink (tailOf arc) arc (adj.isTree arc)).isTree x = adj.isTree x ∧
        (adj.unlink (tailOf arc) arc (adj.isTree arc)).nextOf x =
          (if x = arc then noArc else if x = adj.prevOf arc then adj.nextOf arc else adj.nextOf x) ∧
        (adj.unlink (tailOf arc) arc (adj.isTree arc)).prevOf x =
          if x = arc then noArc
            else if x = adj.nextOf arc then adj.prevOf arc else adj.prevOf x := by
  obtain ⟨harc, hnode⟩ := h.stored arc hmem
  obtain ⟨hprev, hnext⟩ := h.neighbours_mem hmem
  exact h.sized.unlink hnode harc (adj.isTree arc)
    (fun hne => (h.of_mem hnode (hprev hne)).1) fun hne => (h.of_mem hnode (hnext hne)).1

theorem runs_unlink_own (h : adj.Holds nodeCount arcCount tailOf present) (hmem : arc ∈ present) :
    (adj.unlink (tailOf arc) arc (adj.isTree arc)).Runs noArc
      ((adj.unlink (tailOf arc) arc (adj.isTree arc)).head (adj.isTree arc) (tailOf arc))
      ((adj.list (adj.isTree arc) (tailOf arc)).erase arc) := by
  obtain ⟨harc, hnode⟩ := h.stored arc hmem
  obtain ⟨-, hhead, hfields⟩ := h.sized_unlink hmem
  obtain ⟨left, right, hsplit⟩ := h.exists_split hmem
  have hruns := h.runs (adj.isTree arc) _ hnode
  have hnodup := h.nodup (adj.isTree arc) _ hnode
  have hno := h.noArc_notMem (adj.isTree arc) hnode
  have hpos : ∀ a ∈ left ++ arc :: right, 0 ≤ a := fun a ha =>
    (h.of_mem hnode (by rwa [hsplit])).1.1
  rw [hsplit] at hruns hnodup hno ⊢
  have hother : ∀ a ∈ left ++ right, 0 ≤ a ∧ a ≠ arc := by
    intro a ha
    rw [List.nodup_middle, List.nodup_cons] at hnodup
    have hsub := ((List.sublist_cons_self arc right).append_left left).subset
    exact ⟨hpos a (hsub ha), fun heq => hnodup.1 (heq ▸ ha)⟩
  have hnot : arc ∉ left := fun ha => (hother arc (List.mem_append_left _ ha)).2 rfl
  have hempty := hruns.prevOf_eq_noArc_iff fun hleft => hno (List.mem_append_left _ hleft)
  rw [List.erase_append_right _ hnot, List.erase_cons_head, hhead]
  simp only [hempty, and_true]
  refine hruns.erase_unlink (List.nodup_cons.mpr ⟨hno, hnodup⟩) (fun a ha => ?_) fun a ha => ?_
  · rw [(hfields a (hother a ha).1).2.1, if_neg (hother a ha).2]
  · rw [(hfields a (hother a ha).1).2.2, if_neg (hother a ha).2]

theorem runs_unlink (h : adj.Holds nodeCount arcCount tailOf present) (hmem : arc ∈ present)
    (t : Bool) {u : Nat} (hu : u < nodeCount) :
    (adj.unlink (tailOf arc) arc (adj.isTree arc)).Runs noArc
      ((adj.unlink (tailOf arc) arc (adj.isTree arc)).head t u) ((adj.list t u).erase arc) := by
  obtain ⟨harc, hnode⟩ := h.stored arc hmem
  obtain ⟨-, hhead, hfields⟩ := h.sized_unlink hmem
  obtain ⟨hprev, hnext⟩ := h.neighbours_mem hmem
  by_cases hplace : t = adj.isTree arc ∧ u = tailOf arc
  · obtain ⟨rfl, rfl⟩ := hplace
    exact h.runs_unlink_own hmem
  · have hforeign : ∀ a ∈ adj.list t u, a ∉ adj.list (adj.isTree arc) (tailOf arc) :=
      fun a ha ha' => hplace (h.place_eq hu hnode ha ha')
    have hout : ∀ a ∈ adj.list t u, 0 ≤ a ∧ a ≠ arc ∧ a ≠ adj.prevOf arc ∧ a ≠ adj.nextOf arc := by
      intro a ha
      have hpos := (h.of_mem hu ha).1.1
      refine ⟨hpos, fun heq => ?_, fun heq => ?_, fun heq => ?_⟩
      · subst heq
        exact hforeign a ha ((h.mem_iff _ _ hnode a).mpr ⟨hmem, rfl, rfl⟩)
      · exact hforeign a ha (heq ▸ hprev (heq ▸ ne_noArc hpos))
      · exact hforeign a ha (heq ▸ hnext (heq ▸ ne_noArc hpos))
    have hnot : arc ∉ adj.list t u := fun ha => (hout arc ha).2.1 rfl
    rw [List.erase_of_not_mem hnot, hhead, if_neg fun hsame => hplace hsame.2]
    refine (h.runs t u hu).frame (fun a ha => ?_) fun a ha => ?_
    · obtain ⟨hpos, hne, hneprev, _⟩ := hout a ha
      rw [(hfields a hpos).2.1, if_neg hne, if_neg hneprev]
    · obtain ⟨hpos, hne, _, hnenext⟩ := hout a ha
      rw [(hfields a hpos).2.2, if_neg hne, if_neg hnenext]

/-- An arc that is taken out of its list is in no list from now on. -/
theorem unlink (h : adj.Holds nodeCount arcCount tailOf present) (hmem : arc ∈ present) :
    (adj.unlink (tailOf arc) arc (adj.isTree arc)).Holds nodeCount arcCount tailOf
        (present \ {arc}) ∧
      (∀ x, 0 ≤ x → (adj.unlink (tailOf arc) arc (adj.isTree arc)).isTree x = adj.isTree x) ∧
      ∀ t, ∀ u < nodeCount, (adj.unlink (tailOf arc) arc (adj.isTree arc)).list t u =
        (adj.list t u).erase arc := by
  obtain ⟨hsized, -, hfields⟩ := h.sized_unlink hmem
  have hflags := fun x hx => (hfields x hx).1
  obtain ⟨hholds, hlist⟩ := of_runs hsized (fun a (ha : a ∈ present \ {arc}) => h.stored a ha.1)
    (fun t u => (adj.list t u).erase arc) (fun t u hu => h.runs_unlink hmem t hu)
    (fun t u hu a => by
      rw [(h.nodup t u hu).mem_erase_iff, h.mem_iff t u hu]
      constructor
      · rintro ⟨hne, hpresent, htail, hflag⟩
        refine ⟨⟨hpresent, hne⟩, htail, ?_⟩
        rwa [hflags a (h.stored a hpresent).1.1]
      · rintro ⟨⟨hpresent, hne⟩, htail, hflag⟩
        rw [hflags a (h.stored a hpresent).1.1] at hflag
        exact ⟨hne, hpresent, htail, hflag⟩)
    (fun t u hu => (h.nodup t u hu).erase arc)
  exact ⟨hholds, hflags, hlist⟩

end Unlink

end Holds

end Adjacency

end Circulation
