import Circulation.Proofs.Representative
import Mathlib.Data.Nat.Pairing

/-!
Partitions in use: elements are looked up and pairs of them are joined, in any order. Looking an
element up climbs to the end of its way and then shortens the way. Both come to an end, since each
step leaves fewer elements that lie lower, and shortening a way does not lift any element. Main
result: after any calls two elements are found at one representative exactly if the pairs that were
joined connect them, and looking elements up does not change that.
-/

namespace Circulation.Partition

inductive Call where
  | union (a b : Nat)
  | find (a : Nat)

def Call.Within (size : Nat) : Call → Prop
  | .union a b => a < size ∧ b < size
  | .find a => a < size

def perform (p : Partition) : Call → Partition
  | .union a b => (p.union a b).1
  | .find a => (p.find a).1

def performAll (p : Partition) (calls : List Call) : Partition :=
  calls.foldl perform p

/-- The classes of elements that the joined pairs connect. -/
def linked (calls : List Call) : Setoid Nat :=
  Relation.EqvGen.setoid fun a b => Call.union a b ∈ calls

/-- Climbing from an element ends at the first one that points to itself. -/
inductive Climbs (p : Partition) : Nat → Nat → Prop
  | stop {a : Nat} (h : p.up a = a) : Climbs p a a
  | step {a r : Nat} (h : p.up a ≠ a) (rest : Climbs p (p.up a) r) : Climbs p a r

/-- Shortening a way ends at the first element that points to the end of the way. The elements
before it point there from then on. -/
inductive Shortens (r : Nat) : Partition → Nat → Partition → Prop
  | stop {p : Partition} {a : Nat} (h : p.up a = r) : Shortens r p a p
  | step {p q : Partition} {a : Nat} (h : p.up a ≠ r)
      (rest : Shortens r (p.redirect a r) (p.up a) q) : Shortens r p a q

variable {p : Partition} {size : Nat}

theorem climbs_rootFrom (fuel a : Nat) (h : p.up (p.rootFrom fuel a) = p.rootFrom fuel a) :
    Climbs p a (p.rootFrom fuel a) := by
  induction fuel generalizing a with
  | zero => exact .stop h
  | succ fuel ih =>
    by_cases hfix : p.up a = a
    · rw [rootFrom_of_up_eq hfix]
      exact .stop hfix
    · rw [rootFrom_succ_of_up_ne hfix] at h ⊢
      exact .step hfix (ih (p.up a) h)

namespace IsForest

theorem climbs_root (h : p.IsForest) (a : Nat) : Climbs p a (p.root a) :=
  climbs_rootFrom p.size a (h.up_root a)

/-- The steps that are allowed for shortening a way suffice if there are as many as lower
elements. -/
theorem shortens_compress (h : p.IsForest) {height : Nat → Nat}
    (hheight : ∀ a, p.up a ≠ a → height (p.up a) < height a) {fuel a r : Nat} (hr : p.root a = r)
    (hfuel : p.countLower height a ≤ fuel) :
    Shortens r p a (Partition.compress r fuel p a) := by
  induction fuel generalizing p a with
  | zero =>
    have hfix : p.up a = a := by
      by_contra hne
      have hless := countLower_up_lt h.bounded hheight hne
      omega
    exact .stop (by rw [← hr, (h.root_eq_self_iff a).mpr hfix, hfix])
  | succ fuel ih =>
    simp only [Partition.compress]
    by_cases hup : p.up a = r
    · rw [if_pos hup]
      exact .stop hup
    · rw [if_neg hup]
      subst hr
      have hfix : p.up a ≠ a := by
        intro hfix
        exact hup (by rw [(h.root_eq_self_iff a).mpr hfix, hfix])
      have hless := countLower_up_lt h.bounded hheight hfix
      obtain ⟨hforest, -, hroot⟩ := h.redirect_root hup
      refine .step hup (ih hforest (h.height_redirect_root hheight hfix) ?_ ?_)
      · rw [hroot, h.root_up]
      · rw [countLower_redirect]
        omega

theorem shortens_find (h : p.IsForest) (a : Nat) : Shortens (p.root a) p a (p.find a).1 := by
  obtain ⟨height, hheight⟩ := h.grounded
  exact h.shortens_compress hheight rfl (p.countLower_le_size height a)

end IsForest

/-- A partition with the given classes. Its elements form a forest, in which each class has one
element that points to itself, and this is where all elements of the class are found. -/
structure Keeps (p : Partition) (size : Nat) (classes : Setoid Nat) : Prop where
  size_eq : p.size = size
  forest : p.IsForest
  climbs : ∀ a, Climbs p a (p.find a).2
  shortens : ∀ a, Shortens (p.find a).2 p a (p.find a).1
  up_eq_iff : ∀ a, p.up a = a ↔ (p.find a).2 = a
  find_mem : ∀ a < size, (p.find a).2 < size ∧ classes a (p.find a).2
  find_eq_iff : ∀ a b, (p.find a).2 = ((p.find a).1.find b).2 ↔ classes a b
  union_iff : ∀ a < size, ∀ b < size, (p.union a b).2 = true ↔ ¬ classes a b
  components_eq : p.components = Nat.card (Quotient (classes.comap (Fin.val : Fin size → Nat)))

namespace Represents

variable {ends : Nat → Nat × Nat} {pairs : Set Nat}

/-- Looking an element up changes no set and moves no representative. -/
theorem find (h : p.Represents size ends pairs) (a : Nat) :
    (p.find a).1.Represents size ends pairs ∧ ∀ b, (p.find a).1.root b = p.root b := by
  obtain ⟨hforest, hsize, hcount, hroots, hroot⟩ := h.forest.compress p.size (a := a) rfl
  refine ⟨⟨hsize.trans h.size_eq, hforest, ?_, fun b c => ?_⟩, hroot⟩
  · exact hcount.trans (h.components_eq.trans (by rw [← hroots]; rfl))
  · rw [← h.root_eq_iff, ← hroot b, ← hroot c]
    rfl

theorem keeps (h : p.Represents size ends pairs) {classes : Setoid Nat}
    (hclasses : ∀ a b, classes a b ↔ Joined ends pairs a b) : p.Keeps size classes where
  size_eq := h.size_eq
  forest := h.forest
  climbs := h.forest.climbs_root
  shortens := h.forest.shortens_find
  up_eq_iff a := (h.forest.root_eq_self_iff a).symm
  find_mem a ha := by
    have hlt := h.forest.root_lt (h.size_eq.symm ▸ ha)
    refine ⟨h.size_eq ▸ hlt, ?_⟩
    rw [hclasses, ← h.root_eq_iff]
    exact (h.forest.root_root a).symm
  find_eq_iff a b := by
    rw [hclasses, ← h.root_eq_iff, ← (h.find a).2 b]
    rfl
  union_iff a ha b hb := by
    rw [hclasses, ← h.root_eq_iff]
    obtain ⟨-, -, -, hsame, hapart⟩ := h.forest.union (h.size_eq.symm ▸ ha) (h.size_eq.symm ▸ hb)
    by_cases heq : p.root a = p.root b
    · simp [heq, (hsame heq).1]
    · simp [heq, (hapart heq).1]
  components_eq := h.components_eq_card hclasses

end Represents

def joinedPairs (calls : List Call) : Set Nat :=
  {k | Call.union k.unpair.1 k.unpair.2 ∈ calls}

theorem linked_iff (calls : List Call) (a b : Nat) :
    linked calls a b ↔ Joined Nat.unpair (joinedPairs calls) a b := by
  have hrel : (fun a b => Call.union a b ∈ calls) =
      fun a b => ∃ k ∈ joinedPairs calls, k.unpair = (a, b) := by
    funext a b
    refine propext ⟨fun hmem => ⟨Nat.pair a b, ?_, Nat.unpair_pair a b⟩, ?_⟩
    · simpa [joinedPairs] using hmem
    · rintro ⟨k, hk, hends⟩
      simpa [joinedPairs, hends] using hk
  change Relation.EqvGen (fun a b => Call.union a b ∈ calls) a b ↔ _
  rw [hrel]
  rfl

theorem joinedPairs_union (calls : List Call) (a b : Nat) :
    joinedPairs (calls ++ [.union a b]) = insert (Nat.pair a b) (joinedPairs calls) := by
  ext k
  have hk : k = Nat.pair a b ↔ k.unpair.1 = a ∧ k.unpair.2 = b := by
    rw [← Prod.mk_inj, Prod.mk.eta, ← Nat.unpair_pair a b]
    exact Nat.pairEquiv.symm.injective.eq_iff.symm
  simp [joinedPairs, hk, or_comm]

theorem joinedPairs_find (calls : List Call) (a : Nat) :
    joinedPairs (calls ++ [.find a]) = joinedPairs calls := by
  simp [joinedPairs]

theorem Represents.perform {calls : List Call}
    (h : p.Represents size Nat.unpair (joinedPairs calls)) {c : Call} (hc : c.Within size) :
    (p.perform c).Represents size Nat.unpair (joinedPairs (calls ++ [c])) := by
  cases c with
  | union a b =>
    rw [joinedPairs_union]
    exact (h.union (Nat.unpair_pair a b) hc.1 hc.2).1
  | find a =>
    rw [joinedPairs_find]
    exact (h.find a).1

theorem Represents.performAll {before calls : List Call}
    (h : p.Represents size Nat.unpair (joinedPairs before)) (hcalls : ∀ c ∈ calls, c.Within size) :
    (p.performAll calls).Represents size Nat.unpair (joinedPairs (before ++ calls)) := by
  induction calls generalizing p before with
  | nil => simpa [Partition.performAll] using h
  | cons c calls ih =>
    rw [List.append_cons]
    exact ih (h.perform (hcalls c List.mem_cons_self)) fun c' hc' =>
      hcalls c' (List.mem_cons_of_mem c hc')

theorem represents_of_calls {calls : List Call} (hstart : ofSize (size : Nat) = .ok p)
    (hcalls : ∀ c ∈ calls, c.Within size) :
    (p.performAll calls).Represents size Nat.unpair (joinedPairs calls) := by
  obtain rfl := eq_discrete_of_ofSize hstart
  have hempty : joinedPairs [] = ∅ := by simp [joinedPairs]
  exact (hempty ▸ represents_discrete size Nat.unpair).performAll hcalls

/-- After any calls the classes are what the joined pairs connect. Looking one more element up
changes no class and moves no representative. -/
theorem keeps_of_calls {calls : List Call} (hstart : ofSize (size : Nat) = .ok p)
    (hcalls : ∀ c ∈ calls, c.Within size) : (p.performAll calls).Keeps size (linked calls) ∧
      ∀ a < size, ((p.performAll calls).find a).1.Keeps size (linked calls) ∧
        ∀ b, (((p.performAll calls).find a).1.find b).2 = ((p.performAll calls).find b).2 := by
  have h := represents_of_calls hstart hcalls
  refine ⟨h.keeps (linked_iff calls), fun a _ => ?_⟩
  obtain ⟨hfind, hroot⟩ := h.find a
  exact ⟨hfind.keeps (linked_iff calls), hroot⟩

/-- Three elements of four in a row are joined, and the way of the first one is shortened. -/
theorem keeps_of_calls_row : ∃ p q : Partition, ofSize (4 : Nat) = .ok p ∧
    q = p.performAll [.union 0 1, .union 1 2, .find 0] ∧ q.parent = #[2, 2, 2, 3] ∧
      q.Keeps 4 (linked [.union 0 1, .union 1 2, .find 0]) ∧ q.components = 2 ∧
      (q.find 0).2 = 2 ∧ (q.union 0 3).2 = true := by
  obtain ⟨p, hp, hparent, hcount, hfind, hunion⟩ : ∃ p, ofSize (4 : Nat) = .ok p ∧
      (p.performAll [.union 0 1, .union 1 2, .find 0]).parent = #[2, 2, 2, 3] ∧
      (p.performAll [.union 0 1, .union 1 2, .find 0]).components = 2 ∧
      ((p.performAll [.union 0 1, .union 1 2, .find 0]).find 0).2 = 2 ∧
      ((p.performAll [.union 0 1, .union 1 2, .find 0]).union 0 3).2 = true :=
    ⟨_, rfl, rfl, rfl, rfl, rfl⟩
  have hkeeps := (keeps_of_calls hp (by simp [Call.Within] :
    ∀ c ∈ [.union 0 1, .union 1 2, .find 0], Call.Within 4 c)).1
  exact ⟨p, _, hp, rfl, hparent, hkeeps, hcount, hfind, hunion⟩

end Circulation.Partition
