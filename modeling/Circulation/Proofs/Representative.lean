import Circulation.Partition
import Circulation.Proofs.Joining
import Mathlib.Data.Finset.Card
import Mathlib.Data.Setoid.Basic
import Mathlib.SetTheory.Cardinal.Finite

/-!
Partitions keep what has been joined. Looking an element up moves no representative, and joining two
elements moves the representatives of one set to the other one. Main result: two elements have one
representative exactly if the pairs that were joined so far join them, and the number of sets is the
number of representatives.
-/

namespace Circulation.Partition

/-- Each way up stays among the elements and comes to an end. -/
structure IsForest (p : Partition) : Prop where
  bounded : ∀ a < p.size, p.up a < p.size
  grounded : ∃ height : Nat → Nat, ∀ a, p.up a ≠ a → height (p.up a) < height a

def roots (p : Partition) : Finset Nat :=
  (Finset.range p.size).filter fun a => p.up a = a

theorem mem_roots (p : Partition) (a : Nat) : a ∈ p.roots ↔ a < p.size ∧ p.up a = a := by
  simp [roots]

theorem up_of_size_le {p : Partition} {a : Nat} (h : p.size ≤ a) : p.up a = a := by
  simp only [Partition.size] at h
  simp [up, h]

theorem lt_size_of_up_ne {p : Partition} {a : Nat} (h : p.up a ≠ a) : a < p.size := by
  by_contra hsize
  exact h (up_of_size_le (by omega))

def redirect (p : Partition) (a b : Nat) : Partition :=
  { p with parent := p.parent.setIfInBounds a b }

@[simp] theorem size_redirect (p : Partition) (a b : Nat) : (p.redirect a b).size = p.size := by
  simp [redirect, Partition.size]

theorem up_redirect {p : Partition} {a : Nat} (ha : a < p.size) (b x : Nat) :
    (p.redirect a b).up x = if x = a then b else p.up x := by
  simp only [up, redirect]
  rw [Row.getD_setIfInBounds]
  simp only [Partition.size] at ha
  simp [ha]

/-- How many elements lie lower. A way has no more steps than that. -/
def countLower (p : Partition) (height : Nat → Nat) (a : Nat) : Nat :=
  ((Finset.range p.size).filter fun b => height b < height a).card

theorem countLower_le_size (p : Partition) (height : Nat → Nat) (a : Nat) :
    p.countLower height a ≤ p.size :=
  (Finset.card_filter_le _ _).trans (by simp)

@[simp] theorem countLower_redirect (p : Partition) (height : Nat → Nat) (a b x : Nat) :
    (p.redirect a b).countLower height x = p.countLower height x := by
  simp [countLower]

theorem countLower_up_lt {p : Partition} (hbound : ∀ a < p.size, p.up a < p.size)
    {height : Nat → Nat} (hheight : ∀ a, p.up a ≠ a → height (p.up a) < height a) {a : Nat}
    (h : p.up a ≠ a) : p.countLower height (p.up a) < p.countLower height a := by
  have hlower := hheight a h
  have hup : p.up a < p.size := hbound a (lt_size_of_up_ne h)
  apply Finset.card_lt_card
  rw [Finset.ssubset_iff_of_subset]
  · exact ⟨p.up a, by simpa using ⟨hup, hlower⟩, by simp⟩
  · intro b hb
    simp only [Finset.mem_filter] at hb ⊢
    exact ⟨hb.1, by omega⟩

theorem up_rootFrom {p : Partition} (hbound : ∀ a < p.size, p.up a < p.size) {height : Nat → Nat}
    (hheight : ∀ a, p.up a ≠ a → height (p.up a) < height a) (fuel a : Nat)
    (hfuel : p.countLower height a ≤ fuel) : p.up (p.rootFrom fuel a) = p.rootFrom fuel a := by
  induction fuel generalizing a with
  | zero =>
    by_contra hne
    have hless := countLower_up_lt hbound hheight hne
    simp only [rootFrom] at hless
    omega
  | succ fuel ih =>
    simp only [rootFrom]
    by_cases hfix : p.up a = a
    · simp [hfix]
    · rw [if_neg hfix]
      have hless := countLower_up_lt hbound hheight hfix
      exact ih (p.up a) (by omega)

theorem rootFrom_invariant {α : Type} (p : Partition) (value : Nat → α)
    (hup : ∀ a, value (p.up a) = value a) (fuel a : Nat) :
    value (p.rootFrom fuel a) = value a := by
  induction fuel generalizing a with
  | zero => rfl
  | succ fuel ih =>
    simp only [rootFrom]
    by_cases hfix : p.up a = a
    · rw [if_pos hfix]
    · rw [if_neg hfix, ih, hup]

theorem rootFrom_of_up_eq {p : Partition} {a : Nat} (h : p.up a = a) (fuel : Nat) :
    p.rootFrom fuel a = a := by
  cases fuel with
  | zero => rfl
  | succ fuel => simp [rootFrom, h]

theorem root_count (p : Partition) (count : Int) (a : Nat) :
    ({ p with components := count } : Partition).root a = p.root a := by
  have hfrom : ∀ fuel a, ({ p with components := count } : Partition).rootFrom fuel a =
      p.rootFrom fuel a := by
    intro fuel
    induction fuel with
    | zero => exact fun _ => rfl
    | succ fuel ih =>
      intro a
      simp only [rootFrom]
      rw [ih]
      rfl
  exact hfrom p.size a

theorem rootFrom_lt {p : Partition} (hbound : ∀ a < p.size, p.up a < p.size) (fuel : Nat) {a : Nat}
    (ha : a < p.size) : p.rootFrom fuel a < p.size := by
  induction fuel generalizing a with
  | zero => exact ha
  | succ fuel ih =>
    simp only [rootFrom]
    by_cases hfix : p.up a = a
    · simpa [hfix] using ha
    · rw [if_neg hfix]
      exact ih (hbound a ha)

theorem rootFrom_succ_of_up_ne {p : Partition} {a : Nat} (h : p.up a ≠ a) (fuel : Nat) :
    p.rootFrom (fuel + 1) a = p.rootFrom fuel (p.up a) := by
  conv_lhs => unfold rootFrom
  rw [if_neg h]

theorem rootFrom_succ_of_fixed {p : Partition} (fuel a : Nat)
    (h : p.up (p.rootFrom fuel a) = p.rootFrom fuel a) :
    p.rootFrom (fuel + 1) a = p.rootFrom fuel a := by
  induction fuel generalizing a with
  | zero => exact rootFrom_of_up_eq h 1
  | succ fuel ih =>
    by_cases hfix : p.up a = a
    · rw [rootFrom_of_up_eq hfix, rootFrom_of_up_eq hfix]
    · rw [rootFrom_succ_of_up_ne hfix, rootFrom_succ_of_up_ne hfix]
      rw [rootFrom_succ_of_up_ne hfix] at h
      exact ih (p.up a) h

theorem height_rootFrom_le {p : Partition} {height : Nat → Nat}
    (hheight : ∀ a, p.up a ≠ a → height (p.up a) < height a) (fuel a : Nat) :
    height (p.rootFrom fuel a) ≤ height a := by
  induction fuel generalizing a with
  | zero => rfl
  | succ fuel ih =>
    by_cases hfix : p.up a = a
    · rw [rootFrom_of_up_eq hfix]
    · rw [rootFrom_succ_of_up_ne hfix]
      exact (ih (p.up a)).trans (hheight a hfix).le

namespace IsForest

variable {p : Partition}

theorem up_root (h : p.IsForest) (a : Nat) : p.up (p.root a) = p.root a := by
  obtain ⟨height, hheight⟩ := h.grounded
  exact up_rootFrom h.bounded hheight p.size a (p.countLower_le_size height a)

theorem root_lt (h : p.IsForest) {a : Nat} (ha : a < p.size) : p.root a < p.size :=
  rootFrom_lt h.bounded p.size ha

theorem root_eq_self_iff (h : p.IsForest) (a : Nat) : p.root a = a ↔ p.up a = a := by
  constructor
  · intro hroot
    have hup := h.up_root a
    rwa [hroot] at hup
  · intro hup
    exact rootFrom_of_up_eq hup p.size

@[simp] theorem root_root (h : p.IsForest) (a : Nat) : p.root (p.root a) = p.root a :=
  (h.root_eq_self_iff _).mpr (h.up_root a)

theorem root_eq_of_invariant (h : p.IsForest) (value : Nat → Nat)
    (hup : ∀ a, value (p.up a) = value a) (hfix : ∀ a, p.up a = a → value a = a) (a : Nat) :
    p.root a = value a := by
  have hsame : value (p.root a) = value a := rootFrom_invariant p value hup p.size a
  rw [← hsame, hfix _ (h.up_root a)]

theorem root_up (h : p.IsForest) (a : Nat) : p.root (p.up a) = p.root a := by
  by_cases hfix : p.up a = a
  · rw [hfix]
  · simp only [root]
    rw [← rootFrom_succ_of_up_ne hfix, rootFrom_succ_of_fixed _ _ (h.up_root a)]

/-- Heights that fall along each way keep falling if an element points to its representative. -/
theorem height_redirect_root (h : p.IsForest) {height : Nat → Nat}
    (hheight : ∀ a, p.up a ≠ a → height (p.up a) < height a) {a : Nat} (hfix : p.up a ≠ a) (x : Nat)
    (hx : (p.redirect a (p.root a)).up x ≠ x) :
    height ((p.redirect a (p.root a)).up x) < height x := by
  rw [up_redirect (lt_size_of_up_ne hfix)] at hx ⊢
  by_cases hxa : x = a
  · subst hxa
    rw [if_pos rfl, ← h.root_up]
    exact (height_rootFrom_le hheight p.size (p.up x)).trans_lt (hheight x hfix)
  · simp only [if_neg hxa] at hx ⊢
    exact hheight x hx

theorem redirect_root (h : p.IsForest) {a : Nat} (hne : p.up a ≠ p.root a) :
    (p.redirect a (p.root a)).IsForest ∧ (p.redirect a (p.root a)).roots = p.roots ∧
      ∀ x, (p.redirect a (p.root a)).root x = p.root x := by
  have hfix : p.up a ≠ a := by
    intro hfix
    exact hne (by rw [hfix, (h.root_eq_self_iff a).mpr hfix])
  have ha := lt_size_of_up_ne hfix
  have hroot : p.root a ≠ a := fun hroot => hfix ((h.root_eq_self_iff a).mp hroot)
  have hforest : (p.redirect a (p.root a)).IsForest := by
    constructor
    · intro x hx
      rw [size_redirect] at hx ⊢
      rw [up_redirect ha]
      split
      · exact h.root_lt ha
      · exact h.bounded x hx
    · obtain ⟨height, hheight⟩ := h.grounded
      exact ⟨height, h.height_redirect_root hheight hfix⟩
  refine ⟨hforest, ?_, ?_⟩
  · ext x
    rw [mem_roots, mem_roots, size_redirect, up_redirect ha]
    by_cases hxa : x = a
    · subst hxa
      simp [hroot, hfix]
    · simp [hxa]
  · apply hforest.root_eq_of_invariant p.root
    · intro x
      rw [up_redirect ha]
      by_cases hxa : x = a
      · subst hxa
        simp [h]
      · rw [if_neg hxa, h.root_up]
    · intro x hx
      rw [up_redirect ha] at hx
      by_cases hxa : x = a
      · subst hxa
        simp only [if_true] at hx
        exact hx
      · rw [if_neg hxa] at hx
        exact (h.root_eq_self_iff x).mpr hx

theorem compress (h : p.IsForest) {a : Nat} (fuel : Nat) {end' : Nat} (hend : p.root a = end') :
    (Partition.compress end' fuel p a).IsForest ∧
      (Partition.compress end' fuel p a).size = p.size ∧
      (Partition.compress end' fuel p a).components = p.components ∧
      (Partition.compress end' fuel p a).roots = p.roots ∧
      ∀ x, (Partition.compress end' fuel p a).root x = p.root x := by
  induction fuel generalizing p a with
  | zero => exact ⟨h, rfl, rfl, rfl, fun _ => rfl⟩
  | succ fuel ih =>
    simp only [Partition.compress]
    by_cases hup : p.up a = end'
    · rw [if_pos hup]
      exact ⟨h, rfl, rfl, rfl, fun _ => rfl⟩
    · rw [if_neg hup]
      subst hend
      obtain ⟨hforest, hroots, hroot⟩ := h.redirect_root hup
      have hnext : (p.redirect a (p.root a)).root (p.up a) = p.root a := by
        rw [hroot, h.root_up]
      obtain ⟨hforest', hsize, hcount, hroots', hroot'⟩ := ih hforest hnext
      refine ⟨hforest', hsize.trans (size_redirect _ _ _), hcount, hroots'.trans hroots, ?_⟩
      intro x
      exact (hroot' x).trans (hroot x)

theorem redirect_join (h : p.IsForest) {a b : Nat} (ha : a < p.size) (hb : b < p.size)
    (hroota : p.up a = a) (hrootb : p.up b = b) (hne : a ≠ b) :
    (p.redirect a b).IsForest ∧ (p.redirect a b).roots = p.roots.erase a ∧
      ∀ x, (p.redirect a b).root x = if p.root x = a then b else p.root x := by
  have hselfa : p.root a = a := (h.root_eq_self_iff a).mpr hroota
  have hselfb : p.root b = b := (h.root_eq_self_iff b).mpr hrootb
  have hforest : (p.redirect a b).IsForest := by
    constructor
    · intro x hx
      rw [size_redirect] at hx ⊢
      rw [up_redirect ha]
      split
      · exact hb
      · exact h.bounded x hx
    · -- the set of `a` is lifted above `b`
      obtain ⟨height, hheight⟩ := h.grounded
      refine ⟨fun x => if p.root x = a then height x + height b + 1 else height x, fun x hx => ?_⟩
      rw [up_redirect ha] at hx ⊢
      by_cases hxa : x = a
      · subst hxa
        simp only [if_true, hselfa, hselfb, if_neg hne.symm]
        omega
      · simp only [if_neg hxa] at hx ⊢
        have hlower := hheight x hx
        simp only [h.root_up]
        split <;> omega
  refine ⟨hforest, ?_, ?_⟩
  · ext x
    rw [Finset.mem_erase, mem_roots, mem_roots, size_redirect, up_redirect ha]
    by_cases hxa : x = a
    · subst hxa
      simp [hne.symm]
    · simp [hxa]
  · apply hforest.root_eq_of_invariant fun x => if p.root x = a then b else p.root x
    · intro x
      rw [up_redirect ha]
      by_cases hxa : x = a
      · subst hxa
        simp [hselfa, hselfb, hne.symm]
      · simp only [if_neg hxa, h.root_up]
    · intro x hx
      rw [up_redirect ha] at hx
      by_cases hxa : x = a
      · subst hxa
        simp only [if_true] at hx
        exact absurd hx.symm hne
      · rw [if_neg hxa] at hx
        have hself : p.root x = x := (h.root_eq_self_iff x).mpr hx
        simp [hself, hxa]

theorem union (h : p.IsForest) {a b : Nat} (ha : a < p.size) (hb : b < p.size) :
    (p.union a b).1.IsForest ∧ (p.union a b).1.size = p.size ∧
      (∀ x, (p.union a b).1.root x = if p.root x = p.root a then p.root b else p.root x) ∧
      (p.root a = p.root b → (p.union a b).2 = false ∧ (p.union a b).1.roots = p.roots ∧
        (p.union a b).1.components = p.components) ∧
      (p.root a ≠ p.root b → (p.union a b).2 = true ∧
        (p.union a b).1.roots = p.roots.erase (p.root a) ∧
        (p.union a b).1.components = p.components - 1) := by
  obtain ⟨hf, hsize, hcount, hroots, hroot⟩ := h.compress p.size (a := a) rfl
  obtain ⟨hf', hsize', hcount', hroots', hroot'⟩ :=
    hf.compress (Partition.compress (p.root a) p.size p a).size (a := b) rfl
  generalize hp1 : Partition.compress (p.root a) p.size p a = p₁ at *
  generalize hp2 : Partition.compress (p₁.root b) p₁.size p₁ b = p₂ at *
  have hpair : p.union a b = if p.root a = p₁.root b then (p₂, false)
      else (⟨p₂.parent.setIfInBounds (p.root a) (p₁.root b), p₂.components - 1⟩, true) := by
    simp only [Partition.union, find]
    simp only [hp1, hp2]
  have hrootall : ∀ x, p₂.root x = p.root x := fun x => (hroot' x).trans (hroot x)
  rw [hroot] at hpair
  by_cases hsame : p.root a = p.root b
  · rw [if_pos hsame] at hpair
    rw [hpair]
    refine ⟨hf', hsize'.trans hsize, ?_, fun _ => ⟨rfl, hroots'.trans hroots, hcount'.trans hcount⟩,
      fun hne => absurd hsame hne⟩
    intro x
    rw [hrootall]
    split
    · rename_i hx
      rw [hx, hsame]
    · rfl
  · rw [if_neg hsame] at hpair
    have hfixa : p₂.up (p.root a) = p.root a := by
      rw [← hrootall a]
      exact hf'.up_root a
    have hfixb : p₂.up (p.root b) = p.root b := by
      rw [← hrootall b]
      exact hf'.up_root b
    have hlta : p.root a < p₂.size := by
      rw [hsize', hsize]
      exact h.root_lt ha
    have hltb : p.root b < p₂.size := by
      rw [hsize', hsize]
      exact h.root_lt hb
    obtain ⟨hjoin, hjoinroots, hjoinroot⟩ := hf'.redirect_join hlta hltb hfixa hfixb hsame
    rw [hpair]
    refine ⟨⟨hjoin.bounded, hjoin.grounded⟩, ?_, ?_, fun heq => absurd heq hsame,
      fun _ => ⟨rfl, ?_, ?_⟩⟩
    · exact (size_redirect p₂ _ _).trans (hsize'.trans hsize)
    · intro x
      rw [← hrootall x]
      exact (root_count (p₂.redirect _ _) _ x).trans (hjoinroot x)
    · rw [← hroots, ← hroots']
      exact hjoinroots
    · simp only [hcount', hcount]

end IsForest

/-- The sets of a partition are what the given pairs join. -/
structure Represents (p : Partition) (nodeCount : Nat) (ends : Nat → Nat × Nat)
    (pairs : Set Nat) : Prop where
  size_eq : p.size = nodeCount
  forest : p.IsForest
  components_eq : p.components = p.roots.card
  root_eq_iff : ∀ a b, p.root a = p.root b ↔ Joined ends pairs a b

theorem isForest_discrete (nodeCount : Nat) : (discrete nodeCount).IsForest := by
  constructor
  · intro a ha
    simpa using ha
  · exact ⟨fun _ => 0, fun a ha => absurd (up_discrete nodeCount a) ha⟩

theorem represents_discrete (nodeCount : Nat) (ends : Nat → Nat × Nat) :
    (discrete nodeCount).Represents nodeCount ends ∅ where
  size_eq := size_discrete nodeCount
  forest := isForest_discrete nodeCount
  components_eq := by
    have hall : (discrete nodeCount).roots = Finset.range nodeCount := by
      simp only [roots]
      rw [size_discrete, Finset.filter_true_of_mem fun a _ => up_discrete nodeCount a]
    rw [hall, Finset.card_range]
    rfl
  root_eq_iff a b := by
    have hself : ∀ x, (discrete nodeCount).root x = x := fun x =>
      ((isForest_discrete nodeCount).root_eq_self_iff x).mpr (up_discrete nodeCount x)
    rw [hself, hself]
    constructor
    · intro h
      rw [h]
      exact Joined.refl b
    · exact fun h => h.value_eq id (by simp)

namespace Represents

variable {p : Partition} {nodeCount : Nat} {ends : Nat → Nat × Nat} {pairs : Set Nat}

theorem root_mem_roots (h : p.Represents nodeCount ends pairs) {a : Nat} (ha : a < nodeCount) :
    p.root a ∈ p.roots := by
  rw [mem_roots]
  exact ⟨h.forest.root_lt (by rwa [h.size_eq]), h.forest.up_root a⟩

theorem root_eq_of_mem_roots (h : p.Represents nodeCount ends pairs) {a : Nat} (ha : a ∈ p.roots) :
    a < nodeCount ∧ p.root a = a := by
  rw [mem_roots, h.size_eq] at ha
  exact ⟨ha.1, (h.forest.root_eq_self_iff a).mpr ha.2⟩

theorem components_eq_card (h : p.Represents nodeCount ends pairs) {classes : Setoid Nat}
    (hclasses : ∀ a b, classes a b ↔ Joined ends pairs a b) :
    p.components = Nat.card (Quotient (classes.comap (Fin.val : Fin nodeCount → Nat))) := by
  let find : Fin nodeCount → p.roots := fun a => ⟨p.root a, h.root_mem_roots a.isLt⟩
  have hfind : Function.Surjective find := by
    rintro ⟨x, hx⟩
    obtain ⟨hlt, hself⟩ := h.root_eq_of_mem_roots hx
    exact ⟨⟨x, hlt⟩, Subtype.ext hself⟩
  have hsame : classes.comap (Fin.val : Fin nodeCount → Nat) = Setoid.ker find := by
    refine Setoid.ext fun a b => ?_
    rw [Setoid.ker_def, Subtype.ext_iff, h.root_eq_iff, ← hclasses]
    rfl
  rw [h.components_eq, hsame, Nat.card_congr (Setoid.quotientKerEquivOfSurjective find hfind),
    Nat.card_eq_fintype_card, Fintype.card_coe]

/-- After a union the sets are what one more pair joins. -/
theorem root_union_iff (h : p.Represents nodeCount ends pairs) {k a b : Nat} (hk : ends k = (a, b))
    (ha : a < nodeCount) (hb : b < nodeCount) (x y : Nat) :
    (p.union a b).1.root x = (p.union a b).1.root y ↔ Joined ends (insert k pairs) x y := by
  obtain ⟨-, -, hroot, -, -⟩ := h.forest.union (by rwa [h.size_eq] : a < p.size)
    (by rwa [h.size_eq] : b < p.size)
  constructor
  · intro hxy
    have hnew : Joined ends (insert k pairs) a b := by
      have hmem : Joined ends (insert k pairs) (ends k).1 (ends k).2 :=
        Joined.of_mem (Set.mem_insert k pairs)
      rwa [hk] at hmem
    have hold : ∀ {u v}, p.root u = p.root v → Joined ends (insert k pairs) u v :=
      fun huv => ((h.root_eq_iff _ _).mp huv).mono (Set.subset_insert k pairs)
    rw [hroot, hroot] at hxy
    split at hxy
    · rename_i hx
      split at hxy
      · rename_i hy
        exact hold (hx.trans hy.symm)
      · exact (hold hx).trans (hnew.trans (hold hxy))
    · split at hxy
      · rename_i hy
        exact (hold hxy).trans (hnew.symm.trans (hold hy).symm)
      · exact hold hxy
  · intro hxy
    refine hxy.value_eq (p.union a b).1.root fun l hl => ?_
    rw [hroot, hroot]
    cases hl with
    | inl heq =>
      rw [heq, hk]
      simp
    | inr hmem => rw [(h.root_eq_iff _ _).mpr (Joined.of_mem hmem)]

theorem union (h : p.Represents nodeCount ends pairs) {k a b : Nat} (hk : ends k = (a, b))
    (ha : a < nodeCount) (hb : b < nodeCount) :
    (p.union a b).1.Represents nodeCount ends (insert k pairs) ∧
      ((p.union a b).2 = true ↔ ¬ Joined ends pairs a b) ∧
      (p.union a b).1.components = p.components - if (p.union a b).2 then 1 else 0 := by
  have ha' : a < p.size := by rwa [h.size_eq]
  have hb' : b < p.size := by rwa [h.size_eq]
  obtain ⟨hforest, hsize, -, hsame, hapart⟩ := h.forest.union ha' hb'
  have hjoined := h.root_eq_iff a b
  have hrootiff := h.root_union_iff hk ha hb
  by_cases heq : p.root a = p.root b
  · obtain ⟨hflag, hroots, hcount⟩ := hsame heq
    refine ⟨⟨hsize.trans h.size_eq, hforest, ?_, hrootiff⟩, ?_, ?_⟩
    · rw [hcount, hroots, h.components_eq]
    · simp [hflag, hjoined.mp heq]
    · simp [hflag, hcount]
  · obtain ⟨hflag, hroots, hcount⟩ := hapart heq
    have hmem : p.root a ∈ p.roots := h.root_mem_roots ha
    refine ⟨⟨hsize.trans h.size_eq, hforest, ?_, hrootiff⟩, ?_, ?_⟩
    · have hpos := Finset.card_pos.mpr ⟨_, hmem⟩
      rw [hcount, hroots, h.components_eq, Finset.card_erase_of_mem hmem]
      omega
    · simpa [hflag] using fun hjoin => heq (hjoined.mpr hjoin)
    · simp [hflag, hcount]

theorem components_eq_one_iff (h : p.Represents nodeCount ends pairs) (hpos : 0 < nodeCount) :
    p.components = 1 ↔ ∀ a < nodeCount, ∀ b < nodeCount, Joined ends pairs a b := by
  have hcard : p.components = 1 ↔ p.roots.card = 1 := by
    rw [h.components_eq]
    omega
  rw [hcard, Finset.card_eq_one]
  constructor
  · rintro ⟨r, hr⟩ a ha b hb
    have hra := h.root_mem_roots ha
    have hrb := h.root_mem_roots hb
    rw [hr, Finset.mem_singleton] at hra hrb
    exact (h.root_eq_iff a b).mp (hra.trans hrb.symm)
  · intro hall
    refine ⟨p.root 0, Finset.eq_singleton_iff_unique_mem.mpr ⟨h.root_mem_roots hpos, ?_⟩⟩
    intro x hx
    obtain ⟨hlt, hself⟩ := h.root_eq_of_mem_roots hx
    rw [← (h.root_eq_iff x 0).mpr (hall x hlt 0 hpos), hself]

end Represents

end Circulation.Partition
