import Mathlib.Order.BooleanAlgebra.Set
import Mathlib.Logic.Relation

/-!
Nodes that pairs of arcs join, and sets of pairs that form a spanning tree. A spanning tree joins
all nodes, and none of its pairs joins what the others join already. Main result: a pair of the tree
makes room for another one if the other one closes a cycle through it.
-/

namespace Circulation

variable {ends ends' : Nat → Nat × Nat} {pairs more : Set Nat}

/-- Nodes that are joined by pairs, whichever way these run. -/
def Joined (ends : Nat → Nat × Nat) (pairs : Set Nat) : Nat → Nat → Prop :=
  Relation.EqvGen fun a b => ∃ k ∈ pairs, ends k = (a, b)

namespace Joined

theorem refl (a : Nat) : Joined ends pairs a a := Relation.EqvGen.refl a

theorem symm {a b : Nat} (h : Joined ends pairs a b) : Joined ends pairs b a :=
  Relation.EqvGen.symm a b h

theorem trans {a b c : Nat} (h : Joined ends pairs a b) (h' : Joined ends pairs b c) :
    Joined ends pairs a c :=
  Relation.EqvGen.trans a b c h h'

theorem of_mem {k : Nat} (h : k ∈ pairs) : Joined ends pairs (ends k).1 (ends k).2 :=
  Relation.EqvGen.rel _ _ ⟨k, h, rfl⟩

theorem lift (related : Nat → Nat → Prop) (hequiv : Equivalence related)
    (hpairs : ∀ k ∈ pairs, related (ends k).1 (ends k).2) {a b : Nat}
    (h : Joined ends pairs a b) : related a b := by
  induction h with
  | rel a b hrel =>
    obtain ⟨k, hk, hends⟩ := hrel
    simpa [hends] using hpairs k hk
  | refl a => exact hequiv.refl a
  | symm a b _ ih => exact hequiv.symm ih
  | trans a b c _ _ ih ih' => exact hequiv.trans ih ih'

theorem value_eq {α : Type} (value : Nat → α)
    (hpairs : ∀ k ∈ pairs, value (ends k).1 = value (ends k).2) {a b : Nat}
    (h : Joined ends pairs a b) : value a = value b :=
  h.lift (fun a b => value a = value b) ⟨fun _ => rfl, Eq.symm, Eq.trans⟩ hpairs

theorem equivalence (ends : Nat → Nat × Nat) (pairs : Set Nat) :
    Equivalence (Joined ends pairs) :=
  ⟨refl, symm, trans⟩

theorem absorb (hpairs : ∀ k ∈ pairs, Joined ends' more (ends k).1 (ends k).2) {a b : Nat}
    (h : Joined ends pairs a b) : Joined ends' more a b :=
  lift (Joined ends' more) (equivalence ends' more) hpairs h

theorem mono (hsub : pairs ⊆ more) {a b : Nat} (h : Joined ends pairs a b) :
    Joined ends more a b :=
  absorb (fun _ hk => of_mem (hsub hk)) h

theorem congr (hends : ∀ k ∈ pairs, ends k = ends' k) {a b : Nat} (h : Joined ends pairs a b) :
    Joined ends' pairs a b :=
  absorb (fun k hk => by rw [hends k hk]; exact of_mem hk) h

/-- A way that another pair opens passes through it at most once, in one of two directions. -/
theorem of_insert {k a b : Nat} (h : Joined ends (insert k pairs) a b) :
    Joined ends pairs a b ∨
      (Joined ends pairs a (ends k).1 ∧ Joined ends pairs (ends k).2 b) ∨
      (Joined ends pairs a (ends k).2 ∧ Joined ends pairs (ends k).1 b) := by
  induction h with
  | rel a b hrel =>
    obtain ⟨l, hl, hends⟩ := hrel
    cases hl with
    | inl hl =>
      rw [hl] at hends
      right; left
      simp only [hends]
      exact ⟨refl a, refl b⟩
    | inr hl =>
      left
      have hjoined : Joined ends pairs (ends l).1 (ends l).2 := of_mem hl
      simpa [hends] using hjoined
  | refl a => exact Or.inl (refl a)
  | symm a b _ ih =>
    rcases ih with h | ⟨h, h'⟩ | ⟨h, h'⟩
    · exact Or.inl h.symm
    · exact Or.inr (Or.inr ⟨h'.symm, h.symm⟩)
    · exact Or.inr (Or.inl ⟨h'.symm, h.symm⟩)
  | trans a b c _ _ ih ih' =>
    rcases ih with h | ⟨h, h'⟩ | ⟨h, h'⟩
    · rcases ih' with j | ⟨j, j'⟩ | ⟨j, j'⟩
      · exact Or.inl (h.trans j)
      · exact Or.inr (Or.inl ⟨h.trans j, j'⟩)
      · exact Or.inr (Or.inr ⟨h.trans j, j'⟩)
    · rcases ih' with j | ⟨_, j'⟩ | ⟨_, j'⟩
      · exact Or.inr (Or.inl ⟨h, h'.trans j⟩)
      · exact Or.inr (Or.inl ⟨h, j'⟩)
      · exact Or.inl (h.trans j')
    · rcases ih' with j | ⟨_, j'⟩ | ⟨_, j'⟩
      · exact Or.inr (Or.inr ⟨h, h'.trans j⟩)
      · exact Or.inl (h.trans j')
      · exact Or.inr (Or.inr ⟨h, j'⟩)

theorem ends_of_insert {k a b : Nat} (h : Joined ends (insert k pairs) a b)
    (hapart : ¬ Joined ends pairs a b) (hmore : pairs ⊆ more) (hab : Joined ends more a b) :
    Joined ends more (ends k).1 (ends k).2 := by
  rcases of_insert h with h | ⟨h, h'⟩ | ⟨h, h'⟩
  · exact absurd h hapart
  · exact (h.mono hmore).symm.trans (hab.trans (h'.mono hmore).symm)
  · exact (h'.mono hmore).trans (hab.symm.trans (h.mono hmore))

end Joined

/-- Pairs none of which joins what the others join. -/
def Acyclic (ends : Nat → Nat × Nat) (pairs : Set Nat) : Prop :=
  ∀ k ∈ pairs, ¬ Joined ends (pairs \ {k}) (ends k).1 (ends k).2

theorem acyclic_empty (ends : Nat → Nat × Nat) : Acyclic ends ∅ := by
  simp [Acyclic]

namespace Acyclic

theorem congr (h : Acyclic ends pairs) (hends : ∀ k ∈ pairs, ends k = ends' k) :
    Acyclic ends' pairs := by
  intro k hk hjoined
  rw [← hends k hk] at hjoined
  exact h k hk (hjoined.congr fun l hl => (hends l hl.1).symm)

theorem insert (h : Acyclic ends pairs) {k : Nat}
    (hapart : ¬ Joined ends pairs (ends k).1 (ends k).2) : Acyclic ends (insert k pairs) := by
  intro l hl hjoined
  by_cases hlk : l = k
  · subst hlk
    exact hapart (hjoined.mono fun j hj => hj.1.resolve_left hj.2)
  · have hlpairs := hl.resolve_left hlk
    have hsub : Insert.insert k pairs \ {l} ⊆ Insert.insert k (pairs \ {l}) := by
      rintro j ⟨hj, hjl⟩
      cases hj with
      | inl hj => exact Or.inl hj
      | inr hj => exact Or.inr ⟨hj, hjl⟩
    exact hapart ((hjoined.mono hsub).ends_of_insert (h l hlpairs) Set.sdiff_subset
      (Joined.of_mem hlpairs))

theorem sdiff (h : Acyclic ends pairs) (k : Nat) : Acyclic ends (pairs \ {k}) := by
  intro l hl hjoined
  exact h l hl.1 (hjoined.mono (Set.sdiff_subset_sdiff_left Set.sdiff_subset))

end Acyclic

/-- Pairs that join all nodes, none of which joins what the others join. -/
structure IsSpanningTree (nodeCount : Nat) (ends : Nat → Nat × Nat) (pairs : Set Nat) : Prop where
  connected : ∀ a < nodeCount, ∀ b < nodeCount, Joined ends pairs a b
  acyclic : Acyclic ends pairs

namespace IsSpanningTree

variable {nodeCount entering leaving : Nat}

theorem no_loop (h : IsSpanningTree nodeCount ends pairs) {k : Nat} (hk : k ∈ pairs) :
    (ends k).1 ≠ (ends k).2 := by
  intro hloop
  apply h.acyclic k hk
  rw [hloop]
  exact Joined.refl _

theorem congr (h : IsSpanningTree nodeCount ends pairs) (hends : ∀ k ∈ pairs, ends k = ends' k) :
    IsSpanningTree nodeCount ends' pairs where
  connected a ha b hb := (h.connected a ha b hb).congr hends
  acyclic := h.acyclic.congr hends

theorem eq_of_subset {more : Set Nat} (h : IsSpanningTree nodeCount ends pairs)
    (hacyclic : Acyclic ends more) (hsub : pairs ⊆ more)
    (hends : ∀ k ∈ more, (ends k).1 < nodeCount ∧ (ends k).2 < nodeCount) : more = pairs := by
  refine Set.Subset.antisymm (fun k hk => ?_) hsub
  by_contra hnot
  obtain ⟨hfirst, hlast⟩ := hends k hk
  have hrest : pairs ⊆ more \ {k} := fun l hl => ⟨hsub hl, fun hlk => hnot (hlk ▸ hl)⟩
  exact hacyclic k hk ((h.connected _ hfirst _ hlast).mono hrest)

/-- A pair can take the place of another one if only that one joins its ends. -/
theorem exchange (h : IsSpanningTree nodeCount ends pairs) (hout : leaving ∈ pairs)
    (hfirst : (ends entering).1 < nodeCount) (hlast : (ends entering).2 < nodeCount)
    (hapart : ¬ Joined ends (pairs \ {leaving}) (ends entering).1 (ends entering).2) :
    IsSpanningTree nodeCount ends (insert entering (pairs \ {leaving})) := by
  have hrest : insert leaving (pairs \ {leaving}) = pairs := Set.insert_sdiff_self_of_mem hout
  have hback : Joined ends (insert entering (pairs \ {leaving})) (ends leaving).1
      (ends leaving).2 := by
    have hjoined := h.connected _ hfirst _ hlast
    rw [← hrest] at hjoined
    exact hjoined.ends_of_insert hapart (Set.subset_insert _ _)
      (Joined.of_mem (Set.mem_insert _ _))
  constructor
  · intro a ha b hb
    refine (h.connected a ha b hb).absorb fun k hk => ?_
    by_cases hleaving : k = leaving
    · subst k
      exact hback
    · exact Joined.of_mem (Set.mem_insert_of_mem _ ⟨hk, hleaving⟩)
  · exact (h.acyclic.sdiff leaving).insert hapart

end IsSpanningTree

end Circulation
