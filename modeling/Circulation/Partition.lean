import Circulation.Row

/-!
Sets of elements that have been joined. Each element points toward the representative of its set;
looking one up shortens the way of the elements passed.
-/

namespace Circulation

/-- A partition of `0, …, size - 1` as a forest. A representative points to itself. -/
structure Partition where
  parent : Array Nat
  /-- The number of sets. -/
  components : Int
deriving Repr

namespace Partition

def discrete (size : Nat) : Partition :=
  ⟨Array.range size, size⟩

/-- All elements apart, as many as a caller says. A negative number stands for no elements, but it
is kept as the number of sets. -/
def ofSize (size : Int) : Except Fault Partition := do
  Row.checkRoom Row.placeLimit size
  return ⟨Array.range size.toNat, size⟩

theorem eq_discrete_of_ofSize {size : Nat} {p : Partition} (h : ofSize size = .ok p) :
    p = discrete size := by
  unfold ofSize at h
  cases hroom : Row.checkRoom Row.placeLimit size with
  | error fault =>
    rw [hroom] at h
    cases h
  | ok _ =>
    rw [hroom] at h
    cases h
    simp [discrete]

def size (p : Partition) : Nat := p.parent.size

def up (p : Partition) (a : Nat) : Nat := p.parent.getD a a

@[simp] theorem size_discrete (size : Nat) : (discrete size).size = size := by
  simp [discrete, Partition.size]

@[simp] theorem up_discrete (size a : Nat) : (discrete size).up a = a := by
  unfold discrete up
  by_cases h : a < size <;> simp [Array.getD_eq_getD_getElem?, h]

/-- The end of the way from `a`. The way passes each element at most once. -/
def rootFrom (p : Partition) : Nat → Nat → Nat
  | 0, a => a
  | fuel + 1, a => if p.up a = a then a else p.rootFrom fuel (p.up a)

def root (p : Partition) (a : Nat) : Nat :=
  p.rootFrom p.size a

def compress (root : Nat) : Nat → Partition → Nat → Partition
  | 0, p, _ => p
  | fuel + 1, p, a =>
    if p.up a = root then p
    else compress root fuel { p with parent := p.parent.setIfInBounds a root } (p.up a)

def find (p : Partition) (a : Nat) : Partition × Nat :=
  (compress (p.root a) p.size p a, p.root a)

/-- Joins the sets of `a` and `b`. The answer is whether they were apart. -/
def union (p : Partition) (a b : Nat) : Partition × Bool :=
  let (p, rootA) := p.find a
  let (p, rootB) := p.find b
  if rootA = rootB then (p, false)
  else (⟨p.parent.setIfInBounds rootA rootB, p.components - 1⟩, true)

end Partition

end Circulation
