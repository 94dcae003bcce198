/-
Disjoint sets of texts.

Every text in a set has a number, given out in order.  A forest links each number to one that
is no larger; a number linked to itself is the root of its tree, and stands for its set.
Following links therefore comes to an end, at the smallest number of the set.
-/
import Std.Data.TreeMap

namespace AlgebraTutor

/-- Links from numbers to numbers that are no larger.  A number without a link is linked to
itself. -/
structure Forest where
  links : Array Nat
  link_le : ∀ i, links.getD i i ≤ i

namespace Forest

/-- The forest without links. -/
def empty : Forest := ⟨#[], fun i => by simp⟩

instance : Inhabited Forest := ⟨empty⟩

/-- The number that a number is linked to. -/
def link (f : Forest) (i : Nat) : Nat := f.links.getD i i

/-- The root of the tree of a number. -/
def root (f : Forest) (i : Nat) : Nat :=
  if f.link i = i then i else f.root (f.link i)
termination_by i
decreasing_by exact Nat.lt_of_le_of_ne (f.link_le i) (by assumption)

/-- The numbers on the way from a number to its root, without the root. -/
def trail (f : Forest) (i : Nat) : List Nat :=
  if f.link i = i then [] else i :: f.trail (f.link i)
termination_by i
decreasing_by exact Nat.lt_of_le_of_ne (f.link_le i) (by assumption)

/-- The forest with one more number, linked to itself. -/
def grow (f : Forest) : Forest where
  links := f.links.push f.links.size
  link_le i := by
    have h := f.link_le i
    simp only [Array.getD_eq_getD_getElem?, Array.getElem?_push] at *
    split
    · simp_all
    · exact h

/-- The forest with the number `i` linked to a smaller number. -/
def relink (f : Forest) (i target : Nat) (h : target ≤ i) : Forest where
  links := f.links.setIfInBounds i target
  link_le j := by
    have hj := f.link_le j
    simp only [Array.getD_eq_getD_getElem?, Array.getElem?_setIfInBounds] at *
    split
    · subst_vars; split <;> simp_all
    · exact hj

/-- The forest with each of the numbers linked to the target, if that is no larger. -/
def relinkAll (target : Nat) (f : Forest) (numbers : List Nat) : Forest :=
  numbers.foldl (fun f i => if h : target ≤ i then f.relink i target h else f) f

/-- The forest with every number on the way from `i` linked to the root directly. -/
def compress (f : Forest) (i : Nat) : Forest := f.relinkAll (f.root i) (f.trail i)

end Forest

/-- Sets of texts that have no member in common. -/
structure DisjointSet where
  numbers : Std.TreeMap String Nat
  forest : Forest

namespace DisjointSet

/-- No sets. -/
def empty : DisjointSet := ⟨∅, .empty⟩

instance : Inhabited DisjointSet := ⟨empty⟩

/-- The number of the text's set. -/
def find (d : DisjointSet) (number : Nat) : Nat := d.forest.root number

/-- The number of a text, which gets the next free one if it has none. -/
def number (d : DisjointSet) (text : String) : Nat × DisjointSet :=
  match d.numbers[text]? with
  | some n => (n, d)
  | none =>
      let n := d.forest.links.size
      (n, ⟨d.numbers.insert text n, d.forest.grow⟩)

/-- The root of a number, and the sets with the links on the way to it made direct. -/
def findCompressing (d : DisjointSet) (number : Nat) : Nat × DisjointSet :=
  (d.forest.root number, { d with forest := d.forest.compress number })

/-- Links the larger of two roots to the smaller. -/
def linkRoots (d : DisjointSet) (a b : Nat) : DisjointSet :=
  if h : a ≤ b then { d with forest := d.forest.relink b a h }
  else { d with forest := d.forest.relink a b (Nat.le_of_not_le h) }

/-- Puts the sets of two texts together.  A text in no set is a set of its own. -/
def union (d : DisjointSet) (a b : String) : DisjointSet :=
  let (a, d) := d.number a
  let (b, d) := d.number b
  let (a, d) := d.findCompressing a
  let (b, d) := d.findCompressing b
  if a = b then d else d.linkRoots a b

/-- Tells whether two texts are in one set. -/
def same (d : DisjointSet) (a b : String) : Bool × DisjointSet :=
  match d.numbers[a]?, d.numbers[b]? with
  | some a, some b =>
      let (a, d) := d.findCompressing a
      let (b, d) := d.findCompressing b
      (a == b, d)
  | _, _ => (false, d)

end DisjointSet

end AlgebraTutor
