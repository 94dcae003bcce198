/-
Visiting the nodes of a tree one after the other.

A traversal keeps the nodes that wait for their visit on a stack, and remembers the place it
visited last.  The node on top is visited if its arguments have been, which is so if it has none
or if the last of them was the last visit.  Otherwise its arguments are put on top of it.
-/
import AlgebraTutor.Expr.Basic

namespace AlgebraTutor

/-- A traversal that is under way. -/
structure Traversal where
  /-- The nodes that wait, with their paths from the root, the next one first. -/
  waiting : List (Path × Expr)
  /-- The path of the node that was visited last. -/
  visited : Option Path

namespace Expr

theorem size_lt_of_mem_args {e arg : Expr} (h : arg ∈ e.args) : arg.size < e.size := by
  cases e with
  | op kind args implicit =>
      have := size_le_sizeAll (show arg ∈ args from h)
      rw [size]
      omega
  | call name args =>
      have := size_le_sizeAll (show arg ∈ args from h)
      rw [size]
      omega
  | _ => simp [args] at h

end Expr

namespace Traversal

/-- The traversal of a tree before the first visit. -/
def ofTree (e : Expr) : Traversal := ⟨[([], e)], none⟩

/-- The arguments `es` of the node at the end of a path, of which the first is its `i`-th, with
their own paths. -/
def arguments (path : Path) (i : Nat) (es : List Expr) : List (Path × Expr) :=
  (es.zipIdx i).map fun (e, i) => (path ++ [i], e)

/-- The next visit where the node `e` is on top of the others, and what is left to do after it. -/
def nextFrom (visited : Option Path) (path : Path) (e : Expr) (others : List (Path × Expr)) :
    (Path × Expr) × Traversal :=
  match _h : e.args with
  | [] => ((path, e), ⟨others, some path⟩)
  | first :: rest =>
      if visited = some (path ++ [rest.length]) then ((path, e), ⟨others, some path⟩)
      else nextFrom visited (path ++ [0]) first (arguments path 1 rest ++ (path, e) :: others)
termination_by e.size
decreasing_by exact Expr.size_lt_of_mem_args (_h ▸ List.mem_cons_self ..)

/-- The next visit, if there is one, and what is left to do after it. -/
def next? (t : Traversal) : Option ((Path × Expr) × Traversal) :=
  match t.waiting with
  | [] => none
  | (path, e) :: others => some (nextFrom t.visited path e others)

end Traversal

end AlgebraTutor
