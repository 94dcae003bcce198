/-
A traversal visits every node once, and a node can be exchanged where it is.

A traversal does not know which of the waiting nodes have had their arguments visited.  All it has
is the place of the last visit, and it takes a node for finished if that is the place of the
node's last argument.  This is right because of two facts.  Before a subtree is entered, the last
visit was outside of it, so the arguments are not taken for visited too early.  And when the
arguments have been visited, the last of them was the last visit, so they are not visited again.
What carries the induction is therefore that the last visit was nowhere below the node on top
(`IsBelow`), and what a subtree leaves behind is that its own root was the last visit.

The places, not the nodes, are compared: a tree can have the same subtree in two places.
-/
import AlgebraTutor.Expr.Traversal
import AlgebraTutor.Proofs.NextSteps

namespace AlgebraTutor

/-! ### Runs of a traversal -/

namespace Traversal

/-- From the first state, the nodes are visited one after the other and the second state is left. -/
inductive Yields : Traversal → List (Path × Expr) → Traversal → Prop
  | nothing (t : Traversal) : Yields t [] t
  | visit {t t₁ t' : Traversal} {node : Path × Expr} {nodes : List (Path × Expr)}
      (hnext : t.next? = some (node, t₁)) (h : Yields t₁ nodes t') : Yields t (node :: nodes) t'

/-- The traversal visits these nodes and then comes to an end. -/
def Completes (t : Traversal) (nodes : List (Path × Expr)) : Prop :=
  ∃ t', t.Yields nodes t' ∧ t'.next? = none

variable {t u t' : Traversal} {node : Path × Expr} {nodes nodes' : List (Path × Expr)}

theorem Yields.trans (h : t.Yields nodes u) (h' : u.Yields nodes' t') :
    t.Yields (nodes ++ nodes') t' := by
  induction h with
  | nothing t => exact h'
  | visit hnext _ ih => exact .visit hnext (ih h')

theorem Yields.single (h : t.next? = some (node, t')) : t.Yields [node] t' := .visit h (.nothing t')

/-- Only the next visit depends on the state. -/
theorem Yields.congr (h : t.Yields (node :: nodes) t') (hnext : u.next? = t.next?) :
    u.Yields (node :: nodes) t' := by
  cases h with
  | visit hvisit h => exact .visit (hnext.trans hvisit) h

/-- A traversal that comes to an end does so in one way only. -/
theorem Completes.unique (h : t.Completes nodes) (h' : t.Completes nodes') : nodes = nodes' := by
  obtain ⟨last, hyields, hlast⟩ := h
  obtain ⟨last', hyields', hlast'⟩ := h'
  induction hyields generalizing nodes' with
  | nothing t =>
      cases hyields' with
      | nothing => rfl
      | visit hnext _ =>
          rw [hlast] at hnext
          cases hnext
  | visit hnext _ ih =>
      cases hyields' with
      | nothing =>
          rw [hlast'] at hnext
          cases hnext
      | visit hnext' h' =>
          rw [hnext] at hnext'
          cases hnext'
          rw [ih hlast h']

/-! ### Going through a subtree -/

/-- The last visit was at a place below the path. -/
def IsBelow (visited : Option Path) (path : Path) : Prop :=
  ∃ i rest, visited = some (path ++ i :: rest)

/-- The nodes of a subtree with their paths from the root of the whole tree. -/
def under (path : Path) (nodes : List (Path × Expr)) : List (Path × Expr) :=
  nodes.map fun (rest, node) => (path ++ rest, node)

theorem under_append (path : Path) (nodes nodes' : List (Path × Expr)) :
    under path (nodes ++ nodes') = under path nodes ++ under path nodes' := List.map_append

/-- The paths below an argument are put together step by step. -/
theorem under_argument (path : Path) (i : Nat) (nodes : List (Path × Expr)) :
    under path (nodes.map fun (rest, node) => (i :: rest, node)) = under (path ++ [i]) nodes := by
  simp [under]

theorem arguments_cons (path : Path) (i : Nat) (e : Expr) (es : List Expr) :
    arguments path i (e :: es) = (path ++ [i], e) :: arguments path (i + 1) es := rfl

/-- A node without arguments is visited at once. -/
theorem next?_leaf {e : Expr} (h : e.args = []) (path : Path) (others : List (Path × Expr))
    (visited : Option Path) :
    next? ⟨(path, e) :: others, visited⟩ = some ((path, e), ⟨others, some path⟩) := by
  show some (nextFrom visited path e others) = _
  rw [nextFrom]
  split
  · rfl
  · next hargs =>
      rw [h] at hargs
      cases hargs

/-- A node is visited when its last argument was the last visit. -/
theorem next?_finished {e first : Expr} {rest : List Expr} (h : e.args = first :: rest)
    (path : Path) (others : List (Path × Expr)) :
    next? ⟨(path, e) :: others, some (path ++ [rest.length])⟩ =
      some ((path, e), ⟨others, some path⟩) := by
  show some (nextFrom (some (path ++ [rest.length])) path e others) = _
  rw [nextFrom]
  split
  · rfl
  · next hargs =>
      rw [h] at hargs
      cases hargs
      rw [if_pos rfl]

/-- A node whose arguments wait is put off until they have been visited. -/
theorem next?_waiting {e first : Expr} {rest : List Expr} (h : e.args = first :: rest)
    {path : Path} (others : List (Path × Expr)) {visited : Option Path}
    (hvisited : ¬IsBelow visited path) :
    next? ⟨(path, e) :: others, visited⟩ =
      next? ⟨arguments path 0 (first :: rest) ++ (path, e) :: others, visited⟩ := by
  have hlast : visited ≠ some (path ++ [rest.length]) := fun heq => hvisited ⟨_, _, heq⟩
  show some (nextFrom visited path e others) = _
  rw [nextFrom]
  split
  · next hargs =>
      rw [h] at hargs
      cases hargs
  · next hargs =>
      rw [h] at hargs
      cases hargs
      rw [if_neg hlast]
      rfl

/-- What a subtree on top of the stack comes to. -/
def GoesThrough (e : Expr) : Prop :=
  ∀ (path : Path) (others : List (Path × Expr)) (visited : Option Path), ¬IsBelow visited path →
    Yields ⟨(path, e) :: others, visited⟩ (under path e.postOrder) ⟨others, some path⟩

/-- Arguments that wait one behind the other are gone through from left to right. -/
theorem yields_arguments (path : Path) (others : List (Path × Expr)) :
    ∀ (rest : List Expr) (first : Expr) (i : Nat) (visited : Option Path),
      (∀ e ∈ first :: rest, GoesThrough e) → (∀ j, i ≤ j → ¬IsBelow visited (path ++ [j])) →
      Yields ⟨arguments path i (first :: rest) ++ others, visited⟩
        (under path (Expr.postOrderFrom i (first :: rest)))
        ⟨others, some (path ++ [i + rest.length])⟩ := by
  intro rest
  induction rest with
  | nil =>
      intro first i visited hthrough hvisited
      have hfirst := hthrough first (List.mem_cons_self ..) (path ++ [i]) others visited
        (hvisited i (Nat.le_refl i))
      simpa [Expr.postOrderFrom, under_argument, arguments] using hfirst
  | cons second rest ih =>
      intro first i visited hthrough hvisited
      have hfirst := hthrough first (List.mem_cons_self ..) (path ++ [i])
        (arguments path (i + 1) (second :: rest) ++ others) visited (hvisited i (Nat.le_refl i))
      have hothers := ih second (i + 1) (some (path ++ [i]))
        (fun e he => hthrough e (List.mem_cons_of_mem _ he)) (by
          intro j hj
          rintro ⟨k, deeper, heq⟩
          -- the last visit was further to the left
          simp at heq)
      rw [Expr.postOrderFrom, under_append, under_argument, arguments_cons, List.cons_append,
        List.length_cons, show i + (rest.length + 1) = i + 1 + rest.length by omega]
      exact hfirst.trans hothers

/-- A node is gone through if all of its arguments are. -/
theorem goesThrough_of_arguments {e : Expr} (hargs : ∀ arg ∈ e.args, GoesThrough arg) :
    GoesThrough e := by
  intro path others visited hvisited
  cases h : e.args with
  | nil =>
      rw [Expr.postOrder_eq, h]
      simpa [Expr.postOrderFrom, under] using Yields.single (next?_leaf h path others visited)
  | cons first rest =>
      have harguments := yields_arguments path ((path, e) :: others) rest first 0 visited
        (h ▸ hargs) (by
          intro j _
          rintro ⟨i, deeper, heq⟩
          exact hvisited ⟨j, i :: deeper, by simpa using heq⟩)
      rw [Nat.zero_add] at harguments
      have hall := harguments.trans (Yields.single (next?_finished h path others))
      have hunder : under path e.postOrder =
          under path (Expr.postOrderFrom 0 (first :: rest)) ++ [(path, e)] := by
        rw [Expr.postOrder_eq, h, under_append]
        simp [under]
      rw [hunder]
      -- the arguments are put on the stack within the first of these visits
      obtain ⟨node, nodes, hnodes⟩ : ∃ node nodes,
          under path (Expr.postOrderFrom 0 (first :: rest)) ++ [(path, e)] = node :: nodes :=
        List.exists_cons_of_ne_nil (by simp)
      rw [hnodes] at hall ⊢
      exact hall.congr (next?_waiting h others hvisited)

/-- **A subtree on top of the stack is gone through in post-order**, if the last visit was not in
it, and its root is then the last visit. -/
theorem goesThrough (e : Expr) : GoesThrough e := by
  induction e using Expr.induction_args with
  | node e ih => exact goesThrough_of_arguments ih

theorem completes_ofTree (e : Expr) : (ofTree e).Completes e.postOrder := by
  have hnone : ¬IsBelow none ([] : Path) := by
    rintro ⟨i, rest, h⟩
    cases h
  have hyields := goesThrough e [] [] none hnone
  have hunder : under [] e.postOrder = e.postOrder := by simp [under]
  rw [hunder] at hyields
  exact ⟨_, hyields, rfl⟩

end Traversal

/-! ### Exchanging a node -/

/-- A place does not come before itself. -/
theorem Path.Before.ne {path path' : Path} (h : Path.Before path path') : path ≠ path' := by
  induction h with
  | parent i path => simp
  | left path path' hlt =>
      intro heq
      injection heq with hindex
      omega
  | deeper i _ ih =>
      intro heq
      injection heq with _ hrest
      exact ih hrest

namespace Expr

variable {e arg old new tree : Expr} {path : Path}

theorem args_withArgs_set {i : Nat} (h : e.args[i]? = some arg) (new : Expr) :
    (e.withArgs (e.args.set i new)).args = e.args.set i new := by
  cases e <;> simp [args, withArgs] at h ⊢

/-- An exchange takes out the node that was there and leaves the tree with the other one. -/
theorem exchange?_eq (path : Path) : ∀ e new : Expr,
    e.exchange? path new =
      (e.get? path).bind fun old => (e.replace? path new).map fun tree => (old, tree) := by
  induction path with
  | nil => intro e new; rfl
  | cons i path ih =>
      intro e new
      rw [exchange?, get?, replace?]
      cases e.args[i]? with
      | none => rfl
      | some arg =>
          simp only [ih arg new]
          cases arg.get? path with
          | none => rfl
          | some old => cases arg.replace? path new <;> rfl

theorem exists_replace? (new : Expr) : ∀ {path : Path} {e : Expr}, e.get? path = some old →
    ∃ tree, e.replace? path new = some tree := by
  intro path
  induction path with
  | nil => intro e _; exact ⟨new, rfl⟩
  | cons i path ih =>
      intro e h
      rw [get?] at h
      rw [replace?]
      cases harg : e.args[i]? with
      | none =>
          rw [harg] at h
          cases h
      | some arg =>
          rw [harg] at h
          obtain ⟨tree, htree⟩ := ih (e := arg) h
          exact ⟨e.withArgs (e.args.set i tree), by simp only [htree]; rfl⟩

theorem exists_of_replace?_cons {i : Nat} (h : e.replace? (i :: path) new = some tree) :
    ∃ arg arg', e.args[i]? = some arg ∧ arg.replace? path new = some arg' ∧
      tree.args = e.args.set i arg' := by
  rw [replace?] at h
  cases harg : e.args[i]? with
  | none =>
      rw [harg] at h
      cases h
  | some arg =>
      rw [harg] at h
      obtain ⟨arg', harg', rfl⟩ := Option.map_eq_some_iff.mp h
      exact ⟨arg, arg', rfl, harg', args_withArgs_set harg arg'⟩

/-- The other node is where the path leads to. -/
theorem get?_replace? : ∀ {path : Path} {e tree : Expr}, e.replace? path new = some tree →
    tree.get? path = some new := by
  intro path
  induction path with
  | nil =>
      intro e tree h
      cases h
      rfl
  | cons i path ih =>
      intro e tree h
      obtain ⟨arg, arg', harg, harg', hargs⟩ := exists_of_replace?_cons h
      have hi : i < e.args.length := (List.getElem?_eq_some_iff.mp harg).1
      rw [get?, hargs, List.getElem?_set_self hi]
      exact ih harg'

/-- Where neither place is within the other, nothing changes. -/
theorem get?_replace?_apart : ∀ {path other : Path} {e tree : Expr},
    e.replace? path new = some tree → ¬path <+: other → ¬other <+: path →
    tree.get? other = e.get? other := by
  intro path
  induction path with
  | nil =>
      intro other e tree _ hother _
      exact absurd List.nil_prefix hother
  | cons i path ih =>
      intro other e tree h hother hpath
      obtain ⟨arg, arg', harg, harg', hargs⟩ := exists_of_replace?_cons h
      have hi : i < e.args.length := (List.getElem?_eq_some_iff.mp harg).1
      cases other with
      | nil => exact absurd List.nil_prefix hpath
      | cons j other =>
          rw [get?, get?, hargs]
          by_cases hij : i = j
          · subst hij
            rw [List.getElem?_set_self hi, harg]
            refine ih harg' ?_ ?_
            · intro hprefix
              exact hother (List.cons_prefix_cons.mpr ⟨rfl, hprefix⟩)
            · intro hprefix
              exact hpath (List.cons_prefix_cons.mpr ⟨rfl, hprefix⟩)
          · rw [List.getElem?_set_ne hij]

/-- **A traversal visits every node of a tree once, in post-order, and each of them can be exchanged
where it is.**  The traversal comes to an end and visits the nodes that are listed.  These are the
nodes at the ends of the paths that lead somewhere, none of them twice, a node after all that is
below it and from left to right, and the root last.  Exchanging one of them yields the node that
was there and changes nothing to either side. -/
theorem nodes_areVisitedOnce (e : Expr) :
    (∀ nodes, (Traversal.ofTree e).Completes nodes ↔ nodes = e.postOrder) ∧
    (∀ path node, (path, node) ∈ e.postOrder ↔ e.get? path = some node) ∧
    (e.postOrder.map Prod.fst).Nodup ∧
    (e.postOrder.Pairwise fun a b => Path.Before a.1 b.1) ∧
    e.postOrder.getLast? = some ([], e) ∧
    ∀ path ∈ e.postOrder.map Prod.fst, ∀ new, ∃ old tree,
      e.exchange? path new = some (old, tree) ∧ e.get? path = some old ∧
      tree.get? path = some new ∧
      ∀ other, ¬path <+: other → ¬other <+: path → tree.get? other = e.get? other := by
  have hvisits : ∀ nodes, (Traversal.ofTree e).Completes nodes ↔ nodes = e.postOrder := by
    intro nodes
    constructor
    · intro h
      exact h.unique (Traversal.completes_ofTree e)
    · intro h
      rw [h]
      exact Traversal.completes_ofTree e
  have hnodup : (e.postOrder.map Prod.fst).Nodup :=
    List.pairwise_map.mpr ((pairwise_postOrder e).imp fun h => h.ne)
  have hlast : e.postOrder.getLast? = some ([], e) := by
    rw [postOrder_eq, List.getLast?_concat]
  refine ⟨hvisits, fun path node => mem_postOrder_iff, hnodup, pairwise_postOrder e, hlast, ?_⟩
  intro path hpath new
  obtain ⟨⟨path, old⟩, hmem, rfl⟩ := List.mem_map.mp hpath
  have hold : e.get? path = some old := mem_postOrder_iff.mp hmem
  obtain ⟨tree, htree⟩ := exists_replace? new hold
  refine ⟨old, tree, ?_, hold, get?_replace? htree, fun other => get?_replace?_apart htree⟩
  rw [exchange?_eq, hold, htree]
  rfl

end Expr

end AlgebraTutor
