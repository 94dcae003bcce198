/-
What the wildcards of a pattern stand for.

Bindings are a finite map from names to trees.  The entries are kept in the order of the
names, so two maps with the same content have the same entries.
-/
import AlgebraTutor.Expr.Basic

namespace AlgebraTutor

/-- Two entries in the order of their names. -/
def Bindings.Before (a b : String × Expr) : Prop := a.1 < b.1

/-- A finite map from names to trees. -/
structure Bindings where
  entries : List (String × Expr)
  sorted : entries.Pairwise Bindings.Before

namespace Bindings

/-- The map with no entry. -/
def empty : Bindings := ⟨[], .nil⟩

instance : Inhabited Bindings := ⟨empty⟩

/-- The map with one entry. -/
def single (name : String) (value : Expr) : Bindings :=
  ⟨[(name, value)], .cons (by simp) .nil⟩

/-- The tree bound to a name. -/
def get? (b : Bindings) (name : String) : Option Expr := b.entries.lookup name

/-- The entries with one put in its place.  An entry of the same name is replaced. -/
def insertEntry (name : String) (value : Expr) : List (String × Expr) → List (String × Expr)
  | [] => [(name, value)]
  | (other, old) :: rest =>
      if name < other then (name, value) :: (other, old) :: rest
      else if other < name then (other, old) :: insertEntry name value rest
      else (name, value) :: rest

theorem mem_insertEntry {name : String} {value : Expr} {entry : String × Expr} :
    ∀ {entries : List (String × Expr)}, entry ∈ insertEntry name value entries →
      entry.1 = name ∨ entry ∈ entries := by
  intro entries
  induction entries with
  | nil => intro h; simp only [insertEntry, List.mem_singleton] at h; exact .inl (h ▸ rfl)
  | cons first rest ih =>
      obtain ⟨other, old⟩ := first
      intro h
      simp only [insertEntry] at h
      split at h
      · rcases List.mem_cons.1 h with rfl | h
        · exact .inl rfl
        · exact .inr h
      · split at h
        · rcases List.mem_cons.1 h with rfl | h
          · exact .inr (List.mem_cons_self ..)
          · rcases ih h with h | h
            · exact .inl h
            · exact .inr (List.mem_cons_of_mem _ h)
        · rcases List.mem_cons.1 h with rfl | h
          · exact .inl rfl
          · exact .inr (List.mem_cons_of_mem _ h)

/-- Putting an entry in its place keeps the order. -/
theorem sorted_insertEntry (name : String) (value : Expr) :
    ∀ {entries : List (String × Expr)}, entries.Pairwise Before →
      (insertEntry name value entries).Pairwise Before := by
  intro entries
  induction entries with
  | nil => intro _; simp [insertEntry]
  | cons first rest ih =>
      obtain ⟨other, old⟩ := first
      intro h
      obtain ⟨hfirst, hrest⟩ := List.pairwise_cons.1 h
      simp only [insertEntry]
      split
      · rename_i hlt
        refine List.pairwise_cons.2 ⟨fun entry hentry => ?_, h⟩
        rcases List.mem_cons.1 hentry with rfl | hentry
        · exact hlt
        · exact String.lt_trans hlt (hfirst _ hentry)
      · rename_i hnot
        split
        · rename_i hlt
          refine List.pairwise_cons.2 ⟨fun entry hentry => ?_, ih hrest⟩
          rcases mem_insertEntry hentry with heq | hentry
          · exact (heq ▸ hlt : other < entry.1)
          · exact hfirst _ hentry
        · rename_i hnot'
          have heq : other = name :=
            String.le_antisymm (String.not_lt.1 hnot) (String.not_lt.1 hnot')
          subst heq
          exact List.pairwise_cons.2 ⟨hfirst, hrest⟩

/-- The map with one more entry, which replaces one of the same name. -/
def insert (b : Bindings) (name : String) (value : Expr) : Bindings :=
  ⟨insertEntry name value b.entries, sorted_insertEntry name value b.sorted⟩

/-- The map with the given entries; the last of one name counts. -/
def ofList (entries : List (String × Expr)) : Bindings :=
  entries.foldl (fun b (name, value) => b.insert name value) empty

/-- Both maps together.  Where they have a name in common, the second counts. -/
def union (left right : Bindings) : Bindings :=
  right.entries.foldl (fun b (name, value) => b.insert name value) left

/-- Entries with the same names in the same order, bound to like trees. -/
def entriesAlike : List (String × Expr) → List (String × Expr) → Bool
  | [], [] => true
  | (name, value) :: rest, (name', value') :: rest' =>
      name == name' && value.alike value' && entriesAlike rest rest'
  | _, _ => false

/-- Two maps bind the same names to like trees. -/
def alike (a b : Bindings) : Bool := entriesAlike a.entries b.entries

/-- No name is bound to different trees by the two maps. -/
def agree (left right : Bindings) : Bool :=
  right.entries.all fun (name, value) =>
    match left.get? name with
    | some existing => existing.alike value
    | none => true

/-- The list with one more map at its end, unless a like one is there already. -/
def addNew (found : List Bindings) (b : Bindings) : List Bindings :=
  if found.any (·.alike b) then found else found ++ [b]

/-- Every map of the first list together with every one of the second that agrees with it. -/
def merge (left right : List Bindings) : List Bindings :=
  left.foldl (fun found l =>
    right.foldl (fun found r => if l.agree r then addNew found (l.union r) else found) found) []

/-! ### Reading a binding -/

/-- The constant bound to a name. -/
def constant? (b : Bindings) (name : String) : Option Rat := do (← b.get? name).constant?

/-- The integer bound to a name. -/
def integer? (b : Bindings) (name : String) : Option Int := do (← b.get? name).integer?

end Bindings

end AlgebraTutor
