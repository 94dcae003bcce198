/-
The edit distance between two words: the least number of insertions, deletions and
replacements of one character that turn one into the other.

Row `i` of the table holds the distances from the first `i` letters of one word to every
beginning of the other.  Each row is computed from the one before it.
-/
namespace AlgebraTutor

/-- The rest of a row.  `left` is the entry just written, `above` the previous row from the
entry diagonally before the next one. -/
def editRow (c : Char) : (word : List Char) → (above : List Nat) → (left : Nat) → List Nat
  | d :: word, diagonal :: up :: above, left =>
      let replaced := if c = d then diagonal else diagonal + 1
      let entry := min replaced (min (up + 1) (left + 1))
      entry :: editRow c word (up :: above) entry
  | _, _, _ => []

/-- The last row of the table, after reading the letters `letters` from row `row`. -/
def editTable (word : List Char) : (letters : List Char) → (row : List Nat) → List Nat
  | [], row => row
  | c :: letters, row =>
      let first := row.headD 0 + 1
      editTable word letters (first :: editRow c word row first)

/-- The edit distance between two words. -/
def editDistance (a b : String) : Nat :=
  let word := b.toList
  (editTable word a.toList (List.range (word.length + 1))).getLastD 0

end AlgebraTutor
