/-
White space, in the sense of the Unicode property of that name.

Texts are remembered under their squeezed form, with all white space gone, and the
sides of an equation are read without the blanks around them.
-/
namespace AlgebraTutor

/-- A character with the Unicode property White_Space. -/
def isBlank (c : Char) : Bool :=
  let n := c.toNat
  (0x09 ≤ n && n ≤ 0x0d) || n == 0x20 || n == 0x85 || n == 0xa0 || n == 0x1680 ||
    (0x2000 ≤ n && n ≤ 0x200a) || n == 0x2028 || n == 0x2029 || n == 0x202f ||
    n == 0x205f || n == 0x3000

/-- The text without its white space. -/
def squeeze (s : String) : String :=
  String.ofList (s.toList.filter fun c => !isBlank c)

/-- The text without the white space at its two ends. -/
def trimBlanks (s : String) : String :=
  String.ofList ((s.toList.dropWhile isBlank).reverse.dropWhile isBlank).reverse

/-- A text of white space only, such as the empty text. -/
def isBlankText (s : String) : Bool := s.toList.all isBlank

theorem squeeze_eq_self {s : String} (h : ∀ c ∈ s.toList, isBlank c = false) : squeeze s = s := by
  have hkept : s.toList.filter (fun c => !isBlank c) = s.toList := by
    refine List.filter_eq_self.mpr fun c hc => ?_
    rw [h c hc]
    rfl
  rw [squeeze, hkept, String.ofList_toList]

end AlgebraTutor
