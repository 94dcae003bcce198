/-
Where the readers go.

A reader that succeeds has gone ahead token by token, over blanks and past tokens that are not
blank, and past at least one of those.  This is shown once, for all readers together, in the order
in which they hand over to one another.  Only two of them need not move: what goes on from an
operand may find nothing to go on with.  They are called after an operand has been read, so their
callers move anyway.
-/
import AlgebraTutor.Proofs.ReaderCases
import Mathlib.Logic.Relation

namespace AlgebraTutor

namespace Cursor

/-- The next token that is not blank is passed. -/
def TakesToken (c next : Cursor) : Prop := ∃ token, c.next.Gives token next

/-- The second cursor is reached by passing tokens that are not blank, at least one of them. -/
def Moves : Cursor → Cursor → Prop := Relation.TransGen TakesToken

/-- The second cursor is the first one, or it is reached from there. -/
def Reaches : Cursor → Cursor → Prop := Relation.ReflTransGen TakesToken

variable {c c₁ c₂ next : Cursor} {token : Token} {kind : TokenKind}

theorem Moves.trans (h : c.Moves c₁) (h₁ : c₁.Moves c₂) : c.Moves c₂ := Relation.TransGen.trans h h₁

theorem Moves.on (h : c.Moves c₁) (h₁ : c₁.Reaches c₂) : c.Moves c₂ :=
  Relation.TransGen.trans_left h h₁

theorem Moves.reaches (h : c.Moves c₁) : c.Reaches c₁ := Relation.TransGen.to_reflTransGen h

theorem Reaches.refl (c : Cursor) : c.Reaches c := Relation.ReflTransGen.refl

theorem moves_of_next (h : c.next.Gives token next) : c.Moves next := .single ⟨token, h⟩

theorem moves_of_expect (h : (c.expect kind).Gives token next) : c.Moves next :=
  moves_of_next (next_of_expect h).1

/-- Where reading has moved, fewer tokens are left. -/
theorem Moves.left_lt (h : c.Moves next) : next.left < c.left := by
  induction h with
  | single h =>
      obtain ⟨token, h⟩ := h
      exact h.left_lt
  | tail _ h ih =>
      obtain ⟨token, h⟩ := h
      exact h.left_lt.trans ih

end Cursor

namespace Formula

open Cursor (Moves Reaches moves_of_next moves_of_expect)

theorem moves_of_readName {c next : Cursor} {name : Name} (h : (readName c).Gives name next) :
    c.Moves next := by
  obtain ⟨token, hnext, -, -⟩ := readName_cases h
  exact moves_of_next hnext

theorem moves_of_readBinaryOp {c next : Cursor} {op : BinaryOp}
    (h : (readBinaryOp c).Gives op next) : c.Moves next := by
  obtain ⟨token, kind, hnext, -, -⟩ := token_of_readBinaryOp h
  exact moves_of_next hnext

theorem moves_of_readLiteral {c next : Cursor} {f : Formula} (h : (readLiteral c).Gives f next) :
    c.Moves next := by
  rcases readLiteral_cases h with ⟨token, hnext, -, -⟩ | ⟨name, hname, -⟩
  · exact moves_of_next hnext
  · exact moves_of_readName hname

theorem moves_of_readMember {c next : Cursor} {f : Formula} (h : (readMember c).Gives f next) :
    c.Moves next := by
  obtain ⟨object, c₁, dot, c₂, index, hobject, hdot, hindex, -⟩ := readMember_cases h
  exact ((moves_of_readName hobject).trans (moves_of_expect hdot)).trans (moves_of_readName hindex)

mutual

theorem moves_of_readExpr {c next : Cursor} {f : Formula} (h : (readExpr c).Gives f next) :
    c.Moves next := by
  obtain ⟨x, c₁, hx, h⟩ := readExpr_cases h
  have h₁ := hx.left_lt
  exact (moves_of_readOperand hx).on (reaches_of_readOperations h)
termination_by (c.left, 7)

theorem moves_of_readList {separator : TokenKind} {c next : Cursor} {args : List Formula}
    (h : (readList separator c).Gives args next) : c.Moves next := by
  obtain ⟨first, c₁, hfirst, h⟩ := readList_cases h
  have h₁ := hfirst.left_lt
  rcases h with ⟨-, rfl⟩ | ⟨comma, c₂, others, hcomma, hothers, -⟩
  · exact moves_of_readExpr hfirst
  · have h₂ := hcomma.left_lt
    exact ((moves_of_readExpr hfirst).trans (moves_of_expect hcomma)).trans
      (moves_of_readList hothers)
termination_by (c.left, 8)

theorem moves_of_readOperand {c next : Cursor} {f : Formula} (h : (readOperand c).Gives f next) :
    c.Moves next := by
  rcases readOperand_cases h with h | h
  · exact moves_of_readNegation h
  · exact moves_of_readPrimary h
termination_by (c.left, 6)

theorem moves_of_readNegation {c next : Cursor} {f : Formula} (h : (readNegation c).Gives f next) :
    c.Moves next := by
  obtain ⟨sign, c₁, x, c₂, operand, hsign, hx, hoperand, -⟩ := readNegation_cases h
  have h₁ := hsign.left_lt
  have h₂ := hx.left_lt
  exact ((moves_of_expect hsign).trans (moves_of_readOperand hx)).on
    (reaches_of_readOperations hoperand)
termination_by (c.left, 5)

theorem moves_of_readPrimary {c next : Cursor} {f : Formula} (h : (readPrimary c).Gives f next) :
    c.Moves next := by
  rcases readPrimary_cases h with h | h | ⟨-, h⟩ | h
  · exact moves_of_readCall h
  · exact moves_of_readMember h
  · exact moves_of_readLiteral h
  · exact moves_of_readParen h
termination_by (c.left, 3)

theorem moves_of_readCall {c next : Cursor} {f : Formula} (h : (readCall c).Gives f next) :
    c.Moves next := by
  obtain ⟨name, c₁, opening, c₂, args, c₃, closing, hname, hopening, hargs, hclosing, -⟩ :=
    readCall_cases h
  have h₁ := hname.left_lt
  have h₂ := hopening.left_lt
  have hargs : c₂.Reaches c₃ := by
    rcases hargs with ⟨-, rfl⟩ | hargs
    · exact .refl _
    · exact (moves_of_readList hargs).reaches
  exact (((moves_of_readName hname).trans (moves_of_expect hopening)).on hargs).trans
    (moves_of_expect hclosing)
termination_by (c.left, 2)

theorem moves_of_readParen {c next : Cursor} {f : Formula} (h : (readParen c).Gives f next) :
    c.Moves next := by
  obtain ⟨opening, c₁, inner, c₂, closing, hopening, -, hinner, hclosing, -⟩ := readParen_cases h
  have h₁ := hopening.left_lt
  exact ((moves_of_expect hopening).trans (moves_of_readExpr hinner)).trans
    (moves_of_expect hclosing)
termination_by (c.left, 2)

theorem reaches_of_readOperations {c next : Cursor} {lhs f : Formula} {prec : Precedence}
    (h : (readOperations lhs prec c).Gives f next) : c.Reaches next := by
  cases readOperations_cases h with
  | @operator op c₁ c₂ c₃ rhs joined hop _ hrhs hjoined h =>
      have h₁ := hop.left_lt
      have h₂ := hrhs.left_lt
      have h₃ := hjoined.left_lt
      have hmoves : c.Moves c₃ :=
        ((moves_of_readBinaryOp hop).trans (moves_of_readOperand hrhs)).on
          (reaches_of_absorb hjoined)
      exact (hmoves.on (reaches_of_readOperations h)).reaches
  | @juxtaposed c₁ c₂ rhs product _ hrhs hproduct h =>
      have h₁ := hrhs.left_lt
      have h₂ := hproduct.left_lt
      have hmoves : c.Moves c₂ := (moves_of_readPrimary hrhs).on (reaches_of_absorb hproduct)
      exact (hmoves.on (reaches_of_readOperations h)).reaches
  | stops _ hnext _ => exact hnext ▸ .refl _
termination_by (c.left, 4)

theorem reaches_of_absorb {c next : Cursor} {lhs rhs f : Formula} {op : BinaryOp}
    (h : (absorb lhs op rhs c).Gives f next) : c.Reaches next := by
  cases absorb_cases h with
  | @operator following c₁ c₂ larger hop _ hlarger h =>
      obtain ⟨x, c₃, joined, c₄, hx, hjoined, hlarger⟩ := readOperation_cases hlarger
      have h₁ := hop.left_lt
      have h₂ := hx.left_lt
      have h₃ := hjoined.left_lt
      have h₄ := hlarger.left_lt
      have hmoves : c.Moves c₄ :=
        ((moves_of_readBinaryOp hop).trans (moves_of_readOperand hx)).on
          (reaches_of_absorb hjoined)
      exact ((hmoves.on (reaches_of_readOperations hlarger)).on (reaches_of_absorb h)).reaches
  | @juxtaposed c₁ c₂ factor product _ hfactor hproduct h =>
      have h₁ := hfactor.left_lt
      have h₂ := hproduct.left_lt
      have hmoves : c.Moves c₂ := (moves_of_readPrimary hfactor).on (reaches_of_absorb hproduct)
      exact (hmoves.on (reaches_of_absorb h)).reaches
  | stops _ hnext _ => exact hnext ▸ .refl _
termination_by (c.left, 4)

end

/-- The operand of an operator is behind it, and what it takes in is behind the operand. -/
theorem moves_of_readOperation {c next : Cursor} {lhs f : Formula} {op : BinaryOp}
    {prec : Precedence} (h : (readOperation lhs op prec c).Gives f next) : c.Moves next := by
  obtain ⟨x, c₁, joined, c₂, hx, hjoined, h⟩ := readOperation_cases h
  exact ((moves_of_readOperand hx).on (reaches_of_absorb hjoined)).on
    (reaches_of_readOperations h)

end Formula

end AlgebraTutor
