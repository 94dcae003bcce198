/-
The tables, and what they are read as.

Rules, the moves that solve an equation and the values of the trigonometric functions are written
as texts.  What the rest of the library works with are the patterns and trees of these texts.  They
are set against the texts here, so a set of rules that is made from the written table is the
standard one.

What a text is read as is computed from the grammar.  Each way of reading a text has a computed
counterpart for that, which is only asked to be right where it gives something.
-/
import AlgebraTutor.Proofs.RuleIdentifiers
import AlgebraTutor.Rule.Standard
import AlgebraTutor.Solver

namespace AlgebraTutor

/-- What is computed for all members of a list is read from them. -/
theorem mapM_eq_ok_of_mapM_eq_some {ε α β : Type} {read : α → Except ε β} {computed? : α → Option β}
    (hread : ∀ a b, computed? a = some b → read a = .ok b) {l : List α} {l' : List β}
    (h : l.mapM computed? = some l') : l.mapM read = .ok l' := by
  induction l generalizing l' with
  | nil =>
      cases h
      rfl
  | cons a l ih =>
      rw [List.mapM_cons] at h
      obtain ⟨b, hb, h⟩ := Option.bind_eq_some_iff.mp h
      obtain ⟨bs, hbs, h⟩ := Option.bind_eq_some_iff.mp h
      cases h
      rw [List.mapM_cons, hread a b hb, ih hbs]
      rfl

/-! ### Rules -/

/-- The rule of a text, as far as its patterns are found. -/
def RuleText.spec? (text : RuleText) : Option RuleSpec :=
  (Pattern.ofText? text.lhs).bind fun l =>
    match text.body with
    | .structural rhs => (Pattern.ofText? rhs).bind fun r =>
        if r.wildcards.all l.wildcards.contains then
          some ⟨text.change, l, .structural r, text.missteps⟩
        else none
    | .computed build => some ⟨text.change, l, .computed build, text.missteps⟩

/-- The rules of a group, as far as they are found. -/
def Group.specs? (group : Group RuleText) : Option (Group RuleSpec) :=
  (group.rules.mapM RuleText.spec?).map (Group.mk group.name)

theorem RuleText.read_of_spec? (text : RuleText) (spec : RuleSpec) (h : text.spec? = some spec) :
    text.read = .ok spec := by
  obtain ⟨change, lhs, body, missteps⟩ := text
  obtain ⟨l, hl, h⟩ := Option.bind_eq_some_iff.mp h
  cases body with
  | structural rhs =>
      obtain ⟨r, hr, h⟩ := Option.bind_eq_some_iff.mp h
      split at h
      · next hbound =>
          cases h
          have hparse : RuleSpec.parse change lhs rhs = .ok (.structural change l r) := by
            rw [RuleSpec.parse, Pattern.parse_of_ofText? hl, Pattern.parse_of_ofText? hr]
            exact if_pos hbound
          simp only [read, hparse]
          rfl
      · cases h
  | computed build =>
      cases h
      simp only [read, Pattern.parse_of_ofText? hl]
      rfl

theorem Group.read_of_specs? (text : Group RuleText) (group : Group RuleSpec)
    (h : text.specs? = some group) : text.read = .ok group := by
  obtain ⟨specs, hspecs, rfl⟩ := Option.map_eq_some_iff.mp h
  rw [read, mapM_eq_ok_of_mapM_eq_some RuleText.read_of_spec? hspecs]
  rfl

set_option maxRecDepth 8000 in
theorem RuleSet.specs?_standardTable : standardTable.mapM Group.specs? = some standardGroups := by
  cbv

/-- **The standard rules are what the standard table is read as.** -/
theorem RuleSet.ofTable_standardTable : ofTable standardTable = .ok standard := by
  rw [ofTable, mapM_eq_ok_of_mapM_eq_some Group.read_of_specs? specs?_standardTable]
  rfl

/-! ### Moves -/

/-- The patterns of the two sides, as far as they are found. -/
def EquationPattern.ofText? (text : String) : Option EquationPattern :=
  match text.toList.dropWhile (· != '=') with
  | [] => none
  | _ :: rhs =>
      (Pattern.ofText? (trimBlanks (String.ofList (text.toList.takeWhile (· != '='))))).bind
        fun l => (Pattern.ofText? (trimBlanks (String.ofList rhs))).map (EquationPattern.mk l)

/-- The move of a text, as far as its patterns are found. -/
def MoveText.move? (text : MoveText) : Option Move :=
  (EquationPattern.ofText? text.before).bind fun before =>
    (EquationPattern.ofText? text.after).map (Move.mk text.change before)

theorem EquationPattern.parse_of_ofText? {text : String} {p : EquationPattern}
    (h : ofText? text = some p) : parse text = .ok p := by
  unfold ofText? at h
  split at h
  · cases h
  · next hrhs =>
      obtain ⟨l, hl, h⟩ := Option.bind_eq_some_iff.mp h
      obtain ⟨r, hr, rfl⟩ := Option.map_eq_some_iff.mp h
      simp only [parse, hrhs, Pattern.parse_of_ofText? hl, Pattern.parse_of_ofText? hr]
      rfl

theorem MoveText.read_of_move? (text : MoveText) (move : Move) (h : text.move? = some move) :
    text.read = .ok move := by
  obtain ⟨before, hbefore, h⟩ := Option.bind_eq_some_iff.mp h
  obtain ⟨after, hafter, rfl⟩ := Option.map_eq_some_iff.mp h
  rw [read, EquationPattern.parse_of_ofText? hbefore, EquationPattern.parse_of_ofText? hafter]
  rfl

set_option maxRecDepth 8000 in
/-- **The moves, and the equation that is solved, are what their texts are read as.** -/
theorem Solver.read_table :
    table.mapM MoveText.read = .ok moves ∧ EquationPattern.parse goalText = .ok goal :=
  ⟨mapM_eq_ok_of_mapM_eq_some MoveText.read_of_move? (by cbv),
    EquationPattern.parse_of_ofText? (by cbv)⟩

/-! ### Values of the trigonometric functions -/

namespace Trigonometry

/-- The values at an angle, as far as they are found. -/
def Values.found? (angle : Nat × Values String) : Option (Nat × Values Expr) := do
  let sine ← Expr.normalOfText? angle.2.sine
  let cosine ← Expr.normalOfText? angle.2.cosine
  match angle.2.tangent with
  | some text => return (angle.1, ⟨sine, cosine, some (← Expr.normalOfText? text)⟩)
  | none => return (angle.1, ⟨sine, cosine, none⟩)

theorem Values.read_of_found? (angle : Nat × Values String) (values : Nat × Values Expr)
    (h : found? angle = some values) : read angle = .ok values := by
  obtain ⟨part, sineText, cosineText, tangentText⟩ := angle
  obtain ⟨sine, hsine, h⟩ := Option.bind_eq_some_iff.mp h
  obtain ⟨cosine, hcosine, h⟩ := Option.bind_eq_some_iff.mp h
  rw [read, Expr.parseNormal_of_normalOfText? hsine, Expr.parseNormal_of_normalOfText? hcosine]
  cases tangentText with
  | none =>
      cases h
      rfl
  | some text =>
      obtain ⟨tangent, htangent, h⟩ := Option.bind_eq_some_iff.mp h
      cases h
      show Except.bind (Expr.parseNormal text >>= _) _ = _
      rw [Expr.parseNormal_of_normalOfText? htangent]
      rfl

set_option maxRecDepth 8000 in
/-- **The known values are what their texts are read as.** -/
theorem read_valueTexts : valueTexts.mapM Values.read = .ok table :=
  mapM_eq_ok_of_mapM_eq_some Values.read_of_found? (by cbv)

end Trigonometry

end AlgebraTutor
