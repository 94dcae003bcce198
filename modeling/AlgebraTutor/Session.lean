/-
Sessions: rules, limits, and the memory of what has been worked out.

Grading one step reads, explores and simplifies the same expressions many times, so a session
remembers the tree of a text, the steps that can be taken from it and the answer it simplifies
to, each under the text without white space.  An operation that fails keeps what it had
remembered before it failed.
-/
import AlgebraTutor.Equality.Cache
import AlgebraTutor.Explorer
import AlgebraTutor.Rule.Standard
import AlgebraTutor.Simplifier
import AlgebraTutor.Solver

namespace AlgebraTutor

/-- The limits and settings of a session. -/
structure Settings where
  /-- The number of reductions after which simplification stops. -/
  maxIterations : Nat
  /-- The length of the longest path of steps that grading looks for. -/
  maxDepth : Nat
  /-- The number of expressions that grading visits. -/
  maxStates : Nat
  /-- The variable to solve for when none is named. -/
  unknown : Option String
deriving DecidableEq, Repr, Inhabited

/-- The settings of a session that sets none of its own. -/
def Settings.standard : Settings := ⟨defaultMaxReductions, 100, 500, none⟩

/-- What a session works with and what it remembers. -/
structure Session where
  settings : Settings
  rules : RuleSet
  /-- The trees of texts, in normal form. -/
  parsed : Std.TreeMap String Expr
  equality : EqualityCache
  /-- The steps that can be taken from texts. -/
  explored : Std.TreeMap String (List Step)
  /-- The texts that texts simplify to. -/
  answers : Std.TreeMap String String

/-- An operation that may use and add to the memory of a session. -/
abbrev SessionM := ExceptT Error (StateM Session)

/-- How an expression is to be simplified. -/
structure SimplifyOptions where
  /-- Each step comes with the mistakes that could be made. -/
  mistakes : Bool
  /-- Nothing is remembered. -/
  dryRun : Bool
  /-- Every step that can be taken is listed instead of taking one after another. -/
  allPossibilities : Bool
deriving DecidableEq, Repr, Inhabited

/-- A simplified expression with its trace, or an expression with its possible steps. -/
structure Simplified where
  root : Expr
  steps : List Step

namespace Session

/-- A session with the standard rules that remembers nothing yet. -/
def ofSettings (settings : Settings) : Session :=
  ⟨settings, .standard, ∅, .empty, ∅, ∅⟩

/-- A session with the standard rules and settings. -/
def fresh : Session := ofSettings .standard

/-- The context in which the session matches patterns. -/
def context (s : Session) : Context := ⟨s.settings.unknown⟩

/-- The session's way to simplify. -/
def simplifier (s : Session) (withMistakes : Bool) : Simplifier :=
  ⟨s.rules, s.context, s.settings.maxIterations, withMistakes⟩

/-- The tree of a text, taken from memory if it is there, without adding to it. -/
def parseSilently (text : String) : SessionM Expr := do
  match (← get).parsed[squeeze text]? with
  | some e => return e
  | none => liftExcept (Expr.parseNormal text)

/-- The tree of a text, in normal form. -/
def parse (text : String) : SessionM Expr := do
  let key := squeeze text
  match (← get).parsed[key]? with
  | some e => return e
  | none =>
    let e ← liftExcept (Expr.parseNormal text)
    modify fun s => { s with parsed := s.parsed.insert key e }
    return e

/-- The key of the canonical form of a text, if it can be read. -/
def canonicalKey? (text : String) : SessionM (Option String) :=
  modifyGet fun s =>
    let (key, equality) := s.equality.canonicalKey text
    (key, { s with equality := equality })

/-- Tells whether two texts denote the same expression. -/
def areEqual (a b : String) : SessionM Bool :=
  modifyGet fun s =>
    let (equal, equality) := s.equality.areEqual a b
    (equal, { s with equality := equality })

/-- Every step that can be taken from an expression. -/
def nextSteps (text : String) : SessionM (List Step) := do
  let key := squeeze text
  match (← get).explored[key]? with
  | some steps => return steps
  | none =>
    let root ← parse text
    let s ← get
    let steps ← liftExcept (Explorer.nextSteps s.context s.rules root)
    modify fun s => { s with explored := s.explored.insert key steps }
    return steps

/-- The text that an expression simplifies to. -/
def answer (text : String) : SessionM String := do
  let key := squeeze text
  match (← get).answers[key]? with
  | some answer => return answer
  | none =>
    let root ← parse text
    let (final, _) ← liftExcept (((← get).simplifier false).run root)
    let answer := final.text
    modify fun s => { s with answers := s.answers.insert key answer }
    return answer

/-- An expression with every step that can be taken from it. -/
def possibilities (text : String) (dryRun : Bool) : SessionM Simplified := do
  let root ← parseSilently text
  if dryRun then
    let s ← get
    return ⟨root, ← liftExcept (Explorer.nextSteps s.context s.rules root)⟩
  else return ⟨root, ← nextSteps text⟩

/-- Simplifies an expression. -/
def simplify (text : String) (options : SimplifyOptions) : SessionM Simplified := do
  if options.allPossibilities then possibilities text options.dryRun
  else
    let root ← if options.dryRun then parseSilently text else parse text
    let (final, steps) ← liftExcept (((← get).simplifier options.mistakes).run root)
    if !options.dryRun then
      modify fun s => { s with answers := s.answers.insert (squeeze text) final.text }
    return ⟨final, steps⟩

/-- Solves an equation, for the unknown of the settings if none is named. -/
def solve (equation : String) (unknown : Option String) : SessionM Solution := do
  let s ← get
  match unknown <|> s.settings.unknown with
  | none => throw Cause.missingUnknown.unlocated
  | some unknown =>
    let (lhs, rhs) ← liftExcept (Expr.parseEquation equation)
    liftExcept (Solver.solve s.rules s.settings.maxIterations unknown lhs.normalize rhs.normalize)

end Session

end AlgebraTutor
