/-
Grading a step from one expression to another.

A step that changes nothing is reported as such.  Otherwise the path that the search finds is
told step by step, and a step to which no path leads is reported as unknown.
-/
import AlgebraTutor.Assessment.Search

namespace AlgebraTutor

namespace Assessment

/-- Tells whether an expression simplifies to the given answer. -/
def reaches (text answer : String) : SessionM Bool := do
  let reached ← Session.answer text
  Session.areEqual reached answer

/-- The verdict on a step that is right. -/
def describeHop (answer : String) (hop : Hop) : SessionM StepInfo := do
  let reached ← reaches hop.step.after answer
  return ⟨true, reached, hop.step.before, hop.step.after, none, hop.step.change, none,
    hop.available, none, none⟩

/-- The verdict on the last step of a path.  It ends at the text of the student, and if it was
made by mistake it says what should have come out. -/
def describeLast (answer goal : String) (mistake : Option Mistake) (hop : Hop) :
    SessionM StepInfo := do
  let reached ← reaches goal answer
  return ⟨mistake.isNone, reached, hop.step.before, goal, mistake.map fun _ => hop.step.after,
    hop.step.change, mistake, hop.available, none, none⟩

/-- The verdicts on the steps of a path. -/
def describe (answer goal : String) (mistake : Option Mistake) : List Hop →
    SessionM (List StepInfo)
  | [] => return []
  | [hop] => return [← describeLast answer goal mistake hop]
  | hop :: path => do
      let info ← describeHop answer hop
      return info :: (← describe answer goal mistake path)

/-- The verdict on a step to which no path was found. -/
def unknown (before after answer : String) : SessionM StepInfo := do
  let reached ← reaches after answer
  let available := changesOf (← Session.nextSteps before)
  return ⟨false, reached, before, after, none, .unknown, if reached then none else some .unknown,
    available, none, none⟩

/-- Grades the step between two expressions.  The answer is that of the expression at the start
of the student's work. -/
def assess (before after answer : String) : SessionM (List StepInfo) := do
  let _ ← Session.parse before
  let _ ← Session.parse after
  if ← Session.areEqual before after then return [.unchanged before after]
  else
    let infos ← match ← Search.run before after with
      | some found => describe answer after found.mistake found.path
      | none => pure [← unknown before after answer]
    return infos.map StepInfo.relabelSubtraction

/-- Grades each pair of neighbours among some expressions against one answer. -/
def assessChain (answer : String) : List String → SessionM (List (List StepInfo))
  | before :: after :: rest => do
      let infos ← assess before after answer
      return infos :: (← assessChain answer (after :: rest))
  | _ => return []

end Assessment

namespace Session

/-- Grades the step from one expression to another. -/
def assessStep (before after : String) : SessionM (List StepInfo) := do
  let answer ← answer before
  Assessment.assess before after answer

/-- Grades the steps between some expressions, against the answer of the first. -/
def assessSteps (texts : List String) : SessionM (List (List StepInfo)) := do
  match texts with
  | [] => return []
  | first :: _ =>
    let answer ← answer first
    Assessment.assessChain answer texts

end Session

end AlgebraTutor
