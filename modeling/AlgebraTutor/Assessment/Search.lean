/-
The search for a path of steps from one expression to another.

States are visited breadth first.  At each one the possible steps are first compared with the
goal; if none leads there, their mistakes are.  A mistake that gives the right answer all the
same is none.  States are told apart by their canonical keys, so that none is queued twice.

The number of states and the length of a path are limited.  A search that comes to a limit has
found nothing.
-/
import AlgebraTutor.Assessment.Verdict
import AlgebraTutor.Session
import Std.Data.TreeSet

namespace AlgebraTutor

/-- One step along a path. -/
structure Hop where
  step : Step
  /-- The kinds of change that were possible. -/
  available : List Change

/-- A path that leads to the goal. -/
structure Found where
  path : List Hop
  /-- The mistake in the last step, if it leads to the goal by mistake only. -/
  mistake : Option Mistake

namespace Search

/-- A text that was reached, with the path to it. -/
structure State where
  text : String
  path : List Hop

/-- The key by which states are told apart. -/
def stateKey (text : String) : SessionM String :=
  return (← Session.canonicalKey? text).getD (squeeze text)

/-- The first of the steps that leads to the goal. -/
def findStep? (goal : String) (candidates : List Step) : SessionM (Option Step) :=
  candidates.findM? fun candidate => Session.areEqual candidate.after goal

/-- Tells whether a mistake leads to the goal, and to a wrong answer. -/
def isMistake (goal : String) (candidate : Step) (mistake : MistakeStep) : SessionM Bool := do
  if ← Session.areEqual mistake.after goal then
    let wrong ← Session.answer mistake.after
    let right ← Session.answer candidate.after
    return !(← Session.areEqual wrong right)
  else return false

/-- The first mistake in one of the steps that leads to the goal. -/
def findMistake? (goal : String) (candidates : List Step) : SessionM (Option (Step × Mistake)) :=
  candidates.findSomeM? fun candidate => do
    let mistake ← candidate.mistakes.findM? (isMistake goal candidate)
    return mistake.map fun mistake => (candidate, mistake.kind)

/-- The states behind the steps that have not been seen, and the keys seen after them. -/
def expand (path : List Hop) (available : List Change) : (candidates : List Step) →
    (seen : Std.TreeSet String) → SessionM (List State × Std.TreeSet String)
  | [], seen => return ([], seen)
  | candidate :: rest, seen => do
      let key ← stateKey candidate.after
      if seen.contains key then expand path available rest seen
      else
        let (states, seen) ← expand path available rest (seen.insert key)
        return (⟨candidate.after, path ++ [⟨candidate, available⟩]⟩ :: states, seen)

/-- Visits at most `count` of the states in the queue and of those they lead to. -/
def visit (goal : String) (maxDepth : Nat) : (count : Nat) → (queue : List State) →
    (seen : Std.TreeSet String) → SessionM (Option Found)
  | 0, _, _ => return none
  | _ + 1, [], _ => return none
  | count + 1, state :: queue, seen => do
      let candidates ← Session.nextSteps state.text
      let available := changesOf candidates
      match ← findStep? goal candidates with
      | some step => return some ⟨state.path ++ [⟨step, available⟩], none⟩
      | none =>
        match ← findMistake? goal candidates with
        | some (step, mistake) => return some ⟨state.path ++ [⟨step, available⟩], some mistake⟩
        | none =>
          if maxDepth ≤ state.path.length + 1 then visit goal maxDepth count queue seen
          else
            let (states, seen) ← expand state.path available candidates seen
            visit goal maxDepth count (queue ++ states) seen

/-- Searches for a path from one expression to another. -/
def run (start goal : String) : SessionM (Option Found) := do
  let settings := (← get).settings
  let key ← stateKey start
  visit goal settings.maxDepth settings.maxStates [⟨start, []⟩] (Std.TreeSet.empty.insert key)

end Search

end AlgebraTutor
