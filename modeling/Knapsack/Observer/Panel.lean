import Knapsack.Observer.ProgressTracker
import Knapsack.Observer.TreeRecorder

/-! # Several observers at once

A panel shows every event to all of its observers, in their order. The transcript of a search puts
what they tell between the notices of the search itself.
-/

namespace Knapsack

/-- An observer of a search. -/
inductive Observer where
  | recorder (recorder : TreeRecorder)
  | tracker (tracker : ProgressTracker)
deriving DecidableEq

/-- Shows an event to one observer, which may tell about it. -/
def Observer.observe (event : Search.Event) :
    Observer → Except Defect (Observer × List Search.Notice)
  | .recorder before => do return (.recorder (← before.observe event), [])
  | .tracker before => do
    let (after, notices) ← before.observe event
    return (.tracker after, notices)

/-- Observers, in the order in which they see an event. -/
abbrev Panel := List Observer

namespace Panel

/-- Shows an event to all observers. -/
def observe (panel : Panel) (event : Search.Event) :
    Except Defect (Panel × List Search.Notice) := do
  let seen ← panel.mapM (·.observe event)
  return (seen.map (·.1), (seen.map (·.2)).flatten)

/-- The first recorder of the panel. -/
def recorder? (panel : Panel) : Option TreeRecorder :=
  panel.findSome? fun
    | .recorder found => some found
    | .tracker _ => none

/-- The first tracker of the panel. -/
def tracker? (panel : Panel) : Option ProgressTracker :=
  panel.findSome? fun
    | .recorder _ => none
    | .tracker found => some found

/-- Shows an entry of a journal to the observers; what they tell follows what was told before. -/
def follow (told : Panel × Array Search.Notice) (entry : Search.JournalEntry) :
    Except Defect (Panel × Array Search.Notice) :=
  match entry with
  | .notice notice => return (told.1, told.2.push notice)
  | .event seen => do
    let (panel, notices) ← told.1.observe seen
    return (panel, told.2.appendList notices)

/-- What the observers know after a piece of a journal, and all that was told meanwhile. -/
def transcript (panel : Panel) (journal : Array Search.JournalEntry) :
    Except Defect (Panel × Array Search.Notice) :=
  journal.foldlM follow (panel, #[])

end Panel

end Knapsack
