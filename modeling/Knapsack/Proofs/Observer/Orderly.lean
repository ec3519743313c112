import Knapsack.Observer.Panel
import Knapsack.Proofs.Observer.Recording
import Knapsack.Proofs.Outcome

/-! # Observers follow orderly events

Events are orderly when the parent of every new node was created before and every solution that is
reported has a value. A recorder that starts afresh then knows every node that was created, so it
never meets an orphan, and a tracker never fails to show a solution.
-/

namespace Knapsack

namespace Search

/-- An event that makes sense after the given ones. -/
def Event.Grounded (seen : List Event) : Event → Prop
  | .nodeCreated node => ∀ parent, node.parent? = some parent →
      ∃ created, .nodeCreated created ∈ seen ∧ created.id = parent
  | .solutionFound _ solution _ => ∃ value, solution.value = .ok value
  | _ => True

/-- Events that make sense one after the other. -/
def Orderly (seen : List Event) : List Event → Prop
  | [] => True
  | event :: rest => event.Grounded seen ∧ Orderly (seen ++ [event]) rest

variable {seen first second : List Event}

theorem Event.Grounded.mono {later : List Event} {event : Event} (grounded : event.Grounded seen)
    (known : seen ⊆ later) : event.Grounded later := by
  cases event with
  | nodeCreated node =>
    intro parent below
    obtain ⟨created, member, same⟩ := grounded parent below
    exact ⟨created, known member, same⟩
  | solutionFound node solution incumbent => exact grounded
  | searchStarted _ | nodeProcessed _ _ _ _ _ | searchEnded _ => trivial

theorem orderly_append : Orderly seen (first ++ second) ↔
    Orderly seen first ∧ Orderly (seen ++ first) second := by
  induction first generalizing seen with
  | nil => simp [Orderly]
  | cons event rest ih =>
    rw [List.cons_append, Orderly, Orderly, ih, and_assoc, List.append_assoc]
    rfl

/-- Events that all make sense already may come in any order. -/
theorem orderly_of_grounded (grounded : ∀ event ∈ second, event.Grounded seen) :
    Orderly seen second := by
  induction second generalizing seen with
  | nil => trivial
  | cons event rest ih =>
    obtain ⟨now, others⟩ := List.forall_mem_cons.mp grounded
    exact ⟨now, ih fun other member =>
      (others other member).mono (List.subset_append_left _ _)⟩

end Search

open Search

variable {seen : List Event}

namespace TreeRecorder

/-- A recorder that has a record of every node that was created. -/
def Knows (seen : List Event) (recorder : TreeRecorder) : Prop :=
  ∀ node, .nodeCreated node ∈ seen → (recorder.node? node.id).isSome = true

theorem isSome_find?_amend (id target : ℕ) {change : RecordedNode → RecordedNode}
    (kept : ∀ node, (change node).id = node.id) (nodes : List RecordedNode) :
    ((amend target change nodes).find? (·.id == id)).isSome =
      (nodes.find? (·.id == id)).isSome := by
  induction nodes with
  | nil => rfl
  | cons node rest ih =>
    unfold amend
    split_ifs with same
    · simp only [List.find?_cons, kept]
      split <;> rfl
    · simp only [List.find?_cons]
      split
      · rfl
      · exact ih

/-- A recorder follows an event that makes sense. -/
theorem observe_isOk {recorder : TreeRecorder} {event : Event} (knows : recorder.Knows seen)
    (grounded : event.Grounded seen) :
    ∃ after, recorder.observe event = .ok after ∧ after.Knows (seen ++ [event]) := by
  cases event with
  | nodeCreated node =>
    obtain ⟨recorded, outcome, opens⟩ := create_isOk fun parent below => by
      obtain ⟨created, member, rfl⟩ := grounded parent below
      exact knows created member
    refine ⟨_, outcome, fun other member => ?_⟩
    simp only [node?, List.find?_cons]
    split
    · rfl
    · rename_i different
      rcases List.mem_append.mp member with before | latest
      · exact knows other before
      · obtain rfl : other = node := by simpa using latest
        simp [opens.describes.id] at different
  | nodeProcessed node lower upper incumbent? found =>
    refine ⟨_, rfl, fun other member => ?_⟩
    have before : Event.nodeCreated other ∈ seen := by simpa using member
    refine (isSome_find?_amend _ _ ?_ _).trans (knows other before)
    exact fun _ => rfl
  | searchStarted _ | solutionFound _ _ _ | searchEnded _ =>
    exact ⟨recorder, rfl, fun other member => knows other (by simpa using member)⟩

end TreeRecorder

/-- A tracker follows an event that makes sense, whatever it tracked before. -/
theorem ProgressTracker.observe_isOk (tracker : ProgressTracker) {event : Event}
    (grounded : event.Grounded seen) : ∃ result, tracker.observe event = .ok result := by
  cases event with
  | solutionFound node solution incumbent =>
    obtain ⟨value, worth⟩ := grounded
    have valued : exactly solution.value = .ok value := exactly_eq_ok_iff.mpr worth
    simp only [observe, find, valued, bind, Except.bind]
    split_ifs <;> exact ⟨_, rfl⟩
  | searchStarted _ | nodeCreated _ | nodeProcessed _ _ _ _ _ | searchEnded _ => exact ⟨_, rfl⟩

/-- An observer that is no recorder, or a recorder that knows all nodes. -/
def Observer.Knows (seen : List Event) : Observer → Prop
  | .recorder tree => tree.Knows seen
  | .tracker _ => True

theorem Observer.observe_isOk {observer : Observer} {event : Event}
    (knows : observer.Knows seen) (grounded : event.Grounded seen) :
    ∃ result, observer.observe event = .ok result ∧ result.1.Knows (seen ++ [event]) := by
  cases observer with
  | recorder recorder =>
    obtain ⟨after, outcome, still⟩ := TreeRecorder.observe_isOk knows grounded
    refine ⟨(.recorder after, []), ?_, still⟩
    simp only [observe, outcome, bind, Except.bind, pure, Except.pure]
  | tracker tracker =>
    obtain ⟨⟨after, notices⟩, outcome⟩ := tracker.observe_isOk grounded
    refine ⟨(.tracker after, notices), ?_, trivial⟩
    simp only [observe, outcome, bind, Except.bind, pure, Except.pure]

namespace Panel

/-- A panel of observers that know the events so far. -/
def Knows (seen : List Event) (panel : Panel) : Prop := ∀ observer ∈ panel, observer.Knows seen

/-- A panel on which every recorder is a fresh one. -/
def Fresh (panel : Panel) : Prop :=
  ∀ recorder, Observer.recorder recorder ∈ panel → recorder = {}

/-- Before anything happened, a fresh panel knows everything. -/
theorem Fresh.knows {panel : Panel} (fresh : panel.Fresh) : panel.Knows [] := by
  intro observer member
  cases observer with
  | recorder recorder =>
    obtain rfl := fresh recorder member
    exact fun node absent => nomatch absent
  | tracker _ => trivial

theorem observe_isOk {panel : Panel} {event : Event} (knows : panel.Knows seen)
    (grounded : event.Grounded seen) :
    ∃ result, panel.observe event = .ok result ∧ result.1.Knows (seen ++ [event]) := by
  obtain ⟨answers, outcome, still⟩ := exists_mapM_ok_forall panel (·.observe event)
    (fun answer => answer.1.Knows (seen ++ [event]))
    fun observer member => Observer.observe_isOk (knows observer member) grounded
  refine ⟨(answers.map (·.1), (answers.map (·.2)).flatten), ?_, ?_⟩
  · simp only [observe, outcome, bind, Except.bind, pure, Except.pure]
  · intro observer member
    obtain ⟨answer, listed, rfl⟩ := List.mem_map.mp member
    exact still answer listed

/-- A panel follows a journal of orderly events to its end. -/
theorem transcript_isOk {panel : Panel} {journal : Array JournalEntry} (fresh : panel.Fresh)
    (orderly : Orderly [] (journal.toList.filterMap (·.event?))) :
    ∃ told, panel.transcript journal = .ok told := by
  unfold transcript
  rw [← Array.foldlM_toList]
  -- What was seen is no longer in the entries that are left, so the induction carries it along.
  suffices general : ∀ (entries : List JournalEntry) (seen : List Event)
      (told : Panel × Array Notice), told.1.Knows seen →
        Orderly seen (entries.filterMap (·.event?)) →
          ∃ final, entries.foldlM follow told = .ok final from
    general journal.toList [] (panel, #[]) fresh.knows orderly
  intro entries
  induction entries with
  | nil => exact fun _ told _ _ => ⟨told, rfl⟩
  | cons entry rest ih =>
    intro seen told knows orderly
    cases entry with
    | notice notice => exact ih seen (told.1, told.2.push notice) knows orderly
    | event event =>
      obtain ⟨grounded, later⟩ := orderly
      obtain ⟨⟨panel, notices⟩, outcome, still⟩ := observe_isOk knows grounded
      obtain ⟨final, followed⟩ := ih _ (panel, told.2.appendList notices) still later
      refine ⟨final, ?_⟩
      simp only [List.foldlM_cons, follow, outcome, bind, Except.bind, pure, Except.pure]
      exact followed

end Panel

end Knapsack
