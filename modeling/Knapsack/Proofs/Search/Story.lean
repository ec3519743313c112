import Knapsack.Proofs.Search.Termination

/-! # The story that the events tell

An observer sees the start of a search, its root, one block for each processed node and the end. A
block belongs to a node that was created before and not processed yet, and it goes on from where the
earlier blocks left the tree and the incumbent. What an observer relies on follows from this shape
alone: nodes are numbered in the order of their creation, and each of them is processed at most once
and not before it was created.
-/

namespace Knapsack.Search

/-- The events of a search up to a head, with how far the search has come. -/
inductive Story (plan : Plan) : Standing → List Event → Prop
  | planted {root : Node} (drafted : Tree.Drafted {} none (.unassigned plan.inst.size) root) :
      Story plan ⟨Tree.next {}, .negInfinity⟩ [.searchStarted plan.inst, .nodeCreated root]
  | processed {before after : Standing} {born : Node} {children : List Node}
      {earlier events : List Event} (story : Story plan before earlier)
      (created : born ∈ createdIn earlier)
      (waits : born.id ∉ (processedIn earlier).map (·.id))
      (block : Block plan born.queued before after children events) :
      Story plan after (earlier ++ events)

/-- Events in which new nodes are numbered as they come, and each node is processed at most once,
after its creation and with a final class. -/
structure Consistent (events : List Event) : Prop where
  numbered : (createdIn events).map (·.id) = List.range (createdIn events).length
  fresh : ∀ node ∈ createdIn events, node.status = .unknown
  final : ∀ node ∈ processedIn events, node.status.isTerminal = true
  once : ((processedIn events).map (·.id)).Nodup
  later : ∀ seen, seen <+: events →
    (processedIn seen).map (·.id) ⊆ (createdIn seen).map (·.id)

variable {plan : Plan} {frontier : Frontier} {limit count : ℕ} {state : State Frontier}
  {standing : Standing} {events : List Event}

/-- The tree has the nodes that were created. -/
theorem Story.numbered (story : Story plan standing events) :
    (createdIn events).map (·.id) = List.range standing.tree.created := by
  induction story with
  | planted drafted => exact congrArg ([·]) drafted.number
  | processed _ _ _ block ih =>
    obtain ⟨numbers, created⟩ := block.map_id_children
    rw [createdIn_append, List.map_append, ih, block.createdIn_eq, created, List.range_add, numbers]

private theorem processed_subset {earlier seen : List Event} {born : Node} {before after : Standing}
    {children : List Node}
    (earlierOnes : ∀ seen, seen <+: earlier →
      (processedIn seen).map (·.id) ⊆ (createdIn seen).map (·.id))
    (created : born ∈ createdIn earlier)
    (block : Block plan born.queued before after children events)
    (cut : seen <+: earlier ++ events) :
    (processedIn seen).map (·.id) ⊆ (createdIn seen).map (·.id) := by
  rcases List.prefix_or_prefix_of_prefix cut (List.prefix_append earlier events) with
    within | beyond
  · exact earlierOnes seen within
  · obtain ⟨part, rfl⟩ := beyond
    have closing : processedIn part <+: processedIn events :=
      ((List.prefix_append_right_inj earlier).mp cut).filterMap _
    have known : ∀ id ∈ (createdIn earlier).map (·.id),
        id ∈ (createdIn (earlier ++ part)).map (·.id) := by
      intro id member
      rw [createdIn_append, List.map_append]
      exact List.mem_append_left _ member
    intro id member
    rw [processedIn_append, List.map_append] at member
    rcases List.mem_append.mp member with before | latest
    · exact known id (earlierOnes earlier (List.prefix_refl _) before)
    · have own := (closing.map (·.id)).subset latest
      rw [block.map_id_processedIn] at own
      obtain rfl : id = born.id := List.mem_singleton.mp own
      exact known _ (List.mem_map_of_mem created)

theorem Story.consistent (story : Story plan standing events) : Consistent events where
  numbered := by
    have numbered := story.numbered
    rw [numbered, length_eq_of_numbered numbered]
  fresh := by
    induction story with
    | planted drafted =>
      intro node member
      obtain rfl := List.mem_singleton.mp member
      exact drafted.fresh
    | processed _ _ _ block ih =>
      intro node member
      rw [createdIn_append, block.createdIn_eq] at member
      exact (List.mem_append.mp member).elim (ih node) (block.fresh node)
  final := by
    induction story with
    | planted _ => exact fun node absent => nomatch absent
    | processed _ _ _ block ih =>
      intro node member
      obtain ⟨status, terminal, -, closes⟩ := block.exists_processed
      rw [processedIn_append, closes] at member
      rcases List.mem_append.mp member with earlier | last
      · exact ih node earlier
      · obtain rfl := List.mem_singleton.mp last
        exact terminal
  once := by
    induction story with
    | planted _ => exact List.nodup_nil
    | processed _ _ waits block ih =>
      rw [processedIn_append, List.map_append, block.map_id_processedIn, ← List.concat_eq_append]
      exact List.Nodup.concat waits ih
  later := by
    induction story with
    | planted _ =>
      intro seen cut
      have nothing : processedIn seen <+: [] := cut.filterMap Event.processed?
      rw [List.prefix_nil.mp nothing]
      exact List.nil_subset _
    | processed _ created _ block ih =>
      exact fun seen cut => processed_subset ih created block cut

/-- The events up to a head are a story. -/
theorem Head.story (builtIn : plan.BuiltIn)
    (head : Head plan limit (.initial plan frontier) count state) :
    Story plan state.standing state.events := by
  refine head.by_blocks builtIn (fun _ state => Story plan state.standing state.events) ?_ ?_
  · intro root _ drafted
    rw [State.events_opening]
    exact Story.planted drafted
  · intro count before node rest children events after head story next _ advance
    have census := head.census builtIn
    obtain ⟨born, created, rfl⟩ := census.waits node (next ▸ List.mem_cons_self ..)
    have distinct := census.shared.nodup_iff.mpr List.nodup_range
    rw [next, List.map_cons, List.cons_append, List.nodup_cons, List.mem_append, not_or] at distinct
    rw [advance.chronicle]
    exact story.processed created distinct.1.2 advance.block

/-- What an observer sees of one search: a story, and then the end. -/
structure Told (plan : Plan) (events : List Event) (last : State Frontier) : Prop where
  complete : last.events = events ++ [.searchEnded last.statistics]
  story : Story plan last.standing events
  consistent : Consistent events

/-- Whether a search comes out or is interrupted, and under any ranking, its events are the start,
the root, one block for each processed node, and the end. -/
theorem events_are_blocks (builtIn : plan.BuiltIn) (frontier : Frontier) (limit : ℕ) :
    match search plan limit (.initial plan frontier) with
    | .ok _ last | .error (.error _) last => ∃ events, Told plan events last
    | .error (.defect _) _ => 2 ^ 64 ≤ plan.inst.size := by
  let told (last : State Frontier) : Prop := ∃ events, Told plan events last
  refine search_leaves told told builtIn ?_ ?_
  · rintro last ⟨count, head, -⟩
    have story := head.story builtIn
    exact ⟨last.events, State.events_completed, story, story.consistent⟩
  · rintro last ⟨head, -⟩
    have story := head.story builtIn
    exact ⟨last.events, State.events_interrupted limit, story, story.consistent⟩

theorem events_are_blocks_tight : Plan.tight.BuiltIn ∧
    ∃ best? last, search .tight 15 (.initial .tight (.empty .breadthFirst)) = .ok best? last ∧
      ∃ events, Told .tight events last ∧
        ∃ node ∈ processedIn events, node.status = .branched := by
  obtain ⟨best?, last, answers⟩ := tight_isOk (.empty .breadthFirst)
  have told := events_are_blocks Plan.tight_builtIn (.empty .breadthFirst) 15
  rw [answers] at told
  obtain ⟨events, told⟩ := told
  refine ⟨Plan.tight_builtIn, best?, last, answers, events, told, ?_⟩
  rw [← processedIn_of_ended told.complete]
  exact tight_branches answers

end Knapsack.Search
