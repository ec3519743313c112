import Knapsack.Proofs.Search.Mirror

/-! # A recorder that goes on to watch another search

The start of a search is no event for a recorder, so it never forgets. What it records of a further
search comes after what it recorded before, and the dates count the iterations of all searches. The
numbers of the nodes start again from zero, so that looking a number up finds the node of the latest
search that has one, while the children of a number are those of all searches. The recorder reports
what a fresh one would only if it had recorded nothing before.
-/

namespace Knapsack

open Search

/-- A record that dates from some number of iterations later. -/
def RecordedNode.postponed (delay : ℕ) (record : RecordedNode) : RecordedNode :=
  { record with
    createdAt := record.createdAt + delay
    processedAt? := record.processedAt?.map (· + delay) }

namespace TreeRecorder

variable {recorder earlier later after : TreeRecorder} {seen : List Event} {event : Event}

/-- A recorder that recorded what an earlier one did, and then what a later one did. -/
def followedBy (earlier later : TreeRecorder) : TreeRecorder where
  created := later.created.map (.postponed earlier.iterations.length) ++ earlier.created
  processed := later.processed ++ earlier.processed

/-- What a recorder reports is what an earlier one did and then what a later one does, dated from
the end of the earlier one. A number of both names the node of the later one. -/
structure Continues (recorder earlier later : TreeRecorder) : Prop where
  nodes : recorder.nodes =
    earlier.nodes ++ later.nodes.map (.postponed earlier.iterations.length)
  iterations : recorder.iterations = earlier.iterations ++ later.iterations
  node? : ∀ id, recorder.node? id =
    ((later.node? id).map (.postponed earlier.iterations.length)).or (earlier.node? id)
  children : ∀ id, recorder.children id =
    earlier.children id ++ (later.children id).map (.postponed earlier.iterations.length)

/-- Two recorders that report the same. -/
structure ReportsAs (recorder other : TreeRecorder) : Prop where
  nodes : recorder.nodes = other.nodes
  node? : ∀ id, recorder.node? id = other.node? id
  iterations : recorder.iterations = other.iterations
  children : ∀ id, recorder.children id = other.children id
  json : recorder.json = other.json

section Reports

theorem node?_followedBy (id : ℕ) : (earlier.followedBy later).node? id =
    ((later.node? id).map (.postponed earlier.iterations.length)).or (earlier.node? id) := by
  rw [node?, followedBy, List.find?_append, List.find?_map]
  rfl

theorem continues_followedBy : (earlier.followedBy later).Continues earlier later where
  nodes := by
    rw [nodes, followedBy, List.reverse_append, ← List.map_reverse]
    rfl
  iterations := List.reverse_append
  node? := node?_followedBy
  children := by
    intro id
    rw [children, nodes, followedBy, List.reverse_append, ← List.map_reverse, List.filter_append,
      List.filter_map]
    rfl

/-- What a recorder reports determines it. -/
theorem reportsAs_iff {other : TreeRecorder} : recorder.ReportsAs other ↔ recorder = other := by
  constructor
  · intro reports
    have created := List.reverse_injective reports.nodes
    have processed := List.reverse_injective reports.iterations
    cases recorder
    cases other
    cases created
    cases processed
    rfl
  · rintro rfl
    exact ⟨rfl, fun _ => rfl, rfl, fun _ => rfl, rfl⟩

/-- Whatever was recorded before shows. -/
theorem followedBy_eq_iff : earlier.followedBy later = later ↔ earlier = {} := by
  constructor
  · intro same
    have created := congrArg (·.created.length) same
    have processed := congrArg (·.processed.length) same
    simp only [followedBy, List.length_append, List.length_map, Nat.add_eq_left,
      List.length_eq_zero_iff] at created processed
    cases earlier
    cases created
    cases processed
    rfl
  · rintro rfl
    have kept : RecordedNode.postponed 0 = id := by
      funext record
      simp [RecordedNode.postponed]
    simp [followedBy, iterations, kept]

end Reports

section Steps

private theorem amend_postponed_append {id delay : ℕ} {change changed : RecordedNode → RecordedNode}
    (commutes : ∀ record, changed (.postponed delay record) = .postponed delay (change record))
    {records : List RecordedNode} (known : (records.find? (·.id == id)).isSome = true)
    (others : List RecordedNode) : amend id changed (records.map (.postponed delay) ++ others) =
      (amend id change records).map (.postponed delay) ++ others := by
  induction records with
  | nil => exact nomatch known
  | cons record rest ih =>
    have kept : (record.postponed delay).id = record.id := rfl
    rw [List.map_cons, List.cons_append, amend, amend, kept]
    split_ifs with same
    · rw [commutes, List.map_cons, List.cons_append]
    · rw [List.find?_cons_of_neg (by simpa using same)] at known
      rw [ih known, List.map_cons, List.cons_append]

/-- A new node is recorded in the same way, but the iterations of the earlier recorder count. -/
theorem create_followedBy {node : Node} (creates : later.create node = .ok after) :
    (earlier.followedBy later).create node = .ok (earlier.followedBy after) := by
  obtain ⟨known, rfl⟩ := create_eq_ok_iff.mp creates
  refine create_eq_ok_iff.mpr ⟨fun parent below => ?_, ?_⟩
  · obtain ⟨record, found⟩ := Option.isSome_iff_exists.mp (known parent below)
    rw [node?_followedBy, found]
    rfl
  · have dated : RecordedNode.ofCreated node (earlier.followedBy later).iterations.length =
        (RecordedNode.ofCreated node later.iterations.length).postponed
          earlier.iterations.length := by
      rw [continues_followedBy.iterations, List.length_append, Nat.add_comm]
      rfl
    rw [dated]
    rfl

/-- A processed node that the later recorder knows is completed there. -/
theorem process_followedBy {node : Node} (known : (later.node? node.id).isSome = true)
    (lower upper : Bound) : (earlier.followedBy later).process node lower upper =
      earlier.followedBy (later.process node lower upper) := by
  have count : (earlier.followedBy later).processed.length =
      later.processed.length + earlier.iterations.length := by
    rw [followedBy, List.length_append, iterations, List.length_reverse]
  unfold process
  rw [count]
  refine congrArg (TreeRecorder.mk · _) (amend_postponed_append ?_ known _)
  exact fun _ => rfl

/-- One event is recorded after an earlier recorder as it is on its own. -/
theorem observe_followedBy
    (known : ∀ node, event.processed? = some node → (later.node? node.id).isSome = true)
    (follows : later.observe event = .ok after) :
    (earlier.followedBy later).observe event = .ok (earlier.followedBy after) := by
  cases event with
  | nodeCreated node => exact create_followedBy follows
  | nodeProcessed node lower upper incumbent? found =>
    obtain rfl := Except.ok.inj follows
    exact congrArg Except.ok (process_followedBy (known node rfl) lower upper)
  | searchStarted _ | solutionFound _ _ _ | searchEnded _ =>
    obtain rfl := Except.ok.inj follows
    rfl

end Steps

/-- Consistent events are recorded after an earlier recorder as they are on their own. -/
theorem exists_followedBy (earlier : TreeRecorder) (orderly : Orderly [] seen)
    (consistent : Consistent seen) : ∃ later, TreeRecorder.observeAll {} seen = .ok later ∧
      later.Records seen ∧ earlier.observeAll seen = .ok (earlier.followedBy later) := by
  induction seen using List.reverseRecOn with
  | nil => exact ⟨{}, rfl, ⟨.nil, rfl, by simp [nodes]⟩, rfl⟩
  | append_singleton seen event ih =>
    obtain ⟨after, outcome, still⟩ := exists_records orderly consistent
    obtain ⟨later, first, records, both⟩ :=
      ih (orderly_append.mp orderly).1 (consistent.of_prefix (List.prefix_append ..))
    have follows : later.observe event = .ok after := by
      rw [observeAll, List.foldlM_append] at outcome
      obtain ⟨middle, seenFirst, last⟩ := bind_eq_ok.mp outcome
      obtain rfl := Except.ok.inj (first.symm.trans seenFirst)
      obtain ⟨_, last, rest⟩ := bind_eq_ok.mp last
      cases rest
      exact last
    refine ⟨after, outcome, still, ?_⟩
    rw [observeAll, List.foldlM_append]
    refine bind_eq_ok.mpr ⟨_, both, bind_eq_ok.mpr ⟨_, observe_followedBy ?_ follows, rfl⟩⟩
    -- A processed node was created before, so it is the later recorder that completes it.
    intro node processed
    have member : node ∈ processedIn (seen ++ [event]) :=
      List.mem_filterMap.mpr ⟨event, List.mem_append_right _ (List.mem_singleton_self _), processed⟩
    have known := consistent.later _ (List.prefix_refl _) (List.mem_map_of_mem member)
    have nobody : createdIn [event] = [] := by
      cases event <;> cases processed
      rfl
    rw [createdIn_append, nobody, List.append_nil, ← records.map_id] at known
    obtain ⟨record, listed, same⟩ := List.mem_map.mp known
    exact List.find?_isSome.mpr ⟨record, List.mem_reverse.mp listed, beq_iff_eq.mpr same⟩

end TreeRecorder

namespace Search

variable {plan : Plan} {limit count : ℕ} {frontier : Frontier} {state : State Frontier}

private theorem Story.createdIn_ne_nil {standing : Standing}
    (story : Story plan standing seen) : createdIn seen ≠ [] := by
  induction story with
  | planted _ => exact List.cons_ne_nil _ _
  | processed _ _ _ _ ih =>
    rw [createdIn_append]
    exact List.append_ne_nil_of_left_ne_nil ih _

/-- Events of which a fresh recorder has some records, which any other one adds to those it has. -/
def Rewatched (events : List Event) : Prop :=
  ∃ fresh, TreeRecorder.observeAll {} events = .ok fresh ∧ fresh.nodes ≠ [] ∧
    ∀ earlier : TreeRecorder, earlier.observeAll events = .ok (earlier.followedBy fresh)

private theorem Head.rewatched (builtIn : plan.BuiltIn)
    (head : Head plan limit (.initial plan frontier) count state) (statistics : Statistics) :
    Rewatched (state.events ++ [.searchEnded statistics]) := by
  have story := head.story builtIn
  have orderly := (head.traceable builtIn.tame).orderly
  obtain ⟨fresh, outcome, records⟩ := TreeRecorder.exists_records orderly story.consistent
  have ended : ∀ before after : TreeRecorder, before.observeAll state.events = .ok after →
      before.observeAll (state.events ++ [.searchEnded statistics]) = .ok after := by
    intro before after watched
    rw [TreeRecorder.observeAll, List.foldlM_append]
    exact bind_eq_ok.mpr ⟨after, watched, rfl⟩
  refine ⟨fresh, ended _ _ outcome, fun nothing => ?_, fun earlier => ?_⟩
  · have numbers := records.map_id
    rw [nothing] at numbers
    exact story.createdIn_ne_nil (List.map_eq_nil_iff.mp numbers.symm)
  · obtain ⟨later, outcomeToo, -, both⟩ :=
      TreeRecorder.exists_followedBy earlier orderly story.consistent
    obtain rfl := Except.ok.inj (outcome.symm.trans outcomeToo)
    exact ended _ _ both

private theorem search_rewatched (builtIn : plan.BuiltIn) (frontier : Frontier) (limit : ℕ) :
    match search plan limit (.initial plan frontier) with
    | .ok _ last | .error (.error _) last => Rewatched last.events
    | .error (.defect _) _ => 2 ^ 64 ≤ plan.inst.size := by
  refine search_leaves (Rewatched ·.events) (Rewatched ·.events) builtIn ?_ ?_
  · rintro last ⟨count, head, -⟩
    rw [State.events_completed]
    exact head.rewatched builtIn _
  · rintro last ⟨head, -⟩
    rw [State.events_interrupted limit]
    exact head.rewatched builtIn _

/-- Any recorder can watch a search, under any ranking and any budget. What it reports then is the
tree of the search exactly if it had recorded nothing before; otherwise the nodes of the search come
on top of the earlier ones. -/
theorem reused_recorder_is_fresh_iff (builtIn : plan.BuiltIn) (frontier : Frontier) (limit : ℕ) :
    match search plan limit (.initial plan frontier) with
    | .ok _ last | .error (.error _) last =>
      ∃ fresh, TreeRecorder.observeAll {} last.events = .ok fresh ∧ fresh.nodes ≠ [] ∧
        ∀ earlier : TreeRecorder, ∃ both, earlier.observeAll last.events = .ok both ∧
          both.Continues earlier fresh ∧ (both.ReportsAs fresh ↔ earlier = {})
    | .error (.defect _) _ => 2 ^ 64 ≤ plan.inst.size := by
  have reports : ∀ events, Rewatched events →
      ∃ fresh, TreeRecorder.observeAll {} events = .ok fresh ∧ fresh.nodes ≠ [] ∧
        ∀ earlier : TreeRecorder, ∃ both, earlier.observeAll events = .ok both ∧
          both.Continues earlier fresh ∧ (both.ReportsAs fresh ↔ earlier = {}) := by
    rintro events ⟨fresh, outcome, shows, again⟩
    refine ⟨fresh, outcome, shows, fun earlier => ⟨_, again earlier, ?_, ?_⟩⟩
    · exact TreeRecorder.continues_followedBy
    · rw [TreeRecorder.reportsAs_iff, TreeRecorder.followedBy_eq_iff]
  have watched := search_rewatched builtIn frontier limit
  generalize search plan limit (.initial plan frontier) = result at watched ⊢
  cases result with
  | ok best? last => exact reports _ watched
  | error failure last =>
    cases failure with
    | error error => exact reports _ watched
    | defect defect => exact watched

/-- A recorder that processed a node before does not report what a fresh one does. -/
theorem reused_recorder_is_fresh_iff_tight : Plan.tight.BuiltIn ∧
    ∃ best? last fresh both,
      search .tight 15 (.initial .tight (.empty .bestBound)) = .ok best? last ∧
      TreeRecorder.observeAll {} last.events = .ok fresh ∧
      TreeRecorder.observeAll ⟨[], [7]⟩ last.events = .ok both ∧
      both.iterations = 7 :: fresh.iterations ∧ ¬both.ReportsAs fresh := by
  obtain ⟨best?, last, answers⟩ := tight_isOk (.empty .bestBound)
  have watched := reused_recorder_is_fresh_iff Plan.tight_builtIn (.empty .bestBound) 15
  rw [answers] at watched
  obtain ⟨fresh, outcome, -, again⟩ := watched
  obtain ⟨both, outcomeToo, continues, reports⟩ := again ⟨[], [7]⟩
  refine ⟨Plan.tight_builtIn, best?, last, fresh, both, answers, outcome, outcomeToo,
    continues.iterations, fun same => ?_⟩
  exact absurd (reports.mp same) (by decide)

/-- The same recorder watches a search and then another one, and reports the nodes of both. -/
theorem recorder_mixes_two_searches : ∃ best? last fresh both,
    search .tight 15 (.initial .tight (.empty .bestBound)) = .ok best? last ∧
      TreeRecorder.observeAll {} last.events = .ok fresh ∧
      fresh.observeAll last.events = .ok both ∧
      both.nodes.length = 2 * fresh.nodes.length ∧ ¬both.ReportsAs fresh := by
  obtain ⟨best?, last, answers⟩ := tight_isOk (.empty .bestBound)
  have watched := search_rewatched Plan.tight_builtIn (.empty .bestBound) 15
  rw [answers] at watched
  obtain ⟨fresh, outcome, shows, again⟩ := watched
  refine ⟨best?, last, fresh, _, answers, outcome, again fresh, ?_, fun same => shows ?_⟩
  · rw [TreeRecorder.continues_followedBy.nodes, List.length_append, List.length_map, Nat.two_mul]
  · rw [TreeRecorder.followedBy_eq_iff.mp (TreeRecorder.reportsAs_iff.mp same)]
    rfl

end Search

end Knapsack
