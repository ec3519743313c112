import Knapsack.Proofs.Search.Lockstep
import Knapsack.Proofs.Search.Termination
import Knapsack.Proofs.SolutionSet.Records

/-! # Keeping all solutions or improvements only

The set of solutions records what the events report as found, in either mode. Both modes agree on
the incumbent, and that is all that a search reads of its solutions; so the two searches go in
lockstep, and they differ in nothing but the solutions that they keep.
-/

namespace Knapsack.Search

/-- The solution that an event reports as found: one of the heuristic, or the relaxed solution of a
node that turned out integral. -/
def Event.discovery? : Event → Option Solution
  | .solutionFound _ solution _ => some solution
  | .nodeProcessed node _ _ _ _ => if node.status = .feasible then some node.relaxed else none
  | _ => none

/-- The solutions that were found, in the order of their discovery. -/
def discoveredIn (events : List Event) : List Solution := events.filterMap (·.discovery?)

@[simp]
theorem discoveredIn_append (first second : List Event) :
    discoveredIn (first ++ second) = discoveredIn first ++ discoveredIn second :=
  List.filterMap_append

/-- A state whose solutions are a record of what its events report. -/
def State.Recorded (inst : Instance) (keepAll : Bool) (state : State Frontier) : Prop :=
  state.solutions.Records inst keepAll (discoveredIn state.events)

section Turns

variable {plan : Plan} {excuse : Failure → Prop} {limit count : ℕ} {frontier : Frontier}
  {keepAll : Bool} {node : Node} {state before after : State Frontier}

/-- Events that report no discovery need no record. -/
theorem State.Recorded.append (recorded : before.Recorded plan.inst keepAll) {more : List Event}
    (events : after.events = before.events ++ more) (silent : discoveredIn more = [])
    (solutions : after.solutions = before.solutions) : after.Recorded plan.inst keepAll := by
  rw [State.Recorded, events, discoveredIn_append, silent, List.append_nil, solutions]
  exact recorded

theorem State.Recorded.accepted (recorded : state.Recorded plan.inst keepAll)
    {found : Solution × Fraction} (packs : found.1.Packs plan.inst)
    (known : found.1.value = .ok found.2) :
    (state.accepted node found).Recorded plan.inst keepAll := by
  rw [State.Recorded, State.events_accepted, discoveredIn_append]
  exact recorded.insert packs known

theorem State.Recorded.harvested (recorded : state.Recorded plan.inst keepAll) (node : Node)
    {found : List (Solution × Fraction)} (valued : Valued plan.inst found)
    (notices : List Notice) : (state.harvested node notices found).Recorded plan.inst keepAll := by
  refine List.foldlRecOn found _ ?_ fun state recorded entry listed =>
    recorded.accepted (valued entry listed).1 (valued entry listed).2
  rw [State.Recorded, State.events_told]
  exact recorded

theorem State.Recorded.grown (recorded : state.Recorded plan.inst keepAll) (children : List Node) :
    (state.grown children).Recorded plan.inst keepAll := by
  have silent : discoveredIn (children.map .nodeCreated) = [] := by
    simp [discoveredIn, Event.discovery?]
  exact recorded.append (State.events_grown state children) silent
    (State.grown_solutions state children)

/-- A turn records what it finds. -/
theorem Turn.recorded (turn : Turn plan node before after) (drawn : node.Drawn plan.inst)
    (recorded : before.Recorded plan.inst keepAll) : after.Recorded plan.inst keepAll := by
  obtain ⟨classified⟩ := turn
  cases classified with
  | infeasible _ => exact recorded.append (State.events_closed _ _) rfl rfl
  | pruned _ _ => exact recorded.append (State.events_closed _ _) rfl rfl
  | feasible feasible _ integral =>
    have packs := drawn.packs feasible integral
    rw [State.Recorded, State.events_closed, State.events_recorded, discoveredIn_append]
    exact recorded.insert packs drawn.worth
  | branched _ _ _ _ _ valued _ _ _ =>
    exact ((recorded.harvested node valued _).grown _).append (State.events_closed _ _) rfl rfl

/-- The solutions are a record of the events at every head. -/
theorem Head.recorded (tame : plan.Tame excuse)
    (head : Head plan limit (.initial plan frontier) count state) :
    state.Recorded plan.inst plan.config.keepAll := by
  refine head.invariant tame (fun _ state => state.Recorded plan.inst plan.config.keepAll) ?_ ?_
  · intro root _ _
    rw [State.Recorded, State.events_opening]
    exact SolutionSet.records_empty plan.inst plan.config.keepAll
  · intro count before node rest after recorded waiting _ _ next _ turn
    obtain ⟨drawn, -⟩ := waiting node (next ▸ List.mem_cons_self ..)
    exact turn.recorded drawn recorded

/-- So are they at the end of a search. -/
theorem search_recorded (builtIn : plan.BuiltIn) (frontier : Frontier) (limit : ℕ) :
    match search plan limit (.initial plan frontier) with
    | .ok _ last | .error (.error _) last => last.Recorded plan.inst plan.config.keepAll
    | .error (.defect _) _ => 2 ^ 64 ≤ plan.inst.size := by
  refine search_leaves _ _ builtIn ?_ ?_
  · rintro last ⟨count, head, -⟩
    exact (head.recorded builtIn.tame).append State.events_completed rfl rfl
  · rintro last ⟨head, -⟩
    exact (head.recorded builtIn.tame).append (State.events_interrupted limit) rfl rfl

end Turns

/-- Lawful sets with one incumbent. -/
structure Agreed (inst : Instance) (left right : SolutionSet) : Prop where
  lawful : left.Lawful inst
  also : right.Lawful inst
  incumbent : left.incumbent? = right.incumbent?

/-- Sets that agree on the incumbent take the same solutions as the next one. -/
theorem Solution.addsAlike_agreed {inst : Instance} {solution : Solution}
    (about : solution.inst = inst) : solution.AddsAlike (Agreed inst) := by
  intro left right agreed
  by_cases fit : ∃ value, solution.Packs inst ∧ solution.value = .ok value
  · obtain ⟨value, packs, known⟩ := fit
    have same := SolutionSet.lowerBound_congr agreed.incumbent
    have improves : (left.insert solution value).2 = (right.insert solution value).2 := by
      rw [SolutionSet.insert_improves, SolutionSet.insert_improves, same]
    have incumbent : (left.insert solution value).1.incumbent? =
        (right.insert solution value).1.incumbent? := by
      rw [agreed.lawful.incumbent?_insert about known, agreed.also.incumbent?_insert about known,
        same, agreed.incumbent]
    have still : Agreed inst (left.insert solution value).1 (right.insert solution value).1 :=
      ⟨agreed.lawful.insert packs known, agreed.also.insert packs known, incumbent⟩
    rw [SolutionSet.add_eq packs known, SolutionSet.add_eq packs known,
      show left.insert solution value = ((left.insert solution value).1,
        (right.insert solution value).2) from Prod.ext rfl improves]
    exact .added still
  · obtain ⟨defect, refused⟩ :=
      SolutionSet.add_refused about fun value packs known => fit ⟨value, packs, known⟩
    rw [refused, refused]
    exact .refused

/-- The same plan, with the solutions that are kept. -/
def Plan.keeping (plan : Plan) (keepAll : Bool) : Plan :=
  { plan with config := { plan.config with keepAll } }

section Modes

variable {plan : Plan} {frontier : Frontier} {limit : ℕ}

theorem Plan.BuiltIn.keeping (builtIn : plan.BuiltIn) (keepAll : Bool) :
    (plan.keeping keepAll).BuiltIn := ⟨builtIn.relaxation, builtIn.branching, builtIn.heuristic⟩

private theorem tolerates_agreed (builtIn : plan.BuiltIn) :
    plan.Tolerates plan.branching (.ofSolutions plan.inst (Agreed plan.inst) Agreed.incumbent) := by
  refine Plan.Tolerates.of_greedy builtIn.relaxation (fun _ _ _ => rfl)
    (fun _ drawn => Solution.addsAlike_agreed drawn.about) ?_
  intro call node harvest drawn outcome solution member
  apply Solution.addsAlike_agreed
  exact builtIn.faithful.about call node harvest drawn outcome solution member

/-- States that differ at most in the solutions they keep, and not in the incumbent. -/
structure Alike (all improving : State Frontier) : Prop where
  others : { all with solutions := improving.solutions } = improving
  incumbent : all.solutions.incumbent? = improving.solutions.incumbent?

/-- Such states where the one records all solutions that were found, without repetitions, and the
other those of them that are worth more than all before. -/
structure Kept (all improving : State Frontier) : Prop extends Alike all improving where
  found : all.solutions.recorded = (discoveredIn all.events).eraseDups
  leading : improving.solutions.recorded = leaders all.solutions.recorded

private theorem State.Kin.alike {inst : Instance} {all improving : State Frontier}
    (kin : State.Kin (.ofSolutions inst (Agreed inst) Agreed.incumbent) all improving) :
    Alike all improving := by
  obtain ⟨⟨rfl, -⟩, agreed, rfl⟩ := kin
  exact ⟨rfl, agreed.incumbent⟩

private theorem State.Kin.kept {inst : Instance} {all improving : State Frontier}
    (kin : State.Kin (.ofSolutions inst (Agreed inst) Agreed.incumbent) all improving)
    (every : all.Recorded inst true) (best : improving.Recorded inst false) :
    Kept all improving := by
  refine ⟨kin.alike, every.recorded, ?_⟩
  have same : discoveredIn improving.events = discoveredIn all.events := by
    rw [← kin.alike.others]
    rfl
  rw [every.recorded, best.recorded, same]
  exact (leaders_eraseDups _).symm

private theorem searches_abreast (builtIn : plan.BuiltIn) (frontier : Frontier) (limit : ℕ) :
    Abreast (State.Kin (.ofSolutions plan.inst (Agreed plan.inst) Agreed.incumbent))
      (search (plan.keeping true) limit (.initial (plan.keeping true) frontier))
      (search (plan.keeping false) limit (.initial (plan.keeping false) frontier)) := by
  -- The frontier of neither search has to hold nodes of the instance before it begins.
  have cleared : ∀ keepAll, search (plan.keeping keepAll) limit
      (.initial (plan.keeping keepAll) frontier) = search (plan.keeping keepAll) limit
        { State.initial (plan.keeping keepAll) frontier with frontier := frontier.clear } :=
    fun _ => search_cleared State.initial_unfinished
  rw [cleared, cleared]
  apply matches_search (tolerates_agreed (builtIn.keeping true)) limit
  refine .intro ⟨rfl, fun _ absent => nomatch absent⟩ ?_ rfl
  exact ⟨SolutionSet.lawful_empty _ _, SolutionSet.lawful_empty _ _, rfl⟩

/-- What a search keeps does not influence it: in either mode it comes out with the same result, and
it leaves the same events, incumbent, tree, statistics, bounds and frontier behind, whatever the
ranking and the budget. -/
theorem keeping_changes_nothing_else (builtIn : plan.BuiltIn) (frontier : Frontier) (limit : ℕ) :
    match search (plan.keeping true) limit (.initial (plan.keeping true) frontier),
      search (plan.keeping false) limit (.initial (plan.keeping false) frontier) with
    | .ok best? all, .ok also? improving => best? = also? ∧ Kept all improving
    | .error (.error error) all, .error (.error also) improving =>
      error = also ∧ Kept all improving
    | .error (.defect defect) all, .error (.defect also) improving =>
      defect = also ∧ Alike all improving ∧ 2 ^ 64 ≤ plan.inst.size
    | _, _ => False := by
  have abreast := searches_abreast builtIn frontier limit
  have every := search_recorded (builtIn.keeping true) frontier limit
  have best := search_recorded (builtIn.keeping false) frontier limit
  generalize search (plan.keeping true) limit _ = here at abreast every ⊢
  generalize search (plan.keeping false) limit _ = there at abreast best ⊢
  cases abreast with
  | ok kin => exact ⟨rfl, kin.kept every best⟩
  | @error failure _ _ kin =>
    cases failure with
    | error error => exact ⟨rfl, kin.kept every best⟩
    | defect defect => exact ⟨rfl, kin.alike, every⟩

/-- A search of a small instance that comes out in both modes. -/
theorem keeping_changes_nothing_else_tight : Plan.tight.BuiltIn ∧ ∃ best? all improving,
    search (Plan.tight.keeping true) 15 (.initial (Plan.tight.keeping true) (.empty .bestBound)) =
      .ok best? all ∧
    search (Plan.tight.keeping false) 15 (.initial (Plan.tight.keeping false) (.empty .bestBound)) =
      .ok best? improving ∧ Kept all improving := by
  have ample : 2 ^ (Plan.tight.inst.size + 1) - 1 ≤ 15 := by decide
  have few : Plan.tight.inst.size < 2 ^ 64 := by decide
  obtain ⟨best?, all, answers⟩ :=
    search_isOk_of_budget (Plan.tight_builtIn.keeping true) few (.empty .bestBound) ample
  obtain ⟨also?, improving, answersToo⟩ :=
    search_isOk_of_budget (Plan.tight_builtIn.keeping false) few (.empty .bestBound) ample
  have same := keeping_changes_nothing_else Plan.tight_builtIn (.empty .bestBound) 15
  rw [answers, answersToo] at same
  obtain ⟨rfl, kept⟩ := same
  exact ⟨Plan.tight_builtIn, best?, all, improving, answers, answersToo, kept⟩

end Modes

end Knapsack.Search
