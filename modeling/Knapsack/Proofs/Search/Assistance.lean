import Knapsack.Proofs.Search.Bounds
import Knapsack.Proofs.Search.Budget
import Knapsack.Proofs.Search.Comparison

/-! # The heuristic never enlarges a search

A search with a heuristic is compared with the same search without it. At every head of the plain
search, the assisted one either is over or keeps up: its incumbent is at least as good, and its
queue is embedded in that of the plain search, with idle nodes between the twins. When an idle node
has its turn, the assisted search waits. When a node that has a twin has its turn, so has the twin:
either both are branched on, or the assisted search discards its node and then the other one is
idle.
-/

namespace Knapsack.Search

open Frontier (Embeds)

/-- The assisted search keeps up with the plain one: its incumbent is no worse, and what waits there
is embedded in what waits here. -/
structure KeepsUp (plain assisted : State Frontier) : Prop where
  reached : plain.lowerBound ≤ assisted.lowerBound
  embeds : Embeds assisted.lowerBound assisted.frontier.queue plain.frontier.queue

section Turns

variable {plan : Plan} {frontier rest : Frontier} {plain assisted after : State Frontier}
  {a b : Node}
  {others : List Node} {plainEvents : List Event}

/-- The assisted search waits while an idle node has its turn. -/
theorem KeepsUp.wait (advance : Advance plan.plain b { plain with frontier := rest } others
      plainEvents after) (drawn : b.Drawn plan.inst)
    (reached : plain.lowerBound ≤ assisted.lowerBound)
    (embeds : Embeds assisted.lowerBound assisted.frontier.queue rest.queue)
    (idle : b.Idle assisted.lowerBound) : KeepsUp after assisted := by
  obtain ⟨still, idleChildren⟩ :=
    advance.block.idle_children rfl drawn advance.drawn idle reached
  constructor
  · exact still
  · rw [advance.joins]
    exact embeds.join_idle idleChildren

/-- Twins have their turns in both searches. -/
theorem KeepsUp.turn (builtIn : plan.BuiltIn) (regular : frontier.ranking.Regular)
    {plainLimit limit plainCount count : ℕ} {ahead : Frontier} {later : State Frontier}
    {children : List Node} {events : List Event}
    (plainHead : Head plan.plain plainLimit (.initial plan.plain frontier) plainCount plain)
    (head : Head plan limit (.initial plan frontier) count assisted)
    (plainNext : plain.frontier.next? = some (b, rest))
    (next : assisted.frontier.next? = some (a, ahead))
    (plainAdvance : Advance plan.plain b { plain with frontier := rest } others plainEvents after)
    (advance : Advance plan a { assisted with frontier := ahead } children events later)
    (twin : a.Twin b) (reached : plain.lowerBound ≤ assisted.lowerBound)
    (embeds : Embeds assisted.lowerBound ahead.queue rest.queue) :
    KeepsUp after later ∧ (children ≠ [] → others ≠ []) := by
  obtain ⟨plainQueue, plainRanking⟩ := Frontier.next?_eq_some_iff.mp plainNext
  obtain ⟨queue, ranking⟩ := Frontier.next?_eq_some_iff.mp next
  obtain ⟨drawn, -⟩ := plainHead.waiting builtIn.plain.tame b (plainQueue ▸ List.mem_cons_self ..)
  have raised : assisted.lowerBound ≤ later.lowerBound := advance.block.incumbent_le
  obtain ⟨still, outcome⟩ := advance.block.keeps_up builtIn plainAdvance.block twin drawn
    advance.drawn plainAdvance.drawn reached
  rcases outcome with ⟨rfl, idle⟩ | twins
  · refine ⟨⟨still, ?_⟩, fun absurd => (absurd rfl).elim⟩
    rw [advance.joins, plainAdvance.joins]
    exact (embeds.mono raised).join_idle idle
  · obtain ⟨plainRanked, sorted⟩ := plainHead.sorted builtIn.plain regular.order
    obtain ⟨ranked, -⟩ := head.sorted builtIn regular.order
    have young := (head.census builtIn).young queue advance.block.map_id_children.1
    have youngTwins := (plainHead.census builtIn.plain).young plainQueue
      plainAdvance.block.map_id_children.1
    rw [plainQueue] at sorted
    have here : ahead.ranking = frontier.ranking := ranking.trans ranked
    have there : rest.ranking = frontier.ranking := plainRanking.trans plainRanked
    constructor
    · refine ⟨still, ?_⟩
      rw [advance.joins, plainAdvance.joins]
      apply (embeds.mono raised).join_twin (here ▸ regular) (there.trans here.symm) twins young
        youngTwins
      exact here ▸ (List.pairwise_cons.mp sorted).2
    · rintro present rfl
      cases twins
      exact present rfl

end Turns

/-- At a head of the plain search, the assisted one is over or keeps up, with no more work done. -/
inductive Accompanied (plan : Plan) (limit : ℕ) (frontier : Frontier) (plain : State Frontier) :
    Prop
  | ended {last : State Frontier} (isOver : Over plan limit (.initial plan frontier) last)
      (within : Within last.events plain.events) : Accompanied plan limit frontier plain
  | along {count : ℕ} {assisted : State Frontier}
      (head : Head plan limit (.initial plan frontier) count assisted)
      (within : Within assisted.events plain.events) (keepsUp : KeepsUp plain assisted) :
      Accompanied plan limit frontier plain

section Run

variable {plan : Plan} {frontier : Frontier} {plainLimit limit plainCount : ℕ}
  {best? : Option Solution} {plain full : State Frontier}

/-- A search that comes out plants a root. -/
theorem exists_root (builtIn : plan.BuiltIn)
    (answers : search plan limit (.initial plan frontier) = .ok best? full) :
    ∃ root, root.Drawn plan.inst ∧ Tree.Drafted {} none (.unassigned plan.inst.size) root ∧
      Head plan limit (.initial plan frontier) 0
        (((State.initial plan frontier).announced plan limit).planted root) := by
  obtain ⟨last, head, -⟩ := exists_over_of_ok builtIn answers
  obtain ⟨announced, planted, announces, plants, -⟩ := head.resumes
  obtain ⟨root, ⟨drawn, drafted⟩, rfl⟩ := exists_planted builtIn.tame announces plants
  exact ⟨root, drawn, drafted, Head.root announces plants⟩

/-- The assisted search accompanies the plain one from one head to the next. -/
theorem Accompanied.advance (builtIn : plan.BuiltIn) (regular : frontier.ranking.Regular)
    (answers : search plan limit (.initial plan frontier) = .ok best? full)
    (plainHead : Head plan.plain plainLimit (.initial plan.plain frontier) plainCount plain)
    (accompanied : Accompanied plan limit frontier plain) {b : Node} {rest : Frontier}
    {others : List Node} {plainEvents : List Event} {after : State Frontier}
    (plainNext : plain.frontier.next? = some (b, rest))
    (plainAdvance : Advance plan.plain b { plain with frontier := rest } others plainEvents after) :
    Accompanied plan limit frontier after := by
  have chronicle : after.events = plain.events ++ plainEvents := plainAdvance.chronicle
  obtain ⟨plainQueue, -⟩ := Frontier.next?_eq_some_iff.mp plainNext
  obtain ⟨drawn, -⟩ := plainHead.waiting builtIn.plain.tame b (plainQueue ▸ List.mem_cons_self ..)
  cases accompanied with
  | ended isOver within => exact .ended isOver (chronicle ▸ within.append plainEvents)
  | @along count assisted head within keepsUp =>
    obtain ⟨reached, embeds⟩ := keepsUp
    generalize waits : assisted.frontier.queue = queue at embeds
    rw [plainQueue] at embeds
    cases embeds with
    | idle idle embedsRest =>
      exact .along head (chronicle ▸ within.append plainEvents)
        (.wait plainAdvance drawn reached (waits ▸ embedsRest) idle)
    | @twin a _ _ _ twin embedsRest =>
      have present : assisted.frontier.queue ≠ [] := waits ▸ List.cons_ne_nil _ _
      by_cases stopped : 0 < count ∧ assisted.Settled
      · exact .ended ⟨count, head, Or.inr stopped⟩ (chronicle ▸ within.append plainEvents)
      · obtain ⟨node, ahead, children, events, later, next, advance, further⟩ :=
          head.exists_advance_of_ok builtIn answers present stopped
        have queue := (Frontier.next?_eq_some_iff.mp next).1
        obtain ⟨rfl, rfl⟩ := List.cons.inj (waits.symm.trans queue)
        obtain ⟨stillUp, splits⟩ := KeepsUp.turn builtIn regular plainHead head plainNext next
          plainAdvance advance twin reached embedsRest
        have told : later.events = assisted.events ++ events := advance.chronicle
        refine .along further ?_ stillUp
        rw [chronicle, told]
        exact within.blocks advance.block plainAdvance.block twin.fixation splits

/-- The assisted search accompanies the plain one all the way. -/
theorem Head.accompanied (builtIn : plan.BuiltIn) (regular : frontier.ranking.Regular)
    (answers : search plan limit (.initial plan frontier) = .ok best? full)
    (plainHead : Head plan.plain plainLimit (.initial plan.plain frontier) plainCount plain) :
    Accompanied plan limit frontier plain := by
  refine plainHead.by_blocks builtIn.plain (fun _ => Accompanied plan limit frontier) ?_ ?_
  · intro other drawnThere draftedThere
    obtain ⟨root, drawn, drafted, head⟩ := exists_root builtIn answers
    have twin : root.Twin other := by
      apply drawn.twin drawnThere
      · exact drafted.depth.trans draftedThere.depth.symm
      · exact drafted.fixes.trans draftedThere.fixes.symm
    refine .along head ?_ ⟨le_refl _, .twin twin.queued .nil⟩
    rw [State.events_opening, State.events_opening]
    exact ⟨List.Sublist.refl _, List.Sublist.refl _⟩
  · intro count before b rest others plainEvents after head accompanied queue ranking advance
    exact accompanied.advance builtIn regular answers head
      (Frontier.next?_eq_some_iff.mpr ⟨queue, ranking⟩) advance

/-- Where the plain search is over, so is the assisted one. -/
theorem KeepsUp.stops (builtIn : plan.BuiltIn) {count : ℕ} {assisted : State Frontier}
    (plainHead : Head plan.plain plainLimit (.initial plan.plain frontier) plainCount plain)
    (head : Head plan limit (.initial plan frontier) count assisted)
    (keepsUp : KeepsUp plain assisted)
    (stopped : plain.frontier.queue = [] ∨ 0 < plainCount ∧ plain.Settled) :
    assisted.frontier.queue = [] ∨ 0 < count ∧ assisted.Settled := by
  obtain ⟨reached, embeds⟩ := keepsUp
  have isOver : Over plan.plain plainLimit (.initial plan.plain frontier) plain :=
    ⟨plainCount, plainHead, stopped⟩
  rcases stopped with nothing | ⟨-, settled⟩
  · rw [nothing] at embeds
    cases waits : assisted.frontier.queue with
    | nil => exact Or.inl rfl
    | cons a few =>
      obtain ⟨b, absent, -⟩ := embeds.exists_twin (waits ▸ List.mem_cons_self ..)
      exact nomatch absent
  · obtain ⟨_, -, plainLedger⟩ := plainHead.ledger builtIn.plain.tame
    obtain ⟨_, -, ledger⟩ := head.ledger builtIn.tame
    right
    constructor
    · -- At its first head the assisted search knows no solution, so the plain one would know none.
      by_contra zero
      obtain rfl : count = 0 := Nat.eq_zero_of_not_pos zero
      rw [head.lowerBound_zero builtIn.tame, isOver.lowerBound_eq builtIn.plain.tame] at reached
      exact reached
    · have plainOpen : plain.openBound ≤ assisted.lowerBound :=
        le_trans (plainLedger.current ▸ settled) reached
      change assisted.upperBound ≤ assisted.lowerBound
      rw [ledger.current]
      refine max_le_iff.mpr ⟨Frontier.upperBound_le_iff.mpr ?_, le_refl _⟩
      intro a waits feasible
      obtain ⟨b, member, twin⟩ := embeds.exists_twin waits
      rw [twin.value]
      have below : .finite b.value ≤ plain.frontier.upperBound :=
        Frontier.le_upperBound member (twin.feasible ▸ feasible)
      exact le_trans (le_trans below (le_max_left _ _)) plainOpen

/-- The heuristic never enlarges a search. Under each ranking of the library and that by age, the
fixations that a search processes are, in their order, among those that the same search processes
without heuristic, it branches only on such as are branched on there, and so it takes no more
iterations and creates no more nodes. -/
theorem heuristic_never_enlarges (builtIn : plan.BuiltIn) (ranks : frontier.ranking.BuiltIn)
    {plainBest? : Option Solution}
    (plainAnswers :
      search plan.plain plainLimit (.initial plan.plain frontier) = .ok plainBest? plain)
    (answers : search plan limit (.initial plan frontier) = .ok best? full) :
    Within full.events plain.events ∧ full.statistics.iterations ≤ plain.statistics.iterations ∧
      full.statistics.nodesCreated ≤ plain.statistics.nodesCreated := by
  obtain ⟨plainLast, plainHead, plainStopped, -, plainEnd⟩ :=
    exists_over_of_ok builtIn.plain plainAnswers
  have finishes : ∃ last, Over plan limit (.initial plan frontier) last ∧
      Within last.events plainLast.events := by
    cases plainHead.accompanied builtIn ranks.regular answers with
    | ended isOver within => exact ⟨_, isOver, within⟩
    | along head within keepsUp =>
      exact ⟨_, ⟨_, head, keepsUp.stops builtIn plainHead head plainStopped⟩, within⟩
  obtain ⟨last, isOver, within⟩ := finishes
  have ends := isOver.search_eq State.initial_unfinished
  rw [answers] at ends
  obtain ⟨count, head, -⟩ := isOver
  cases ends
  have census := head.census builtIn
  have plainCensus := plainHead.census builtIn.plain
  have fewer := within.processed.length_le
  have fewerBranched := within.branched.length_le
  rw [List.length_map, List.length_map] at fewer fewerBranched
  rw [census.processed, plainCensus.processed] at fewer
  have created := head.created_eq builtIn
  have plainCreated := plainHead.created_eq builtIn.plain
  refine ⟨?_, ?_, ?_⟩
  · rw [plainEnd, State.events_completed, State.events_completed]
    exact within.ended _ _
  · exact census.iterations.trans_le fewer
  · rw [plainEnd]
    change last.tree.created ≤ plainLast.tree.created
    omega

theorem heuristic_never_enlarges_tight : Plan.tight.BuiltIn ∧ Ranking.BuiltIn .bestBound ∧
    ∃ plainBest? plain best? full,
      search Plan.tight.plain 15 (.initial Plan.tight.plain (.empty .bestBound)) =
        .ok plainBest? plain ∧
      search .tight 15 (.initial .tight (.empty .bestBound)) = .ok best? full ∧
      Within full.events plain.events ∧ full.statistics.iterations ≤ plain.statistics.iterations ∧
        full.statistics.nodesCreated ≤ plain.statistics.nodesCreated := by
  have ample : 2 ^ (Plan.tight.inst.size + 1) - 1 ≤ 15 := by decide
  have ranks : (Frontier.empty .bestBound).ranking.BuiltIn := .bestBound
  obtain ⟨plainBest?, plain, plainAnswers⟩ :=
    search_isOk_of_budget Plan.tight_builtIn.plain (by decide) (.empty .bestBound) ample
  obtain ⟨best?, full, answers⟩ :=
    search_isOk_of_budget Plan.tight_builtIn (by decide) (.empty .bestBound) ample
  exact ⟨Plan.tight_builtIn, ranks, plainBest?, plain, best?, full, plainAnswers, answers,
    heuristic_never_enlarges Plan.tight_builtIn ranks plainAnswers answers⟩

end Run

end Knapsack.Search
