import Knapsack.Proofs.Frontier.Twins
import Knapsack.Proofs.Search.Abreast
import Knapsack.Proofs.Search.Session

/-! # Two searches in lockstep

A search meets its frontier through the service alone, it reads of its solutions only who the
incumbent is, it never reads its journal, and it asks its strategies only about nodes that it knows.
So two searches do the same at every step when no operation tells their frontiers apart, when their
sets of solutions always agree on the incumbent, and when their branching rules agree on the nodes
that are known: they come out with the same results and fail with the same failures, and all the
rest of their states is equal throughout.
-/

namespace Knapsack

/-- What adding a solution does to two sets that correspond to each other: either both refuse it, or
they still correspond to each other and judge alike whether the incumbent was improved. -/
inductive SolutionSet.AddedAlike (same : SolutionSet → SolutionSet → Prop) :
    Except Defect (SolutionSet × Bool) → Except Defect (SolutionSet × Bool) → Prop
  | added {left right : SolutionSet} {improves : Bool} (agree : same left right) :
      AddedAlike same (.ok (left, improves)) (.ok (right, improves))
  | refused {defect : Defect} : AddedAlike same (.error defect) (.error defect)

/-- A solution that corresponding sets cannot tell apart. -/
def Solution.AddsAlike (same : SolutionSet → SolutionSet → Prop) (solution : Solution) : Prop :=
  ∀ left right, same left right →
    SolutionSet.AddedAlike same (left.add solution) (right.add solution)

/-- One set cannot tell a solution from itself. -/
theorem Solution.addsAlike_eq {solution : Solution} : solution.AddsAlike Eq := by
  rintro set _ rfl
  cases set.add solution with
  | ok added => exact .added rfl
  | error defect => exact .refused

namespace Search

open Frontier (Service)

/-- How the states of two searches may differ: in their frontiers, in their solutions and in their
journals, none of which the searches can tell apart. -/
structure Kinship (φ ψ : Type) [Service φ] [Service ψ] where
  known : Node → Prop
  twin : φ → ψ → Prop
  same : SolutionSet → SolutionSet → Prop
  written : Array JournalEntry → Array JournalEntry → Prop
  queued : ∀ {node queued}, known node → node.advance .enqueued = .ok queued → known queued
  twins : Frontier.Twins known twin
  incumbent : ∀ {left right}, same left right → left.incumbent? = right.incumbent?
  push : ∀ {left right} entry, written left right → written (left.push entry) (right.push entry)

variable {φ ψ : Type} [Service φ] [Service ψ] {kinship : Kinship φ ψ}

/-- Searches on corresponding frontiers that have everything else in common. -/
def Kinship.ofTwins {twin : φ → ψ → Prop} (twins : Frontier.Twins (fun _ => True) twin) :
    Kinship φ ψ where
  known _ := True
  twin
  same := Eq
  written := Eq
  queued := fun _ _ => trivial
  twins
  incumbent := congrArg _
  push := fun _ written => congrArg (Array.push · _) written

/-- States that differ as a kinship allows. -/
inductive State.Kin (kinship : Kinship φ ψ) : State φ → State ψ → Prop
  | intro {state : State φ} {frontier : ψ} {solutions : SolutionSet} {journal : Array JournalEntry}
      (twin : kinship.twin state.frontier frontier) (same : kinship.same state.solutions solutions)
      (written : kinship.written state.journal journal) :
      Kin kinship state { state with frontier, solutions, journal }

/-- The same plan with another branching rule and other settings. -/
def Plan.varied (plan : Plan) (branching : Branching) (config : Config) : Plan :=
  { plan with branching, config }

/-- A plan that draws known nodes, and that does not depend on which of two branching rules and of
two kindred states it goes with. -/
structure Plan.Tolerates (plan : Plan) (other : Branching) (kinship : Kinship φ ψ) : Prop where
  root : ∀ {tree : Tree} {node},
    tree.draft plan.relaxation plan.inst none (.unassigned plan.inst.size) = .ok node →
      kinship.known node
  child : ∀ {tree : Tree} {parent fixation node}, kinship.known parent →
    fixation.refines parent.fixation = true →
      tree.draft plan.relaxation plan.inst (some parent) fixation = .ok node → kinship.known node
  branching : ∀ call node, kinship.known node → plan.branching call node = other call node
  relaxed : ∀ {node}, kinship.known node → node.relaxed.AddsAlike kinship.same
  found : ∀ {call node harvest}, kinship.known node →
    plan.heuristic call plan.inst node = .ok harvest →
      ∀ solution ∈ harvest.solutions, solution.AddsAlike kinship.same

section Steps

open Step

variable {plan : Plan} {other : Branching} {config : Config} {node : Node} {solution : Solution}

/-- Kindred sets have the same lower bound. -/
theorem Kinship.lowerBound_eq (kinship : Kinship φ ψ) {left right : SolutionSet}
    (same : kinship.same left right) : left.lowerBound = right.lowerBound :=
  SolutionSet.lowerBound_congr (kinship.incumbent same)

theorem Kinship.best?_eq (kinship : Kinship φ ψ) {left right : SolutionSet}
    (same : kinship.same left right) : left.best? = right.best? := by
  rw [SolutionSet.best?, kinship.incumbent same]
  rfl

theorem matches_emit (event : Event) : Matches (State.Kin kinship) (emit event) (emit event) :=
  Matches.modify fun _ _ ⟨twin, same, written⟩ => .intro twin same (kinship.push _ written)

theorem matches_tell (notice : Notice) : Matches (State.Kin kinship) (tell notice) (tell notice) :=
  Matches.modify fun _ _ ⟨twin, same, written⟩ => .intro twin same (kinship.push _ written)

theorem matches_record (addsAlike : solution.AddsAlike kinship.same) :
    Matches (State.Kin kinship) (record solution) (record solution) := by
  unfold record
  refine Matches.ofDefect_bind fun value _ => ?_
  rintro _ _ ⟨twin, same, written⟩
  rename_i state frontier set journal
  have added := addsAlike _ _ same
  simp only [Step.bind_apply, Step.get_apply]
  generalize state.solutions.add solution = here at added ⊢
  generalize set.add solution = there at added ⊢
  cases added with
  | refused => exact .error (.intro twin same written)
  | @added left right improves agree =>
    have kin : State.Kin kinship { state with solutions := left }
      { state with frontier, solutions := right, journal } := .intro twin agree written
    cases improves with
    | false => exact .ok kin
    | true => exact matches_tell (.newIncumbent value state.tree.created) _ _ kin

theorem matches_accept (addsAlike : solution.AddsAlike kinship.same) :
    Matches (State.Kin kinship) (accept node solution) (accept node solution) := by
  unfold accept
  refine Matches.ofDefect_bind fun feasible _ => ?_
  split_ifs
  · refine Matches.ofDefect_bind fun value _ => ?_
    refine Matches.bind (matches_tell _) fun _ => ?_
    refine Matches.modify_bind (fun _ _ ⟨twin, same, written⟩ => .intro twin same written) ?_
    refine Matches.bind (matches_record addsAlike) fun _ => Matches.get_bind ?_
    rintro before _ ⟨-, same, -⟩
    rw [State.lowerBound, State.lowerBound, kinship.lowerBound_eq same]
    exact matches_emit _
  · exact Matches.throw _

theorem matches_runHeuristic (tolerates : plan.Tolerates other kinship)
    (known : kinship.known node) : Matches (State.Kin kinship) (runHeuristic plan node)
      (runHeuristic (plan.varied other config) node) := by
  unfold runHeuristic
  refine Matches.get_bind ?_
  rintro before _ ⟨-, -, -⟩
  refine Matches.modify_bind (fun _ _ ⟨twin, same, written⟩ => .intro twin same written) ?_
  refine Matches.ofDefect_bind fun harvest outcome => ?_
  refine Matches.bind (Matches.forM fun notice _ => matches_tell notice) fun _ => ?_
  refine Matches.bind (Matches.forM fun solution member => ?_) fun _ => Matches.pure _
  exact matches_accept (tolerates.found known outcome solution member)

theorem matches_announce (plan : Plan) (limit : ℕ) :
    Matches (State.Kin kinship) (announce plan limit) (announce plan limit) := by
  unfold announce
  refine Matches.modify_bind (fun _ _ ⟨twin, same, written⟩ => .intro twin same written) ?_
  exact Matches.bind (matches_emit _) fun _ => matches_tell _

theorem matches_outcome : Matches (State.Kin kinship) outcome outcome := by
  unfold outcome
  refine Matches.get_bind ?_
  rintro before _ ⟨-, same, -⟩
  rw [kinship.best?_eq same]
  dsimp only
  cases before.failure? with
  | none => exact Matches.pure _
  | some error => exact Matches.throw _

theorem matches_enqueue (known : kinship.known node) :
    Matches (State.Kin kinship) (enqueue node) (enqueue node) := by
  unfold enqueue
  refine Matches.ofDefect_bind fun queued advanced => Matches.modify ?_
  rintro _ _ ⟨twin, same, written⟩
  exact .intro (kinship.twins.enqueue twin (kinship.queued known advanced)) same written

/-- Creating a node that will be known. -/
theorem matches_create {parent? : Option Node} {fixation : Fixation}
    (drafts : ∀ {tree : Tree} {node},
      tree.draft plan.relaxation plan.inst parent? fixation = .ok node → kinship.known node) :
    Matches (State.Kin kinship) (create plan parent? fixation)
      (create (plan.varied other config) parent? fixation) := by
  unfold create
  refine Matches.get_bind ?_
  rintro before _ ⟨-, -, -⟩
  simp only [Tree.grow, Plan.varied]
  refine Matches.modify_bind ?_ ?_
  · rintro _ _ ⟨twin, same, written⟩
    exact .intro twin same written
  refine Matches.ofExcept_bind fun child outcome => ?_
  exact Matches.bind (matches_emit _) fun _ => matches_enqueue (drafts outcome)

theorem matches_createChild (tolerates : plan.Tolerates other kinship) (known : kinship.known node)
    (fixation : Fixation) : Matches (State.Kin kinship) (createChild plan node fixation)
      (createChild (plan.varied other config) node fixation) := by
  unfold createChild
  split_ifs with refines
  · exact matches_create (tolerates.child known refines)
  · exact Matches.throw _

theorem matches_branch (tolerates : plan.Tolerates other kinship) (known : kinship.known node) :
    Matches (State.Kin kinship) (branch plan node) (branch (plan.varied other config) node) := by
  unfold branch
  refine Matches.get_bind ?_
  rintro before _ ⟨-, -, -⟩
  refine Matches.modify_bind (fun _ _ ⟨twin, same, written⟩ => .intro twin same written) ?_
  rw [tolerates.branching _ node known]
  refine Matches.ofExcept_bind fun children _ => ?_
  split_ifs
  · exact Matches.throw _
  · exact Matches.forM fun fixation _ => matches_createChild tolerates known fixation

theorem matches_classify (tolerates : plan.Tolerates other kinship) (known : kinship.known node) :
    Matches (State.Kin kinship) (classify plan node)
      (classify (plan.varied other config) node) := by
  unfold classify
  by_cases infeasible : (!node.feasible) = true
  · rw [if_pos infeasible, if_pos infeasible]
    exact Matches.pure _
  · rw [if_neg infeasible, if_neg infeasible]
    refine Matches.get_bind ?_
    rintro before _ ⟨-, same, -⟩
    rw [State.lowerBound, State.lowerBound, kinship.lowerBound_eq same]
    split_ifs
    · exact Matches.pure _
    · exact Matches.bind (matches_record (tolerates.relaxed known)) fun _ => Matches.pure _
    · refine Matches.bind (matches_runHeuristic tolerates known) fun found => ?_
      exact Matches.bind (matches_branch tolerates known) fun _ => Matches.pure _

/-- Raising the upper bound to that of the frontier or of the incumbent. -/
theorem State.Kin.openBound_eq {here : State φ} {there : State ψ} (kin : Kin kinship here there) :
    here.openBound = there.openBound := by
  obtain ⟨twin, same, -⟩ := kin
  rw [State.openBound, State.lowerBound, kinship.twins.upperBound twin, kinship.lowerBound_eq same]
  rfl

theorem matches_process (tolerates : plan.Tolerates other kinship) (known : kinship.known node) :
    Matches (State.Kin kinship) (process plan node) (process (plan.varied other config) node) := by
  unfold process
  refine Matches.bind (matches_classify tolerates known) fun result => ?_
  refine Matches.ofDefect_bind fun closed _ => ?_
  refine Matches.modify_bind ?_ (Matches.get_bind ?_)
  · intro here there kin
    rw [kin.openBound_eq]
    obtain ⟨twin, same, written⟩ := kin
    exact .intro twin same written
  · rintro after _ ⟨-, same, -⟩
    rw [State.lowerBound, State.lowerBound, kinship.lowerBound_eq same, kinship.best?_eq same]
    exact Matches.bind (matches_tell _) fun _ => matches_emit _

theorem matches_loop (tolerates : plan.Tolerates other kinship) (limit budget : ℕ) :
    Matches (State.Kin kinship) (loop plan limit budget)
      (loop (plan.varied other config) limit budget) := by
  induction budget with
  | zero =>
    unfold loop
    refine Matches.get_bind ?_
    rintro before _ ⟨twin, same, -⟩
    rw [State.lowerBound, State.lowerBound, kinship.lowerBound_eq same,
      kinship.twins.hasNext_eq twin]
    split_ifs
    · exact Matches.bind (matches_tell _) fun _ => Matches.throw _
    · exact Matches.pure ()
  | succ budget ih =>
    unfold loop
    refine Matches.get_bind ?_
    rintro before _ ⟨twin, -, -⟩
    rename_i frontier _ _
    dsimp only
    rw [kinship.twins.hasNext_eq twin]
    split_ifs
    · have alike := kinship.twins.next twin
      generalize Service.next before.frontier = here at alike ⊢
      generalize Service.next frontier = there at alike ⊢
      cases alike with
      | refused => exact Matches.throw _
      | @served node left right known stays =>
        simp only [Failure.ofError, Except.mapError, Step.ofExcept_ok, pure_bind]
        refine Matches.modify_bind ?_ ?_
        · rintro _ _ ⟨-, same, written⟩
          exact .intro stays same written
        refine Matches.bind (matches_process tolerates known) fun _ => Matches.get_bind ?_
        rintro after _ ⟨-, same, -⟩
        rw [State.lowerBound, State.lowerBound, kinship.lowerBound_eq same]
        split_ifs
        · exact Matches.pure ()
        · exact ih
    · exact Matches.pure ()

theorem matches_plant (tolerates : plan.Tolerates other kinship) :
    Matches (State.Kin kinship) (plant plan) (plant (plan.varied other config)) := by
  unfold plant
  refine Matches.modify_bind ?_ ?_
  · rintro _ _ ⟨twin, same, written⟩
    exact .intro (kinship.twins.clear twin) same written
  refine Matches.bind (matches_create tolerates.root) fun _ => Matches.modify ?_
  intro here there kin
  rw [kin.openBound_eq]
  obtain ⟨twin, same, written⟩ := kin
  exact .intro twin same written

theorem matches_explore (tolerates : plan.Tolerates other kinship) (limit : ℕ) :
    Matches (State.Kin kinship) (explore plan limit)
      (explore (plan.varied other config) limit) := by
  unfold explore
  refine Matches.bind (matches_plant tolerates) fun _ => ?_
  refine Matches.bind (matches_loop tolerates limit limit) fun _ => Matches.modify ?_
  rintro before _ ⟨twin, same, written⟩
  rw [State.lowerBound, State.lowerBound, kinship.lowerBound_eq same]
  exact .intro twin same written

/-- Whole searches stay in lockstep. -/
theorem matches_search (tolerates : plan.Tolerates other kinship) (limit : ℕ) :
    Matches (State.Kin kinship) (search plan limit)
      (search (plan.varied other config) limit) := by
  unfold search
  refine Matches.get_bind ?_
  rintro before _ ⟨-, -, -⟩
  split_ifs
  · exact matches_outcome
  · refine Matches.bind (matches_announce plan limit) fun _ => ?_
    refine Matches.bind (Matches.tryCatch ?_ fun failure => ?_) fun failure? => ?_
    · exact Matches.bind (matches_explore tolerates limit) fun _ => Matches.pure _
    · cases failure with
      | error error => exact Matches.pure _
      | defect defect => exact Matches.throw _
    refine Matches.modify_bind (fun _ _ ⟨twin, same, written⟩ => .intro twin same written) ?_
    refine Matches.get_bind ?_
    rintro ended _ ⟨-, -, -⟩
    refine Matches.bind (matches_emit _) fun _ => Matches.get_bind ?_
    rintro told _ ⟨-, -, -⟩
    exact Matches.bind (matches_tell _) fun _ => matches_outcome

end Steps

/-- No plan tells apart what differs neither in what is known about nodes nor in solutions. -/
theorem Plan.tolerates_itself {kinship : Kinship φ ψ} (plan : Plan)
    (known : ∀ node, kinship.known node) (same : kinship.same = Eq) :
    plan.Tolerates plan.branching kinship where
  root := fun _ => known _
  child := fun _ _ _ => known _
  branching := fun _ _ _ => rfl
  relaxed := fun _ => same ▸ Solution.addsAlike_eq
  found := fun _ _ _ _ => same ▸ Solution.addsAlike_eq

section Drawn

variable {plan : Plan} {other : Branching} {inst : Instance}
  {same : SolutionSet → SolutionSet → Prop}

/-- Searches on one queue of drawn nodes that differ at most in their solutions. -/
def Kinship.ofSolutions (inst : Instance) (same : SolutionSet → SolutionSet → Prop)
    (incumbent : ∀ {left right}, same left right → left.incumbent? = right.incumbent?) :
    Kinship Frontier Frontier where
  known := Node.Drawn inst
  twin left right := left = right ∧ ∀ node ∈ left.queue, node.Drawn inst
  same
  written := Eq
  queued := by
    intro node queued drawn advanced
    unfold Node.advance at advanced
    split_ifs at advanced
    exact Except.ok.inj advanced ▸ drawn.withStatus _
  twins := Frontier.twins_self _
  incumbent
  push := fun _ written => congrArg (Array.push · _) written

/-- With the greedy relaxation, all nodes are drawn. -/
theorem Plan.Tolerates.of_greedy (greedy : plan.relaxation = .greedy)
    {incumbent : ∀ {left right}, same left right → left.incumbent? = right.incumbent?}
    (branching : ∀ call (node : Node), node.Drawn plan.inst →
      plan.branching call node = other call node)
    (relaxed : ∀ node : Node, node.Drawn plan.inst → node.relaxed.AddsAlike same)
    (found : ∀ call (node : Node) harvest, node.Drawn plan.inst →
      plan.heuristic call plan.inst node = .ok harvest →
        ∀ solution ∈ harvest.solutions, solution.AddsAlike same) :
    plan.Tolerates other (.ofSolutions plan.inst same incumbent) where
  root := by
    intro tree node outcome
    rw [greedy] at outcome
    exact (Tree.drawn_of_draft List.length_replicate outcome).1
  child := by
    intro tree parent fixation node drawn refines outcome
    rw [greedy] at outcome
    have covers := (Fixation.length_of_refines refines).trans drawn.covers
    exact (Tree.drawn_of_draft covers outcome).1
  branching
  relaxed := relaxed _
  found := found _ _ _

end Drawn

end Search

end Knapsack
