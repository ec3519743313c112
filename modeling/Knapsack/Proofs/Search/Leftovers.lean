import Knapsack.Proofs.Frontier.Stamped
import Knapsack.Proofs.Search.Lockstep
import Knapsack.Proofs.Search.Termination

/-! # What waits on a frontier before a search

A search may borrow a frontier that was in use before: nodes joined it and left it, and other
searches left their nodes there, be they completed or interrupted. A search clears the frontier
first. The stamps of a heap go on from where they were, but a heap is a stable queue whatever its
stamps are, so the search is the same as on a new frontier.
-/

namespace Knapsack.Search

open Frontier (Service)

variable {φ ψ χ : Type} {ranking : Ranking}

/-- The states of a frontier that its users and the searches that borrow it lead to. -/
inductive Reached [Service φ] (new : φ) : φ → Prop
  | new : Reached new new
  | enqueued {frontier : φ} (earlier : Reached new frontier) (node : Node) :
      Reached new (Service.enqueue node frontier)
  | taken {frontier rest : φ} {node : Node} (earlier : Reached new frontier)
      (next : Service.next frontier = .ok (node, rest)) : Reached new rest
  | cleared {frontier : φ} (earlier : Reached new frontier) : Reached new (Service.clear frontier)
  | answered {frontier : φ} {plan : Plan} {limit : ℕ} {best? : Option Solution} {last : State φ}
      (earlier : Reached new frontier)
      (answers : search plan limit (.initial plan frontier) = .ok best? last) :
      Reached new last.frontier
  | stopped {frontier : φ} {plan : Plan} {limit : ℕ} {failure : Failure} {last : State φ}
      (earlier : Reached new frontier)
      (stops : search plan limit (.initial plan frontier) = .error failure last) :
      Reached new last.frontier

/-- Two searches have come to the same: they have one state but for their frontiers, and the same
nodes wait there in the same order. -/
def Agree [here : Service φ] [there : Service ψ] (a : State φ) (b : State ψ) : Prop :=
  { a with frontier := b.frontier } = b ∧ here.drain a.frontier = there.drain b.frontier

namespace Agree

variable [Service φ] [Service ψ] [Service χ] {a : State φ} {b : State ψ} {c : State χ}

theorem symm (agree : Agree a b) : Agree b a := by
  refine ⟨?_, agree.2.symm⟩
  rw [← agree.1]

theorem trans (first : Agree a b) (second : Agree b c) : Agree a c := by
  refine ⟨?_, first.2.trans second.2⟩
  calc { a with frontier := c.frontier }
      = { { a with frontier := b.frontier } with frontier := c.frontier } := rfl
    _ = { b with frontier := c.frontier } := by rw [first.1]
    _ = c := second.1

end Agree

section Refinement

variable [service : Service φ] {Stands : φ → List Node → Prop}

/-- A search on a frontier that refines a stable queue, and one on the sorted queue. -/
def Kinship.ofRefines (refines : service.Refines ranking Stands) (order : Std.TransCmp ranking) :
    Kinship φ Frontier :=
  .ofTwins (refines.twins (Frontier.refines order) order)

variable {frontier new : φ} {waiting : List Node} (refines : service.Refines ranking Stands)
  (order : Std.TransCmp ranking)
include refines order

theorem State.Kin.agree {here : State φ} {there : State Frontier}
    (kin : State.Kin (.ofRefines refines order) here there) : Agree here there := by
  obtain ⟨⟨waiting, stands, rfl⟩, rfl, rfl⟩ := kin
  exact ⟨rfl, (refines.drain_eq order stands).trans
    ((Frontier.refines order).drain_eq order rfl).symm⟩

/-- Whatever waits, a search is the search on an empty queue. -/
theorem search_abreast (stands : Stands frontier waiting) (plan : Plan) (limit : ℕ) :
    Abreast (State.Kin (.ofRefines refines order)) (search plan limit (.initial plan frontier))
      (search plan limit (.initial plan (Frontier.empty ranking))) := by
  have cleared : search plan limit (.initial plan ⟨ranking, ranking.sort waiting⟩) =
      search plan limit (.initial plan (Frontier.empty ranking)) :=
    search_cleared State.initial_unfinished
  rw [← cleared]
  apply matches_search (plan.tolerates_itself (fun _ => trivial) rfl) limit
  exact .intro ⟨waiting, stands, rfl⟩ rfl rfl

/-- What a search leaves on its frontier are nodes that wait, also when it fails. -/
theorem search_leaves_nodes (stands : Stands frontier waiting) (plan : Plan) (limit : ℕ) :
    match search plan limit (.initial plan frontier) with
    | .ok _ last | .error _ last => ∃ left, Stands last.frontier left := by
  have abreast := search_abreast refines order stands plan limit
  generalize search plan limit (.initial plan frontier) = used at abreast ⊢
  generalize search plan limit (.initial plan (Frontier.empty ranking)) = plain at abreast
  cases abreast with
  | ok kin | error kin =>
    obtain ⟨⟨left, still, -⟩, -, -⟩ := kin
    exact ⟨left, still⟩

/-- Every state that was reached stands for some nodes that wait. -/
theorem Reached.exists_stands (empty : Stands new []) (reached : Reached new frontier) :
    ∃ waiting, Stands frontier waiting := by
  induction reached with
  | new => exact ⟨[], empty⟩
  | enqueued _ node ih =>
    obtain ⟨waiting, stands⟩ := ih
    exact ⟨_, refines.enqueue stands node⟩
  | taken _ next ih =>
    obtain ⟨waiting, stands⟩ := ih
    rcases refines.next stands with ⟨-, nothing⟩ | ⟨node, after, rest, -, served, still⟩
    · exact nomatch nothing.symm.trans next
    · cases served.symm.trans next
      exact ⟨rest, still⟩
  | cleared _ ih =>
    obtain ⟨waiting, stands⟩ := ih
    exact ⟨[], refines.clear stands⟩
  | @answered frontier plan limit _ _ _ answers ih =>
    obtain ⟨waiting, stands⟩ := ih
    have left := search_leaves_nodes refines order stands plan limit
    rw [answers] at left
    exact left
  | @stopped frontier plan limit _ _ _ stops ih =>
    obtain ⟨waiting, stands⟩ := ih
    have left := search_leaves_nodes refines order stands plan limit
    rw [stops] at left
    exact left

end Refinement

/-- What a frontier on a max-heap was used for before a search makes no difference to it: with the
same result or the same failure it leads to the same events, solutions, statistics and bounds as on
a new frontier, and to the same nodes waiting in the same order. On either frontier it is the search
whose nodes wait in a sorted queue. -/
theorem leftovers_make_no_difference {heap : MaxHeap Arrival} {frontier : Stamped heap}
    (order : Std.TransCmp ranking) (correct : heap.Correct (Arrival.compare ranking))
    (reached : Reached (.empty heap) frontier) (plan : Plan) (limit : ℕ) :
    Abreast Agree (search plan limit (.initial plan frontier))
      (search plan limit (.initial plan (Stamped.empty heap))) ∧
    Abreast Agree (search plan limit (.initial plan frontier))
      (search plan limit (.initial plan (Frontier.empty ranking))) := by
  have refines := Stamped.refines correct
  have empty := Stamped.holds_empty correct
  obtain ⟨waiting, stands⟩ := reached.exists_stands refines order empty
  have used := (search_abreast refines order stands plan limit).imp fun _ _ =>
    State.Kin.agree refines order
  have new := (search_abreast refines order empty plan limit).imp fun _ _ =>
    State.Kin.agree refines order
  exact ⟨used.of_common new fun _ _ _ first second => first.trans second.symm, used⟩

/-- A node is left on a heap by a search that had no budget, and the next search comes out. -/
theorem leftovers_make_no_difference_tight :
    let heap := MaxHeap.ofLists (Arrival.compare .bestBound)
    Std.TransCmp Ranking.bestBound ∧ heap.Correct (Arrival.compare .bestBound) ∧
    ∃ frontier : Stamped heap, Reached (.empty heap) frontier ∧
      (Stamped.service heap).drain frontier ≠ [] ∧
      (Abreast Agree (search .tight 15 (.initial .tight frontier))
        (search .tight 15 (.initial .tight (Stamped.empty heap))) ∧
      Abreast Agree (search .tight 15 (.initial .tight frontier))
        (search .tight 15 (.initial .tight (Frontier.empty .bestBound)))) ∧
      ∃ best? last, search .tight 15 (.initial .tight frontier) = .ok best? last := by
  intro heap
  have order : Std.TransCmp Ranking.bestBound := Ranking.BuiltIn.bestBound.regular.order
  have correct : heap.Correct (Arrival.compare .bestBound) :=
    MaxHeap.correct_ofLists (Arrival.transCmp_compare order)
  obtain ⟨head, waits, interrupted⟩ := tight_interrupted (.empty .bestBound)
  have earlier := (leftovers_make_no_difference order correct .new .tight 0).2
  rw [interrupted] at earlier
  generalize before : search .tight 0 (.initial .tight (Stamped.empty heap)) = stopped at earlier
  cases earlier with
  | @error _ last _ agree =>
    have reached : Reached (.empty heap) last.frontier := .stopped .new before
    have unaffected := leftovers_make_no_difference order correct reached .tight 15
    refine ⟨order, correct, last.frontier, reached, ?_, unaffected, ?_⟩
    · rw [agree.2, Frontier.drain_eq]
      exact waits
    obtain ⟨best?, full, comesOut⟩ := tight_isOk (.empty .bestBound)
    have used := unaffected.2
    rw [comesOut] at used
    generalize search .tight 15 (.initial .tight last.frontier) = result at used
    cases used with
    | ok _ => exact ⟨best?, _, rfl⟩

end Knapsack.Search
