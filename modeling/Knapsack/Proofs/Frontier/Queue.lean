import Mathlib
import Knapsack.Frontier.Service
import Knapsack.Proofs.Bound.Order

/-! # What waits on a frontier

Joining the frontier adds one node to the queue, wherever the ranking puts it, whatever the ranking
is. The upper bound of a frontier is the least bound of the feasible nodes that wait there.
-/

namespace Knapsack.Frontier

variable {frontier : Frontier} {node : Node} {b : Bound}

theorem insert_perm (ranking : Ranking) (node : Node) (queue : List Node) :
    (insert ranking node queue).Perm (node :: queue) := by
  induction queue with
  | nil => exact List.Perm.refl _
  | cons first rest ih =>
    unfold insert
    split_ifs
    · exact List.Perm.refl _
    · exact (ih.cons first).trans (List.Perm.swap node first rest)

/-- A node that joins is added to the queue, and nothing else changes. -/
theorem queue_enqueue_perm (frontier : Frontier) (node : Node) :
    (frontier.enqueue node).queue.Perm (node :: frontier.queue) :=
  insert_perm frontier.ranking node frontier.queue

theorem next?_eq_some_iff {rest : Frontier} : frontier.next? = some (node, rest) ↔
    frontier.queue = node :: rest.queue ∧ rest.ranking = frontier.ranking := by
  obtain ⟨ranking, queue⟩ := frontier
  obtain ⟨ranking', queue'⟩ := rest
  cases queue with
  | nil => simp [next?]
  | cons first others =>
    simp only [next?, Option.some.injEq, Prod.mk.injEq, Frontier.mk.injEq, List.cons.injEq]
    constructor
    · rintro ⟨rfl, rfl, rfl⟩
      exact ⟨⟨rfl, rfl⟩, rfl⟩
    · rintro ⟨⟨rfl, rfl⟩, rfl⟩
      exact ⟨rfl, rfl, rfl⟩

theorem next?_eq_none_iff : frontier.next? = none ↔ frontier.queue = [] := by
  unfold next?
  cases frontier.queue <;> simp

theorem hasNext_iff : Service.hasNext frontier = true ↔ frontier.queue ≠ [] := by
  simp [Service.hasNext, Service.isEmpty, Service.size, size]

private theorem raise_le_iff {best? : Option Fraction} :
    Bound.ofValue? (raise best? node) ≤ b ↔
      Bound.ofValue? best? ≤ b ∧ (node.feasible = true → .finite node.value ≤ b) := by
  unfold raise
  cases feasible : node.feasible with
  | false => simp
  | true =>
    cases best? with
    | none =>
      constructor
      · intro bound
        exact ⟨trivial, fun _ => bound⟩
      · intro bounds
        exact bounds.2 rfl
    | some best =>
      simp only [Bool.not_true, Bool.false_eq_true, if_false, forall_const]
      split_ifs with less
      · have below : Bound.finite best ≤ .finite node.value :=
          Fraction.le_iff_toRat.mpr (Fraction.lt_iff_toRat.mp less).le
        constructor
        · intro bound
          exact ⟨le_trans below bound, bound⟩
        · exact And.right
      · have below : Bound.finite node.value ≤ .finite best := by
          rw [Fraction.lt_iff_toRat, not_lt] at less
          exact Fraction.le_iff_toRat.mpr less
        constructor
        · intro bound
          exact ⟨bound, le_trans below bound⟩
        · exact And.left

private theorem foldl_raise_le_iff {best? : Option Fraction} {queue : List Node} :
    Bound.ofValue? (queue.foldl raise best?) ≤ b ↔
      Bound.ofValue? best? ≤ b ∧
        ∀ node ∈ queue, node.feasible = true → .finite node.value ≤ b := by
  induction queue generalizing best? with
  | nil => simp
  | cons first rest ih =>
    rw [List.foldl_cons, ih, raise_le_iff, and_assoc, List.forall_mem_cons]

/-- A bound is above the upper bound when it is above every feasible node that waits. -/
theorem upperBound_le_iff : frontier.upperBound ≤ b ↔
    ∀ node ∈ frontier.queue, node.feasible = true → .finite node.value ≤ b := by
  rw [upperBound, foldl_raise_le_iff]
  exact ⟨And.right, fun bounds => ⟨trivial, bounds⟩⟩

theorem le_upperBound (member : node ∈ frontier.queue) (feasible : node.feasible = true) :
    .finite node.value ≤ frontier.upperBound :=
  upperBound_le_iff.mp (le_refl _) node member feasible

private theorem foldl_raise_eq_some {best? : Option Fraction} {queue : List Node}
    {value : Fraction} (known : queue.foldl raise best? = some value) :
    best? = some value ∨ ∃ node ∈ queue, node.feasible = true ∧ node.value = value := by
  induction queue generalizing best? with
  | nil => exact Or.inl known
  | cons first rest ih =>
    rcases ih known with raised | ⟨node, member, found⟩
    · unfold raise at raised
      split_ifs at raised with infeasible
      · exact Or.inl raised
      · have here : first.value = value →
            ∃ node ∈ first :: rest, node.feasible = true ∧ node.value = value := fun same =>
          ⟨first, List.mem_cons_self .., by simpa using infeasible, same⟩
        cases best? with
        | none => exact Or.inr (here (Option.some.inj raised))
        | some best =>
          simp only at raised
          split_ifs at raised
          · exact Or.inr (here (Option.some.inj raised))
          · exact Or.inl raised
    · exact Or.inr ⟨node, List.mem_cons_of_mem _ member, found⟩

/-- A finite upper bound is the value of a feasible node that waits. -/
theorem exists_of_upperBound_eq {value : Fraction} (known : frontier.upperBound = .finite value) :
    ∃ node ∈ frontier.queue, node.feasible = true ∧ node.value = value := by
  unfold upperBound Bound.ofValue? at known
  cases found : frontier.queue.foldl raise none with
  | none => simp [found] at known
  | some best =>
    obtain rfl : best = value := by simpa [found] using known
    exact (foldl_raise_eq_some found).resolve_left (by simp)

end Knapsack.Frontier
