import Knapsack.Proofs.Frontier.Queue

/-! # Frontiers that no operation tells apart

Two frontiers, which may be of different kinds, correspond to each other when they answer alike and
go on to do so whatever is asked of them. This may depend on what is known about the nodes that
join; it is known then about the nodes that are served.
-/

namespace Knapsack.Frontier

variable {φ ψ : Type} {known : Node → Prop} {twin : φ → ψ → Prop}

/-- What two frontiers that correspond to each other serve: either none of them serves a node, or
both serve the same one. -/
inductive ServedAlike (known : Node → Prop) (twin : φ → ψ → Prop) :
    Except Error (Node × φ) → Except Error (Node × ψ) → Prop
  | served {node : Node} {left : φ} {right : ψ} (knows : known node) (stays : twin left right) :
      ServedAlike known twin (.ok (node, left)) (.ok (node, right))
  | refused {error : Error} : ServedAlike known twin (.error error) (.error error)

/-- Frontiers that correspond to each other as long as only known nodes join. -/
structure Twins [Service φ] [Service ψ] (known : Node → Prop) (twin : φ → ψ → Prop) : Prop where
  enqueue : ∀ {left right node}, twin left right → known node →
    twin (Service.enqueue node left) (Service.enqueue node right)
  next : ∀ {left right}, twin left right →
    ServedAlike known twin (Service.next left) (Service.next right)
  clear : ∀ {left right}, twin left right → twin (Service.clear left) (Service.clear right)
  size : ∀ {left right}, twin left right → Service.size left = Service.size right
  upperBound : ∀ {left right}, twin left right →
    Service.upperBound left = Service.upperBound right

theorem Twins.hasNext_eq [Service φ] [Service ψ] (twins : Twins known twin) {left : φ} {right : ψ}
    (alike : twin left right) : Service.hasNext left = Service.hasNext right := by
  rw [Service.hasNext, Service.isEmpty, twins.size alike]
  rfl

/-- A queue that holds known nodes corresponds to itself. -/
theorem twins_self (known : Node → Prop) : Twins known fun left right : Frontier =>
    left = right ∧ ∀ node ∈ left.queue, known node where
  enqueue := by
    rintro frontier _ node ⟨rfl, waiting⟩ knows
    refine ⟨rfl, fun other member => ?_⟩
    rcases List.mem_cons.mp ((queue_enqueue_perm frontier node).mem_iff.mp member) with rfl | stayed
    · exact knows
    · exact waiting other stayed
  next := by
    rintro frontier _ ⟨rfl, waiting⟩
    cases next : frontier.next? with
    | none =>
      simp only [Service.next, next]
      exact .refused
    | some served =>
      obtain ⟨node, rest⟩ := served
      obtain ⟨queue, -⟩ := next?_eq_some_iff.mp next
      rw [queue] at waiting
      simp only [Service.next, next]
      exact .served (waiting node (List.mem_cons_self ..))
        ⟨rfl, fun other member => waiting other (List.mem_cons_of_mem _ member)⟩
  clear := by
    rintro frontier _ ⟨rfl, -⟩
    exact ⟨rfl, fun _ absent => nomatch absent⟩
  size := by
    rintro frontier _ ⟨rfl, -⟩
    rfl
  upperBound := by
    rintro frontier _ ⟨rfl, -⟩
    rfl

end Knapsack.Frontier
