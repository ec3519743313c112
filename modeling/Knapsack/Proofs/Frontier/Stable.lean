import Knapsack.Proofs.Frontier.Order
import Knapsack.Proofs.Frontier.Twins

/-! # Stable priority queues

A stable priority queue is a list of nodes in the order in which they joined. It serves the first of
those that no other one outranks. A frontier refines it when each of its states stands for such a
list and its operations do to the list what those of the queue do; then no history of calls tells
the frontier from the queue.
-/

namespace Knapsack

open Frontier (Sorted)

variable {ranking : Ranking} {node : Node} {waiting rest : List Node}

namespace Ranking

/-- Nodes by decreasing rank, where those of equal rank keep their order. -/
def sort (ranking : Ranking) (nodes : List Node) : List Node :=
  nodes.insertionSort fun earlier later => (ranking later earlier).isLE = true

/-- The node that is served among those that wait, and the others: it outranks those that joined
before it, and no later one outranks it. -/
inductive Picks (ranking : Ranking) (node : Node) : List Node → List Node → Prop
  | intro {earlier later : List Node} (before : ∀ other ∈ earlier, ranking other node = .lt)
      (behind : ∀ other ∈ later, (ranking other node).isLE = true) :
      Picks ranking node (earlier ++ node :: later) (earlier ++ later)

namespace Picks

theorem perm (picks : ranking.Picks node waiting rest) : waiting.Perm (node :: rest) := by
  cases picks
  exact List.perm_middle

/-- No node that waits outranks the one that is served. -/
theorem isLE (picks : ranking.Picks node waiting rest) :
    ∀ other ∈ rest, (ranking other node).isLE = true := by
  obtain ⟨before, behind⟩ := picks
  intro other waits
  rcases List.mem_append.mp waits with earlier | later
  · rw [before other earlier]
    rfl
  · exact behind other later

/-- Taking the node that is served out of the queue leaves the others as they stand. -/
theorem erase_eq (picks : ranking.Picks node waiting rest) (order : Std.TransCmp ranking) :
    waiting.erase node = rest := by
  obtain ⟨before, behind⟩ := picks
  rename_i earlier later
  have first : node ∉ earlier := by
    intro waits
    have self : ranking node node = .eq := Std.ReflCmp.compare_self
    exact absurd (self.symm.trans (before node waits)) (by decide)
  rw [List.erase_append_right _ first, List.erase_cons_head]

/-- The node that is served comes first in the order of ranks. -/
theorem sort_eq (picks : ranking.Picks node waiting rest) (order : Std.TransCmp ranking) :
    ranking.sort waiting = node :: ranking.sort rest := by
  obtain ⟨before, behind⟩ := picks
  rename_i earlier later
  unfold sort
  induction earlier with
  | nil => exact List.insertionSort_cons_of_forall_rel _ behind
  | cons first others ih =>
    obtain ⟨below, before⟩ := List.forall_mem_cons.mp before
    rw [List.cons_append, List.insertionSort_cons, ih before, List.orderedInsert_of_not_le,
      List.cons_append, List.insertionSort_cons]
    rw [Std.OrientedCmp.gt_iff_lt.mpr below]
    decide

theorem unique (picks : ranking.Picks node waiting rest) {other : Node} {others : List Node}
    (alike : ranking.Picks other waiting others) (order : Std.TransCmp ranking) :
    node = other ∧ rest = others := by
  have same : node :: ranking.sort rest = other :: ranking.sort others :=
    (picks.sort_eq order).symm.trans (alike.sort_eq order)
  obtain rfl := List.head_eq_of_cons_eq same
  exact ⟨rfl, (picks.erase_eq order).symm.trans (alike.erase_eq order)⟩

end Picks

/-- As long as nodes wait, one of them is served. -/
theorem exists_picks (order : Std.TransCmp ranking) (some : waiting ≠ []) :
    ∃ node rest, ranking.Picks node waiting rest := by
  induction waiting with
  | nil => exact absurd rfl some
  | cons first others ih =>
    by_cases last : others = []
    · subst last
      exact ⟨first, [], Picks.intro (List.forall_mem_nil _) (List.forall_mem_nil _)⟩
    · obtain ⟨node, rest, picks⟩ := ih last
      cases above : (ranking node first).isLE with
      | true =>
        refine ⟨first, others, Picks.intro (List.forall_mem_nil _) ?_⟩
        intro other waits
        rcases List.mem_cons.mp (picks.perm.mem_iff.mp waits) with rfl | behind
        · exact above
        · exact Std.TransCmp.isLE_trans (picks.isLE other behind) above
      | false =>
        have below : ranking first node = .lt :=
          Std.OrientedCmp.gt_iff_lt.mp (Ordering.isLE_eq_false.mp above)
        obtain ⟨before, behind⟩ := picks
        exact ⟨node, _, Picks.intro (List.forall_mem_cons.mpr ⟨below, before⟩) behind⟩

/-- An older node joins before its equals and a younger one behind its equals, in either order. -/
theorem insert_orderedInsert (order : Std.TransCmp ranking) (first : Node) (queue : List Node) :
    Frontier.insert ranking node
        (queue.orderedInsert (fun a b => (ranking b a).isLE = true) first) =
      (Frontier.insert ranking node queue).orderedInsert
        (fun a b => (ranking b a).isLE = true) first := by
  induction queue with
  | nil =>
    rw [List.orderedInsert_nil, Frontier.insert, Frontier.insert, Frontier.insert,
      List.orderedInsert_cons]
    cases rank : ranking node first <;> rfl
  | cons other queue ih =>
    by_cases outranks : ranking node other = .gt
    · have below : (ranking other node).isLE = true := by
        rw [Std.OrientedCmp.gt_iff_lt.mp outranks]
        rfl
      by_cases last : (ranking node first).isLE = true
      · have behind : (ranking other first).isLE = true := Std.TransCmp.isLE_trans below last
        have stays : ranking node first ≠ .gt := Ordering.ne_gt_iff_isLE.mpr last
        simp only [List.orderedInsert_cons, Frontier.insert, if_pos last, if_pos behind,
          if_pos outranks, if_neg stays]
      · have above : ranking node first = .gt := Ordering.isLE_eq_false.mp (by simpa using last)
        by_cases behind : (ranking other first).isLE = true
        · simp only [List.orderedInsert_cons, Frontier.insert, if_neg last, if_pos behind,
            if_pos outranks, if_pos above]
        · simp only [List.orderedInsert_cons, Frontier.insert, if_neg last, if_neg behind,
            if_pos outranks]
    · have below : (ranking node other).isLE = true := Ordering.ne_gt_iff_isLE.mp outranks
      by_cases behind : (ranking other first).isLE = true
      · have last : (ranking node first).isLE = true := Std.TransCmp.isLE_trans below behind
        have stays : ranking node first ≠ .gt := Ordering.ne_gt_iff_isLE.mpr last
        simp only [List.orderedInsert_cons, Frontier.insert, if_pos behind, if_neg outranks,
          if_neg stays]
      · simp only [List.orderedInsert_cons, Frontier.insert, if_neg behind, if_neg outranks, ih]

/-- A node that joins a queue in the order of ranks takes the place that sorting gives it. -/
theorem insert_sort (order : Std.TransCmp ranking) (node : Node) (waiting : List Node) :
    Frontier.insert ranking node (ranking.sort waiting) = ranking.sort (waiting ++ [node]) := by
  unfold sort
  induction waiting with
  | nil => rfl
  | cons first others ih =>
    rw [List.cons_append, List.insertionSort_cons, insert_orderedInsert order, ih,
      List.insertionSort_cons]

end Ranking

namespace Frontier

/-- The greatest value of a feasible one among some nodes; minus infinity when none is feasible. -/
def IsTop (bound : Bound) (nodes : List Node) : Prop :=
  (bound = .negInfinity ∧ ∀ node ∈ nodes, node.feasible = false) ∨
    ∃ node ∈ nodes, node.feasible = true ∧ bound = .finite node.value ∧
      ∀ other ∈ nodes, other.feasible = true → other.value ≤ node.value

theorem isTop_upperBound (frontier : Frontier) : IsTop frontier.upperBound frontier.queue := by
  have bounds : ∀ node ∈ frontier.queue, node.feasible = true →
      .finite node.value ≤ frontier.upperBound := fun _ => le_upperBound
  cases top : frontier.upperBound with
  | negInfinity =>
    rw [top] at bounds
    exact Or.inl ⟨rfl, fun node waits => Bool.eq_false_iff.mpr (bounds node waits)⟩
  | finite value =>
    rw [top] at bounds
    obtain ⟨node, waits, feasible, rfl⟩ := exists_of_upperBound_eq top
    exact Or.inr ⟨node, waits, feasible, rfl, bounds⟩
  | posInfinity =>
    unfold upperBound at top
    cases known : frontier.queue.foldl raise none <;> rw [known] at top <;> exact nomatch top

theorem IsTop.of_perm {bound : Bound} {nodes others : List Node} (top : IsTop bound nodes)
    (perm : nodes.Perm others) : IsTop bound others := by
  simpa only [IsTop, perm.mem_iff] using top

/-- Some nodes have one bound only. -/
theorem IsTop.unique {bound other : Bound} {nodes : List Node} (top : IsTop bound nodes)
    (also : IsTop other nodes) : bound = other := by
  rcases top with ⟨rfl, none⟩ | ⟨node, member, feasible, rfl, greatest⟩
  · rcases also with ⟨rfl, -⟩ | ⟨node, member, feasible, -⟩
    · rfl
    · exact nomatch (none node member).symm.trans feasible
  · rcases also with ⟨-, none⟩ | ⟨node', member', feasible', rfl, greatest'⟩
    · exact nomatch (none node member).symm.trans feasible
    · rw [le_antisymm (greatest' node member feasible) (greatest node' member' feasible')]

/-- What can be asked of a frontier, apart from its bound and its size. -/
inductive Call where
  | enqueue (node : Node)
  | next
  | clear

/-- What came of a call. -/
inductive Entry where
  | joined (node : Node)
  | left (node : Node)
  | refused (error : Error)
  | cleared
deriving DecidableEq

/-- The nodes that joined and those that left since all were cleared away, and those that wait, each
in the order in which they came. -/
structure Ledger where
  joined : List Node := []
  left : List Node := []
  waiting : List Node := []

namespace Ledger

def enter (ledger : Ledger) : Entry → Ledger
  | .joined node =>
    { ledger with joined := ledger.joined ++ [node], waiting := ledger.waiting ++ [node] }
  | .left node =>
    { ledger with left := ledger.left ++ [node], waiting := ledger.waiting.erase node }
  | .refused _ => ledger
  | .cleared => {}

/-- What a record of calls amounts to. -/
def of (record : List Entry) : Ledger := record.foldl enter {}

/-- Whoever joined either left or waits, and nobody else does. -/
def Balanced (ledger : Ledger) : Prop := ledger.joined.Perm (ledger.left ++ ledger.waiting)

end Ledger

namespace Service

variable {σ τ : Type} {service : Service σ} {other : Service τ} {state : σ}
  {Stands : σ → List Node → Prop} {Means : τ → List Node → Prop}

def answer (service : Service σ) (state : σ) : Call → Entry × σ
  | .enqueue node => (.joined node, service.enqueue node state)
  | .next =>
    match service.next state with
    | .error error => (.refused error, state)
    | .ok (node, after) => (.left node, after)
  | .clear => (.cleared, service.clear state)

/-- Makes some calls one after the other, and records what came of them. -/
def run (service : Service σ) : List Call → σ → List Entry × σ
  | [], state => ([], state)
  | call :: calls, state =>
    let (entry, after) := service.answer state call
    let (record, last) := service.run calls after
    (entry :: record, last)

/-- The first nodes that leave, in their order. -/
def take (service : Service σ) : Nat → σ → List Node
  | 0, _ => []
  | count + 1, state =>
    match service.next state with
    | .error _ => []
    | .ok (node, after) => node :: service.take count after

/-- All waiting nodes in the order in which they leave. -/
def drain (service : Service σ) (state : σ) : List Node := service.take (service.size state) state

/-- Frontiers that correspond to each other whatever joins answer any calls alike. -/
theorem record_eq {twin : σ → τ → Prop} (twins : Twins (fun _ => True) twin) (calls : List Call)
    {left : σ} {right : τ} (alike : twin left right) :
    (service.run calls left).1 = (other.run calls right).1 := by
  induction calls generalizing left right with
  | nil => rfl
  | cons call calls ih =>
    cases call with
    | enqueue node => exact congrArg (Entry.joined node :: ·) (ih (twins.enqueue alike trivial))
    | next =>
      rw [run, run, answer, answer]
      have served := twins.next alike
      generalize service.next left = here at served ⊢
      generalize other.next right = there at served ⊢
      cases served with
      | @served node _ _ _ stays => exact congrArg (Entry.left node :: ·) (ih stays)
      | @refused error => exact congrArg (Entry.refused error :: ·) (ih alike)
    | clear => exact congrArg (Entry.cleared :: ·) (ih (twins.clear alike))

/-- A state stands for a list of waiting nodes, and the operations of a frontier do to the one what
those of a stable priority queue do to the other. -/
structure Refines (service : Service σ) (ranking : Ranking) (Stands : σ → List Node → Prop) :
    Prop where
  enqueue : ∀ {state waiting}, Stands state waiting → ∀ node,
    Stands (service.enqueue node state) (waiting ++ [node])
  next : ∀ {state waiting}, Stands state waiting →
    (waiting = [] ∧ service.next state = .error .emptyFrontier) ∨ ∃ node after rest,
      ranking.Picks node waiting rest ∧ service.next state = .ok (node, after) ∧ Stands after rest
  clear : ∀ {state waiting}, Stands state waiting → Stands (service.clear state) []
  size : ∀ {state waiting}, Stands state waiting → service.size state = waiting.length
  upperBound : ∀ {state waiting}, Stands state waiting → IsTop (service.upperBound state) waiting

/-- What a stable priority queue answers after the calls in a ledger. Draining it yields what waits
by decreasing rank, and nodes of equal rank in the order in which they joined. -/
structure Serves (service : Service σ) (ranking : Ranking) (state : σ) (ledger : Ledger) :
    Prop where
  next : match service.next state with
    | .error error => error = .emptyFrontier ∧ ledger.waiting = []
    | .ok (node, _) => ranking.Picks node ledger.waiting (ledger.waiting.erase node)
  balanced : ledger.Balanced
  size : service.size state + ledger.left.length = ledger.joined.length
  upperBound : IsTop (service.upperBound state) ledger.waiting
  drained : ∀ count, service.take count state = (ranking.sort ledger.waiting).take count

namespace Refines

variable {ledger : Ledger}

/-- One call does to a state what its entry does to the ledger. -/
theorem answer (refines : service.Refines ranking Stands) (order : Std.TransCmp ranking)
    (stands : Stands state ledger.waiting) (balanced : ledger.Balanced) (call : Call) :
    Stands (service.answer state call).2 (ledger.enter (service.answer state call).1).waiting ∧
      (ledger.enter (service.answer state call).1).Balanced := by
  cases call with
  | enqueue node =>
    refine ⟨refines.enqueue stands node, ?_⟩
    have joined : (ledger.joined ++ [node]).Perm ((ledger.left ++ ledger.waiting) ++ [node]) :=
      balanced.append_right [node]
    exact joined.trans (List.Perm.of_eq (List.append_assoc ..))
  | next =>
    unfold Service.answer
    rcases refines.next stands with ⟨-, nothing⟩ | ⟨node, after, rest, picks, served, still⟩
    · rw [nothing]
      exact ⟨stands, balanced⟩
    · rw [served]
      dsimp only [Ledger.enter]
      rw [picks.erase_eq order]
      refine ⟨still, balanced.trans ?_⟩
      dsimp only
      rw [List.append_assoc]
      exact picks.perm.append_left ledger.left
  | clear => exact ⟨refines.clear stands, List.Perm.refl _⟩

/-- So do any number of calls. -/
theorem run (refines : service.Refines ranking Stands) (order : Std.TransCmp ranking)
    (calls : List Call) (stands : Stands state ledger.waiting) (balanced : ledger.Balanced) :
    Stands (service.run calls state).2
        ((service.run calls state).1.foldl Ledger.enter ledger).waiting ∧
      ((service.run calls state).1.foldl Ledger.enter ledger).Balanced := by
  induction calls generalizing state ledger with
  | nil => exact ⟨stands, balanced⟩
  | cons call calls ih =>
    obtain ⟨still, stays⟩ := refines.answer order stands balanced call
    exact ih still stays

/-- What waits leaves by decreasing rank. -/
theorem take_eq (refines : service.Refines ranking Stands) (order : Std.TransCmp ranking)
    (stands : Stands state waiting) (count : ℕ) :
    service.take count state = (ranking.sort waiting).take count := by
  induction count generalizing state waiting with
  | zero => rfl
  | succ count ih =>
    unfold take
    rcases refines.next stands with ⟨rfl, nothing⟩ | ⟨node, after, rest, picks, served, still⟩
    · rw [nothing]
      rfl
    · rw [served, picks.sort_eq order, List.take_succ_cons]
      exact congrArg (node :: ·) (ih still)

theorem serves (refines : service.Refines ranking Stands) (order : Std.TransCmp ranking)
    (stands : Stands state ledger.waiting) (balanced : ledger.Balanced) :
    service.Serves ranking state ledger where
  next := by
    rcases refines.next stands with ⟨none, nothing⟩ | ⟨node, after, rest, picks, served, -⟩
    · rw [nothing]
      exact ⟨rfl, none⟩
    · rw [served]
      dsimp only
      rw [picks.erase_eq order]
      exact picks
  balanced := balanced
  size := by
    have same := balanced.length_eq
    rw [List.length_append] at same
    rw [refines.size stands, same, Nat.add_comm]
  upperBound := refines.upperBound stands
  drained := refines.take_eq order stands

/-- Whatever calls were made, the frontier answers as the queue does. -/
theorem serves_run (refines : service.Refines ranking Stands) (order : Std.TransCmp ranking)
    (stands : Stands state []) (calls : List Call) :
    service.Serves ranking (service.run calls state).2 (.of (service.run calls state).1) := by
  have new : Stands state (Ledger.waiting {}) := stands
  have blank : Ledger.Balanced {} := List.Perm.refl _
  obtain ⟨still, balanced⟩ := refines.run order calls new blank
  exact refines.serves order still balanced

/-- Frontiers that stand for the same waiting nodes correspond to each other. -/
theorem twins (refines : service.Refines ranking Stands) (alike : other.Refines ranking Means)
    (order : Std.TransCmp ranking) :
    Twins (fun _ => True) fun left right =>
      ∃ waiting, Stands left waiting ∧ Means right waiting where
  enqueue := by
    rintro left right node ⟨waiting, stands, means⟩ -
    exact ⟨_, refines.enqueue stands node, alike.enqueue means node⟩
  next := by
    rintro left right ⟨waiting, stands, means⟩
    rcases refines.next stands with ⟨rfl, nothing⟩ | ⟨node, after, rest, picks, served, still⟩
    · rcases alike.next means with ⟨-, nothing'⟩ | ⟨_, _, _, picks, -⟩
      · rw [nothing, nothing']
        exact .refused
      · exact absurd picks.perm.length_eq (by simp)
    · rcases alike.next means with ⟨rfl, -⟩ | ⟨node', after', rest', picks', served', still'⟩
      · exact absurd picks.perm.length_eq (by simp)
      · obtain ⟨rfl, rfl⟩ := picks.unique picks' order
        rw [served, served']
        exact .served trivial ⟨rest, still, still'⟩
  clear := by
    rintro left right ⟨waiting, stands, means⟩
    exact ⟨[], refines.clear stands, alike.clear means⟩
  size := by
    rintro left right ⟨waiting, stands, means⟩
    exact (refines.size stands).trans (alike.size means).symm
  upperBound := by
    rintro left right ⟨waiting, stands, means⟩
    exact (refines.upperBound stands).unique (alike.upperBound means)

/-- A frontier is drained by decreasing rank. -/
theorem drain_eq (refines : service.Refines ranking Stands) (order : Std.TransCmp ranking)
    (stands : Stands state waiting) : service.drain state = ranking.sort waiting := by
  have length : (ranking.sort waiting).length = waiting.length :=
    List.length_insertionSort _ waiting
  rw [drain, refines.take_eq order stands, refines.size stands, ← length, List.take_length]

end Refines

end Service

end Frontier

end Knapsack
