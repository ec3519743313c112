import Knapsack.Proofs.Frontier.Stable

/-! # Frontiers that are stable

The order of arrivals is a total one, and so a max-heap hands out an arrival that no other one
exceeds. The younger of two nodes of equal rank has the greater stamp, which makes it the lesser
arrival: so the node that leaves a heap is the one that a stable priority queue picks. A frontier
that keeps its queue in order picks the same one.
-/

namespace Knapsack

variable {ranking : Ranking}

theorem Arrival.transCmp_compare (order : Std.TransCmp ranking) :
    Std.TransCmp (Arrival.compare ranking) := by
  have byRank : Std.TransCmp fun a b : Arrival => ranking a.node b.node :=
    { eq_swap := order.toOrientedCmp.eq_swap
      isLE_trans := order.isLE_trans }
  have byStamp : Std.TransCmp (compareOn Arrival.stamp) := inferInstance
  have byAge : Std.TransCmp fun a b => compareOn Arrival.stamp b a := byStamp.opposite
  exact inferInstanceAs (Std.TransCmp (compareLex (fun a b : Arrival => ranking a.node b.node)
    fun a b => compareOn Arrival.stamp b a))

/-- What a max-heap promises: it is empty at first, what is pushed is added to it, and what is
popped is one of its entries that no other one exceeds. -/
structure MaxHeap.Correct {α : Type} (heap : MaxHeap α) (order : α → α → Ordering) : Prop where
  empty : heap.entries heap.empty = []
  push : ∀ entry store, (heap.entries (heap.push entry store)).Perm (entry :: heap.entries store)
  pop_eq_none : ∀ {store}, heap.pop? store = none → heap.entries store = []
  pop_eq_some : ∀ {store entry rest}, heap.pop? store = some (entry, rest) →
    (heap.entries store).Perm (entry :: heap.entries rest) ∧
      ∀ other ∈ heap.entries store, order other entry ≠ .gt
  clear : ∀ store, heap.entries (heap.clear store) = []
  size : ∀ store, heap.size store = (heap.entries store).length

namespace MaxHeap

variable {α : Type} {order : α → α → Ordering}

/-- Takes the greatest one of some entries, and of several such the first. -/
def takeGreatest (order : α → α → Ordering) : List α → Option (α × List α)
  | [] => none
  | first :: others =>
    match takeGreatest order others with
    | none => some (first, [])
    | some (entry, rest) =>
      if order first entry = .lt then some (entry, first :: rest) else some (first, others)

/-- A heap that is a list of its entries in no particular order. -/
def ofLists (order : α → α → Ordering) : MaxHeap α where
  Store := List α
  empty := []
  push := List.cons
  pop? := takeGreatest order
  clear := fun _ => []
  entries := id
  size := List.length

theorem eq_nil_of_takeGreatest {entries : List α} (taken : takeGreatest order entries = none) :
    entries = [] := by
  cases entries with
  | nil => rfl
  | cons first others =>
    unfold takeGreatest at taken
    split at taken
    · exact nomatch taken
    · split_ifs at taken

theorem takeGreatest_eq_some (trans : Std.TransCmp order) {entries rest : List α} {entry : α}
    (taken : takeGreatest order entries = some (entry, rest)) :
    entries.Perm (entry :: rest) ∧ ∀ other ∈ entries, order other entry ≠ .gt := by
  induction entries generalizing entry rest with
  | nil => exact nomatch taken
  | cons first others ih =>
    have self : order first first = .eq := Std.ReflCmp.compare_self
    have notAbove : order first first ≠ .gt := by
      rw [self]
      decide
    unfold takeGreatest at taken
    cases among : takeGreatest order others with
    | none =>
      rw [among] at taken
      cases taken
      rw [eq_nil_of_takeGreatest among]
      exact ⟨List.Perm.refl _, List.forall_mem_singleton.mpr notAbove⟩
    | some served =>
      obtain ⟨best, left⟩ := served
      obtain ⟨perm, greatest⟩ := ih among
      rw [among] at taken
      dsimp only at taken
      split_ifs at taken with less <;> cases taken
      · refine ⟨(perm.cons first).trans (List.Perm.swap ..), ?_⟩
        refine List.forall_mem_cons.mpr ⟨?_, greatest⟩
        rw [less]
        decide
      · refine ⟨List.Perm.refl _, List.forall_mem_cons.mpr ⟨notAbove, fun other member => ?_⟩⟩
        have above : (order best first).isLE = true :=
          Std.OrientedCmp.isGE_iff_isLE.mp (Ordering.ne_lt_iff_isGE.mp less)
        exact Ordering.ne_gt_iff_isLE.mpr (Std.TransCmp.isLE_trans
          (Ordering.ne_gt_iff_isLE.mp (greatest other member)) above)

theorem correct_ofLists (trans : Std.TransCmp order) : (ofLists order).Correct order where
  empty := rfl
  push := fun _ _ => List.Perm.refl _
  pop_eq_none := eq_nil_of_takeGreatest
  pop_eq_some := takeGreatest_eq_some trans
  clear := fun _ => rfl
  size := fun _ => rfl

end MaxHeap

namespace Stamped

variable {heap : MaxHeap Arrival} {frontier : Stamped heap} {waiting : List Node}

/-- A heap holds some nodes that wait, and their stamps rise in the order in which they joined. -/
structure Holds (frontier : Stamped heap) (waiting : List Node) : Prop where
  inTurn : ∃ arrivals : List Arrival, (heap.entries frontier.store).Perm arrivals ∧
    arrivals.Pairwise (·.stamp < ·.stamp) ∧ arrivals.map (·.node) = waiting
  stamped : ∀ arrival ∈ heap.entries frontier.store, arrival.stamp < frontier.nextStamp

/-- An arrival that none exceeds, among some in the order of their stamps, is that of the node that
is picked. -/
theorem picks_of_greatest {earlier later : List Arrival} {arrival : Arrival}
    (inTurn : (earlier ++ arrival :: later).Pairwise (·.stamp < ·.stamp))
    (greatest : ∀ other ∈ earlier ++ arrival :: later, other.compare ranking arrival ≠ .gt) :
    ranking.Picks arrival.node ((earlier ++ arrival :: later).map (·.node))
      ((earlier ++ later).map (·.node)) := by
  rw [List.map_append, List.map_append, List.map_cons]
  constructor
  · intro node waits
    obtain ⟨other, member, rfl⟩ := List.mem_map.mp waits
    have older : other.stamp < arrival.stamp :=
      (List.pairwise_append.mp inTurn).2.2 other member arrival (List.mem_cons_self ..)
    have below := greatest other (List.mem_append_left _ member)
    rw [Arrival.compare, compare_gt_iff_gt.mpr older] at below
    cases rank : ranking other.node arrival.node with
    | lt => rfl
    | eq => exact absurd (by rw [rank]; rfl) below
    | gt => exact absurd (by rw [rank]; rfl) below
  · intro node waits
    obtain ⟨other, member, rfl⟩ := List.mem_map.mp waits
    have below := greatest other (List.mem_append_right _ (List.mem_cons_of_mem _ member))
    exact Ordering.isLE_left_of_isLE_then (Ordering.ne_gt_iff_isLE.mp below)

section Operations

variable (correct : heap.Correct (Arrival.compare ranking))
include correct

theorem holds_empty : (empty heap).Holds [] where
  inTurn := ⟨[], List.Perm.of_eq correct.empty, List.Pairwise.nil, rfl⟩
  stamped := fun _ waits => nomatch correct.empty ▸ waits

/-- The stamp of a node that joins is the greatest one yet. -/
theorem Holds.enqueue (holds : frontier.Holds waiting) (node : Node) :
    ((service heap).enqueue node frontier).Holds (waiting ++ [node]) := by
  obtain ⟨arrivals, perm, inTurn, rfl⟩ := holds.inTurn
  have pushed := correct.push ⟨frontier.nextStamp, node⟩ frontier.store
  refine ⟨⟨arrivals ++ [⟨frontier.nextStamp, node⟩], ?_, ?_, ?_⟩, ?_⟩
  · exact pushed.trans ((perm.cons _).trans (List.perm_append_singleton _ _).symm)
  · apply List.pairwise_append.mpr ⟨inTurn, List.pairwise_singleton _ _, ?_⟩
    intro arrival member last lastly
    rw [List.mem_singleton.mp lastly]
    exact holds.stamped arrival (perm.mem_iff.mpr member)
  · rw [List.map_append]
    rfl
  · intro arrival member
    rcases List.mem_cons.mp (pushed.mem_iff.mp member) with rfl | waits
    · exact Nat.lt_succ_self _
    · exact Nat.lt_succ_of_lt (holds.stamped arrival waits)

theorem Holds.next (holds : frontier.Holds waiting) :
    (waiting = [] ∧ (service heap).next frontier = .error .emptyFrontier) ∨ ∃ node after rest,
      ranking.Picks node waiting rest ∧ (service heap).next frontier = .ok (node, after) ∧
        after.Holds rest := by
  obtain ⟨arrivals, perm, inTurn, rfl⟩ := holds.inTurn
  cases pop : heap.pop? frontier.store with
  | none =>
    refine Or.inl ⟨?_, by simp only [Frontier.Service.next, pop]⟩
    rw [correct.pop_eq_none pop] at perm
    rw [List.nil_perm.mp perm]
    rfl
  | some served =>
    obtain ⟨arrival, rest⟩ := served
    obtain ⟨taken, greatest⟩ := correct.pop_eq_some pop
    have member : arrival ∈ arrivals :=
      perm.mem_iff.mp (taken.mem_iff.mpr (List.mem_cons_self ..))
    obtain ⟨earlier, later, rfl⟩ := List.append_of_mem member
    have others : (heap.entries rest).Perm (earlier ++ later) :=
      (taken.symm.trans (perm.trans List.perm_middle)).cons_inv
    refine Or.inr ⟨arrival.node, { frontier with store := rest }, _,
      picks_of_greatest inTurn fun other waits => greatest other (perm.mem_iff.mpr waits),
      by simp only [Frontier.Service.next, pop], ⟨earlier ++ later, others, ?_, rfl⟩, ?_⟩
    · exact inTurn.sublist ((List.sublist_cons_self ..).append_left earlier)
    · intro other waits
      exact holds.stamped other (taken.mem_iff.mpr (List.mem_cons_of_mem _ waits))

theorem holds_clear (frontier : Stamped heap) : ((service heap).clear frontier).Holds [] := by
  have cleared : heap.entries ((service heap).clear frontier).store = [] :=
    correct.clear frontier.store
  refine ⟨⟨[], List.Perm.of_eq cleared, List.Pairwise.nil, rfl⟩, ?_⟩
  rw [cleared]
  exact List.forall_mem_nil _

theorem Holds.size (holds : frontier.Holds waiting) :
    (service heap).size frontier = waiting.length := by
  obtain ⟨arrivals, perm, -, rfl⟩ := holds.inTurn
  exact (correct.size frontier.store).trans (by rw [perm.length_eq, List.length_map])

theorem refines : (service heap).Refines ranking Holds where
  enqueue := Holds.enqueue correct
  next := Holds.next correct
  clear := fun _ => holds_clear correct _
  size := Holds.size correct
  upperBound := by
    intro frontier waiting holds
    obtain ⟨arrivals, perm, -, rfl⟩ := holds.inTurn
    exact (Frontier.isTop_upperBound
      ⟨ranking, (heap.entries frontier.store).map (·.node)⟩).of_perm (perm.map _)

end Operations

end Stamped

namespace Frontier

theorem refines (order : Std.TransCmp ranking) : service.Refines ranking
    fun frontier waiting => frontier = ⟨ranking, ranking.sort waiting⟩ where
  enqueue := by
    rintro _ waiting rfl node
    exact congrArg (Frontier.mk ranking) (Ranking.insert_sort order node waiting)
  next := by
    rintro _ waiting rfl
    cases waiting with
    | nil => exact Or.inl ⟨rfl, rfl⟩
    | cons first others =>
      obtain ⟨node, rest, picks⟩ := Ranking.exists_picks order (List.cons_ne_nil first others)
      refine Or.inr ⟨node, ⟨ranking, ranking.sort rest⟩, rest, picks, ?_, rfl⟩
      rw [picks.sort_eq order]
      rfl
  clear := by
    rintro _ waiting rfl
    rfl
  size := by
    rintro _ waiting rfl
    exact List.length_insertionSort _ waiting
  upperBound := by
    rintro _ waiting rfl
    exact (isTop_upperBound _).of_perm (List.perm_insertionSort _ waiting)

/-- A sorted queue is drained in its order. -/
theorem drain_eq (frontier : Frontier) : service.drain frontier = frontier.queue := by
  have take_eq : ∀ count (frontier : Frontier),
      service.take count frontier = frontier.queue.take count := by
    intro count
    induction count with
    | zero => exact fun _ => rfl
    | succ count ih =>
      rintro ⟨ranking, queue⟩
      cases queue with
      | nil => rfl
      | cons node rest => exact congrArg (node :: ·) (ih ⟨ranking, rest⟩)
  exact (take_eq _ frontier).trans List.take_length

/-- On any max-heap that keeps its promises for the total orders, and with any ranking of the
library, a frontier is a stable priority queue, whatever calls were made: nobody outranks the node
that it serves, and that node outranks those that have waited for longer. A frontier that keeps its
queue in order answers the same calls alike. -/
theorem serves_as_stable_queue (provided : ranking.Provided)
    (library : (Arrival → Arrival → Ordering) → MaxHeap Arrival)
    (correct : ∀ order, Std.TransCmp order → (library order).Correct order) (calls : List Call) :
    let heap := library (Arrival.compare ranking)
    let history := (Stamped.service heap).run calls (.empty heap)
    Std.TransCmp ranking ∧ (Stamped.service heap).Serves ranking history.2 (.of history.1) ∧
      (service.run calls (.empty ranking)).1 = history.1 ∧
        service.Serves ranking (service.run calls (.empty ranking)).2 (.of history.1) := by
  intro heap history
  have order := provided.order
  have kept := correct _ (Arrival.transCmp_compare order)
  have same : (service.run calls (.empty ranking)).1 = history.1 :=
    Service.record_eq ((refines order).twins (Stamped.refines kept) order) calls
      ⟨[], rfl, Stamped.holds_empty kept⟩
  have sorted : service.Serves ranking (service.run calls (.empty ranking)).2
      (.of (service.run calls (.empty ranking)).1) := (refines order).serves_run order rfl calls
  rw [same] at sorted
  exact ⟨order, (Stamped.refines kept).serves_run order (Stamped.holds_empty kept) calls, same,
    sorted⟩

/-- A node of which only the age matters. -/
def guest (id : ℕ) : Node where
  id
  parent? := none
  depth := 0
  fixation := .unassigned 0
  relaxed := ⟨⟨[], 0⟩, [], rfl⟩
  value := .ofNat id
  feasible := true
  status := .enqueued

/-- Guests of even age come first, and among those the one that joined first. -/
theorem serves_as_stable_queue_guests :
    let ranking : Ranking := Ranking.minKey (·.id % 2)
    let calls : List Call := [.enqueue (guest 5), .next, .next, .clear, .enqueue (guest 3),
      .enqueue (guest 6), .enqueue (guest 4), .next]
    let heap := MaxHeap.ofLists (Arrival.compare ranking)
    let history := (Stamped.service heap).run calls (.empty heap)
    ranking.Provided ∧
      (∀ order : Arrival → Arrival → Ordering, Std.TransCmp order →
        (MaxHeap.ofLists order).Correct order) ∧
      history.1 = [.joined (guest 5), .left (guest 5), .refused .emptyFrontier, .cleared,
        .joined (guest 3), .joined (guest 6), .joined (guest 4), .left (guest 6)] ∧
      (Stamped.service heap).Serves ranking history.2
        ⟨[guest 3, guest 6, guest 4], [guest 6], [guest 3, guest 4]⟩ := by
  intro ranking calls heap history
  have correct : ∀ order : Arrival → Arrival → Ordering, Std.TransCmp order →
      (MaxHeap.ofLists order).Correct order := fun _ => MaxHeap.correct_ofLists
  have provided : ranking.Provided := .minKey _
  have record : history.1 = [.joined (guest 5), .left (guest 5), .refused .emptyFrontier,
      .cleared, .joined (guest 3), .joined (guest 6), .joined (guest 4), .left (guest 6)] := by
    decide
  have serves : (Stamped.service heap).Serves ranking history.2 (.of history.1) :=
    (serves_as_stable_queue provided MaxHeap.ofLists correct calls).2.1
  rw [record] at serves
  exact ⟨provided, correct, record, serves⟩

end Frontier

end Knapsack
