import Knapsack.Proofs.Search.Census

/-! # Lineage by numbers

The status of a node changes while it waits and when it is processed, but its number stays. So who
descends from whom is told by numbers here. Parents are older than their children, and therefore new
children leave the lineage of the older nodes as it was; their own goes on from that of their parent.
-/

namespace Knapsack.Search

/-- Among some nodes, the one of the first number has a parent of the second. -/
def ParentIn (nodes : List Node) (child parent : ℕ) : Prop :=
  ∃ node ∈ nodes, node.id = child ∧ node.parent? = some parent

/-- Among some nodes, a chain of parents leads from the first number to the second. -/
def DescendsIn (nodes : List Node) : ℕ → ℕ → Prop := Relation.TransGen (ParentIn nodes)

/-- Nodes of numbers below a bound, whose parents are older than they are. -/
structure Lineage (bound : ℕ) (nodes : List Node) : Prop where
  within : ∀ node ∈ nodes, node.id < bound
  older : ∀ node ∈ nodes, ∀ parent, node.parent? = some parent → parent < node.id

variable {bound number above parent : ℕ} {nodes more : List Node}

theorem DescendsIn.append (descends : DescendsIn nodes number above) (more : List Node) :
    DescendsIn (nodes ++ more) number above := by
  refine Relation.TransGen.mono ?_ _ _ descends
  rintro child parent ⟨node, member, named⟩
  exact ⟨node, List.mem_append_left _ member, named⟩

namespace Lineage

/-- Younger nodes are not among the ancestors of the older ones. -/
theorem descendsIn_of_append (lineage : Lineage bound nodes)
    (younger : ∀ node ∈ more, bound ≤ node.id) (old : number < bound)
    (descends : DescendsIn (nodes ++ more) number above) : DescendsIn nodes number above := by
  have step : ∀ {child parent}, child < bound → ParentIn (nodes ++ more) child parent →
      ParentIn nodes child parent ∧ parent < bound := by
    rintro child parent within ⟨node, member, rfl, named⟩
    have listed : node ∈ nodes := (List.mem_append.mp member).resolve_right fun new =>
      absurd within (younger node new).not_gt
    exact ⟨⟨node, listed, rfl, named⟩, (lineage.older node listed parent named).trans within⟩
  revert old
  induction descends using Relation.TransGen.head_induction_on with
  | single kin => exact fun old => .single (step old kin).1
  | head kin _ ih =>
    intro old
    obtain ⟨kinToo, within⟩ := step old kin
    exact .head kinToo (ih within)

/-- A new child descends from its parent and from the ancestors of its parent, and from no other
node. -/
theorem descendsIn_child_iff (lineage : Lineage bound nodes)
    (younger : ∀ node ∈ more, bound ≤ node.id) (names : ∀ node ∈ more, node.parent? = some parent)
    (known : parent < bound) {child : Node} (member : child ∈ more) :
    DescendsIn (nodes ++ more) child.id above ↔ above = parent ∨ DescendsIn nodes parent above := by
  have kin : ParentIn (nodes ++ more) child.id parent :=
    ⟨child, List.mem_append_right _ member, rfl, names child member⟩
  constructor
  · intro descends
    obtain ⟨next, ⟨node, listed, same, named⟩, rest⟩ := Relation.TransGen.head'_iff.mp descends
    have new : node ∈ more := (List.mem_append.mp listed).resolve_left fun old =>
      absurd (same ▸ lineage.within node old) (younger child member).not_gt
    obtain rfl := Option.some.inj (named.symm.trans (names node new))
    refine (Relation.reflTransGen_iff_eq_or_transGen.mp rest).imp_right ?_
    exact lineage.descendsIn_of_append younger known
  · rintro (rfl | descends)
    · exact .single kin
    · exact .head kin (descends.append more)

/-- Children of a known node carry the lineage on. -/
theorem append (lineage : Lineage bound nodes)
    (numbers : more.map (·.id) = (List.range more.length).map (bound + ·))
    (names : ∀ node ∈ more, node.parent? = some parent) (known : parent < bound) :
    Lineage (bound + more.length) (nodes ++ more) := by
  constructor
  · intro node member
    rcases List.mem_append.mp member with old | new
    · exact (lineage.within node old).trans_le (Nat.le_add_right _ _)
    · exact (id_within numbers new).2
  · intro node member grower named
    rcases List.mem_append.mp member with old | new
    · exact lineage.older node old grower named
    · obtain rfl := Option.some.inj (named.symm.trans (names node new))
      exact known.trans_le (id_within numbers new).1

end Lineage

section Turns

variable {plan : Plan} {node : Node} {rest : Frontier} {before after : State Frontier}
  {children : List Node}

/-- A turn leaves the lineage of the older nodes as it was. -/
theorem Brood.descendsIn_iff (brood : Brood plan node before children after)
    (lineage : Lineage before.tree.created (createdIn before.events))
    (old : number < before.tree.created) : DescendsIn (createdIn after.events) number above ↔
      DescendsIn (createdIn before.events) number above := by
  rw [brood.created]
  constructor
  · exact lineage.descendsIn_of_append (fun _ member => (id_within brood.numbers member).1) old
  · exact fun descends => descends.append children

/-- The children of a turn descend from the node and its ancestors. -/
theorem Brood.descendsIn_child_iff (brood : Brood plan node before children after)
    (lineage : Lineage before.tree.created (createdIn before.events))
    (known : node.id < before.tree.created) {child : Node} (member : child ∈ children) :
    DescendsIn (createdIn after.events) child.id above ↔
      above = node.id ∨ DescendsIn (createdIn before.events) node.id above := by
  rw [brood.created]
  exact lineage.descendsIn_child_iff (fun _ member => (id_within brood.numbers member).1)
    brood.names known member

theorem Brood.lineage (brood : Brood plan node before children after)
    (lineage : Lineage before.tree.created (createdIn before.events))
    (known : node.id < before.tree.created) :
    Lineage after.tree.created (createdIn after.events) := by
  rw [brood.created, brood.grows]
  exact lineage.append brood.numbers brood.names known

/-- The root has no ancestor. -/
theorem lineage_root {tree : Tree} {fixation : Fixation} {root : Node}
    (drafted : tree.Drafted none fixation root) : Lineage (tree.created + 1) [root] where
  within := by
    intro node member
    obtain rfl := List.mem_singleton.mp member
    exact drafted.number ▸ Nat.lt_succ_self _
  older := by
    intro node member parent named
    obtain rfl := List.mem_singleton.mp member
    exact nomatch drafted.below.symm.trans named

end Turns

end Knapsack.Search
