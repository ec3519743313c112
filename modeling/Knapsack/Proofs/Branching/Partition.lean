import Knapsack.Node.Tree
import Knapsack.Proofs.Branching.Halves

/-! # What branching makes of a node

A node whose relaxed solution is integral has no child. Any other node has two, and the complete
assignments below it are shared out between them, while its relaxed solution is below neither. This
holds for any relaxation and any number of cut items. Only an item that the fixation does not reach
cannot be decided.
-/

namespace Knapsack

/-- What a rule makes of a node: no child when the relaxed solution is integral, and otherwise two
that decide one item more, such that a complete assignment below the node is below exactly one of
them and the relaxed solution is below neither. -/
structure Node.SharedOut (node : Node) (children : List Fixation) : Prop where
  leaf : children = [] ↔ node.relaxed.isIntegral = true
  pair : node.relaxed.isIntegral = false → ∃ left right, children = [left, right] ∧
    ∀ whole : Fixation, whole.Completes node.fixation ↔
      Xor (whole.Completes left) (whole.Completes right)
  below : ∀ child ∈ children, child.refines node.fixation = true ∧
    child.fixedCount = node.fixation.fixedCount + 1 ∧
      child.keptBy node.relaxed.selection = false

namespace Branching

variable {node : Node}

/-- The relaxed solution does not keep a decision about an item that it cuts. -/
theorem keptBy_decided_of_fractional {index : ℕ} (undecided : node.fixation.get? index = some none)
    (cut : index ∈ node.relaxed.fractionalIndices) (decision : Bool) :
    (node.fixation.decided index decision).keptBy node.relaxed.selection = false := by
  obtain ⟨taken, present, isCut⟩ := Solution.mem_indicesWhere.mp cut
  have fixed := Fixation.get?_decided_self undecided decision
  refine Bool.eq_false_iff.mpr fun kept => ?_
  obtain rfl := Fixation.keptBy_iff_forall.mp kept index decision taken fixed present
  cases decision <;> exact nomatch isCut

/-- Deciding a cut item in both ways shares out the node. -/
theorem sharedOut_decided {index : ℕ} (undecided : node.fixation.get? index = some none)
    (cut : index ∈ node.relaxed.fractionalIndices) (fractional : node.relaxed.isIntegral = false) :
    node.SharedOut [node.fixation.decided index false, node.fixation.decided index true] := by
  have below : ∀ decision, (node.fixation.decided index decision).refines node.fixation = true ∧
      (node.fixation.decided index decision).fixedCount = node.fixation.fixedCount + 1 ∧
        (node.fixation.decided index decision).keptBy node.relaxed.selection = false :=
    fun decision => ⟨Fixation.refines_decided undecided decision,
      Fixation.fixedCount_decided undecided decision,
      keptBy_decided_of_fractional undecided cut decision⟩
  refine ⟨⟨nofun, fun integral => nomatch integral.symm.trans fractional⟩, fun _ => ?_, ?_⟩
  · exact ⟨_, _, rfl, fun whole => Fixation.completes_iff_xor_decided undecided⟩
  · simpa using ⟨below false, below true⟩

/-- Whether a rule shares out a node, or was refused the item that it chose because the fixation does
not reach it. -/
def SharesOut (branching : Branching) (call : ℕ) (node : Node) : Prop :=
  (∃ children, branching call node = .ok children ∧ node.SharedOut children) ∨
    ∃ index ∈ node.relaxed.fractionalIndices, node.fixation.length ≤ index ∧
      branching call node = .error (.error (.indexOutOfBounds index node.fixation.length))

/-- A fixation that covers the items reaches whatever a rule chooses. -/
theorem SharesOut.exists_children {branching : Branching} {call : ℕ}
    (shares : branching.SharesOut call node)
    (covers : node.fixation.length = node.relaxed.inst.size) :
    ∃ children, branching call node = .ok children ∧ node.SharedOut children := by
  refine shares.resolve_right ?_
  rintro ⟨index, cut, beyond, -⟩
  have listed := node.relaxed.fractionalIndices_subset (List.mem_toFinset.mpr cut)
  have within := Finset.mem_range.mp listed
  omega

/-- A rule that decides one of the cut items shares out the node when the fixation reaches that
item. -/
theorem Splits.sharesOut {branching : Branching} (splits : branching.Splits)
    (coherent : node.Coherent) (call : ℕ) : branching.SharesOut call node := by
  cases integral : node.relaxed.isIntegral with
  | true =>
    refine Or.inl ⟨[], splits.whole call node coherent integral, iff_of_true rfl integral, ?_, ?_⟩
    · exact fun fractional => nomatch integral.symm.trans fractional
    · exact List.forall_mem_nil _
  | false =>
    obtain ⟨index, cut, yields⟩ := splits.cut call node coherent integral
    rcases Nat.lt_or_ge index node.fixation.length with within | beyond
    · have undecided := coherent.isOpen_of_fractional cut within
      exact Or.inl ⟨_, yields.trans (both_eq_ok undecided),
        sharedOut_decided undecided cut integral⟩
    · exact Or.inr ⟨index, cut, beyond, yields.trans (both_eq_error beyond)⟩

/-- Both rules share out every node whose relaxed solution keeps the fixation, whatever relaxation
drew it, unless the item that they choose is one that the fixation does not reach. -/
theorem rules_share_out_coherent (coherent : node.Coherent) (call : ℕ) :
    firstFractional.SharesOut call node ∧ mostFractional.SharesOut call node :=
  ⟨splits_firstFractional.sharesOut coherent call, splits_mostFractional.sharesOut coherent call⟩

/-- Two items that do not fit together. -/
def rivals : Instance := ⟨[⟨2, 3⟩, ⟨2, 3⟩], 3⟩

/-- A relaxation that does not look at what is fixed: it packs a quarter of the first item and half
of the second one. -/
def blind : Relaxation := fun _ inst _ => Solution.ofSelection inst [.reduce 1 4 (by decide), .half]

/-- Both items of the root are cut, and both are reached. -/
theorem rules_share_out_coherent_blind : ∃ root, (Tree.growRoot {} blind rivals).1 = .ok root ∧
    root.relaxed.fractionalIndices = [0, 1] ∧ root.fixation.length = 2 ∧ root.Coherent ∧
      firstFractional.SharesOut 0 root ∧ mostFractional.SharesOut 0 root := by
  obtain ⟨root, drawn, cut, length, kept, single, narrow⟩ :
      ∃ root, (Tree.growRoot {} blind rivals).1 = .ok root ∧
        root.relaxed.fractionalIndices = [0, 1] ∧ root.fixation.length = 2 ∧
        root.fixation.keptBy root.relaxed.selection = true ∧
        (∀ taken ∈ root.relaxed.selection, taken ≤ 1) ∧
        ∀ taken ∈ root.relaxed.selection, taken.den < 2 ^ 127 :=
    ⟨_, rfl, by decide, by decide, by decide, by decide, by decide⟩
  have coherent : root.Coherent := ⟨kept, single, narrow⟩
  exact ⟨root, drawn, cut, length, coherent, rules_share_out_coherent coherent 0⟩

/-- Nothing keeps a node out of the tree whose fixation is too short, although deciding an item that
it does not reach is refused. -/
theorem mostFractional_refuses_out_of_reach :
    ∃ root node, (Tree.growRoot {} blind rivals).1 = .ok root ∧
      (Tree.growChild ⟨1, 1⟩ blind rivals root (.unassigned 1)).1 = .ok node ∧
      node.Coherent ∧ mostFractional 0 node = .error (.error (.indexOutOfBounds 1 1)) :=
  ⟨_, _, rfl, rfl, ⟨by decide, by decide, by decide⟩, rfl⟩

end Branching

end Knapsack
