import Knapsack.Branching
import Knapsack.Proofs.Node.Drawn
import Knapsack.Proofs.Outcome

/-! # Splitting a fractional node

Both rules choose an item that the relaxed solution cuts, if there is one. Such an item is open when
the fixation reaches it, so the rules then yield the two fixations that decide it, which share out
what the node allows. That holds for nodes of any relaxation, as long as the parts are not too fine
to be compared with one half.
-/

namespace Knapsack

namespace Node

variable {inst : Instance} {node : Node}

/-- A node whose relaxed solution keeps what is fixed, with amounts that can be compared with one
half. -/
structure Coherent (node : Node) : Prop where
  kept : node.fixation.keptBy node.relaxed.selection = true
  single : ∀ taken ∈ node.relaxed.selection, taken ≤ 1
  narrow : ∀ taken ∈ node.relaxed.selection, taken.den < 2 ^ 127

/-- Only open items are cut. -/
theorem Coherent.isOpen_of_fractional (coherent : node.Coherent) {index : ℕ}
    (fractional : index ∈ node.relaxed.fractionalIndices) (within : index < node.fixation.length) :
    node.fixation.get? index = some none := by
  obtain ⟨taken, present, cut⟩ := Solution.mem_indicesWhere.mp fractional
  cases decided : node.fixation.decisions[index] with
  | none => exact List.getElem?_eq_some_iff.mpr ⟨within, decided⟩
  | some decision =>
    have fixed := List.getElem?_eq_some_iff.mpr ⟨within, decided⟩
    obtain rfl := Fixation.keptBy_iff_forall.mp coherent.kept index decision taken fixed present
    cases decision <;> exact nomatch cut

theorem Drawn.coherent (drawn : node.Drawn inst) : node.Coherent := by
  obtain ⟨parts, positive, small, parted⟩ := drawn.parted
  refine ⟨drawn.kept, drawn.single, fun taken member => ?_⟩
  have divides := Nat.le_of_dvd positive (parted taken member).2
  omega

end Node

namespace Branching

variable {inst : Instance} {node : Node}

/-- A rule that yields, for a drawn node whose relaxed solution is fractional, the two ways to
decide one open item. -/
def Halves (branching : Branching) (inst : Instance) : Prop :=
  ∀ call node, node.Drawn inst → node.relaxed.isIntegral = false → ∃ index,
    node.fixation.get? index = some none ∧ branching call node =
      .ok [node.fixation.decided index false, node.fixation.decided index true]

/-- A rule that decides one of the cut items in both ways, if there is one. -/
structure Splits (branching : Branching) : Prop where
  whole : ∀ call node, node.Coherent → node.relaxed.isIntegral = true → branching call node = .ok []
  cut : ∀ call node, node.Coherent → node.relaxed.isIntegral = false →
    ∃ index ∈ node.relaxed.fractionalIndices, branching call node = both node.fixation index

/-- A rule that never yields more than two children. -/
def Binary (branching : Branching) : Prop :=
  ∀ call node fixations, branching call node = .ok fixations → fixations.length ≤ 2

private theorem length_onChoice {choice? : Option ℕ} {fixations : List Fixation}
    (outcome : onChoice node choice? = .ok fixations) : fixations.length ≤ 2 := by
  cases choice? with
  | none =>
    cases outcome
    exact Nat.zero_le 2
  | some index =>
    obtain ⟨⟨left, right⟩, -, yields⟩ := bind_eq_ok.mp outcome
    cases yields
    exact le_rfl

theorem binary_firstFractional : firstFractional.Binary := fun _ _ _ => length_onChoice

theorem binary_mostFractional : mostFractional.Binary := by
  intro call node fixations outcome
  obtain ⟨pairs, -, chosen⟩ := bind_eq_ok.mp outcome
  exact length_onChoice chosen

/-- A fractional solution cuts some item. -/
theorem fractionalIndices_ne_nil {solution : Solution} (fractional : solution.isIntegral = false) :
    solution.fractionalIndices ≠ [] := by
  obtain ⟨taken, member, cut⟩ := List.all_eq_false.mp fractional
  obtain ⟨index, present⟩ := List.mem_iff_getElem?.mp member
  have listed : index ∈ solution.fractionalIndices :=
    Solution.mem_indicesWhere.mpr ⟨taken, present, by simpa using cut⟩
  exact List.ne_nil_of_mem listed

variable {fixation : Fixation} {index : ℕ}

theorem both_eq_ok (undecided : fixation.get? index = some none) :
    both fixation index = .ok [fixation.decided index false, fixation.decided index true] := by
  simp only [both, Fixation.split_eq undecided, Failure.ofError, Except.mapError, bind, Except.bind,
    pure, Except.pure]

/-- An item that the fixation does not reach is refused. -/
theorem both_eq_error (beyond : fixation.length ≤ index) :
    both fixation index = .error (.error (.indexOutOfBounds index fixation.length)) := by
  have absent : fixation.get? index = none := List.getElem?_eq_none beyond
  simp [both, Fixation.split, Fixation.fix, absent, Failure.ofError, Except.mapError, bind,
    Except.bind]

theorem Splits.halves {branching : Branching} (splits : branching.Splits) (inst : Instance) :
    branching.Halves inst := by
  intro call node drawn fractional
  obtain ⟨index, listed, yields⟩ := splits.cut call node drawn.coherent fractional
  have undecided := drawn.isOpen_of_fractional listed
  exact ⟨index, undecided, yields.trans (both_eq_ok undecided)⟩

theorem splits_firstFractional : firstFractional.Splits where
  whole := by
    intro call node _ integral
    rw [firstFractional, Solution.fractionalIndices_eq_nil integral]
    rfl
  cut := by
    intro call node _ fractional
    obtain ⟨index, rest, listed⟩ := List.exists_cons_of_ne_nil (fractionalIndices_ne_nil fractional)
    refine ⟨index, listed ▸ List.mem_cons_self .., ?_⟩
    rw [firstFractional, listed]
    rfl

theorem halves_firstFractional (inst : Instance) : firstFractional.Halves inst :=
  splits_firstFractional.halves inst

private theorem distance_half_isOk {taken : Fraction} (small : taken ≤ 1)
    (narrow : taken.den < 2 ^ 127) : ∃ distance, taken.distance .half = .ok distance := by
  have positive : 0 < taken.den * 2 := Nat.mul_pos (Nat.pos_of_ne_zero taken.den_ne_zero) two_pos
  have wide : taken.den * 2 ≤ Fraction.widthLimit := by rw [Fraction.widthLimit_eq]; omega
  have limit : ((taken.den * 2 : ℕ) : ℚ) ≤ Fraction.widthLimit := by exact_mod_cast wide
  have left : taken.den ∣ taken.den * 2 := Nat.dvd_mul_right ..
  have right : Fraction.half.den ∣ taken.den * 2 := Nat.dvd_mul_left ..
  have fits : ∀ {a : Fraction}, a ≤ 1 → a.toRat * (taken.den * 2 : ℕ) ≤ Fraction.widthLimit := by
    intro a bound
    rw [Fraction.le_iff_toRat, Fraction.toRat_one] at bound
    exact (mul_le_of_le_one_left (Nat.cast_nonneg _) bound).trans limit
  unfold Fraction.distance
  split_ifs with above
  · exact Fraction.sub_isOk above positive wide left right (fits small)
  · have below : taken ≤ .half := by
      rw [Fraction.le_iff_toRat] at above ⊢
      exact (not_le.mp above).le
    exact Fraction.sub_isOk below positive wide right left
      (fits (show Fraction.half ≤ 1 by decide))

private theorem distances_isOk (coherent : node.Coherent) :
    ∃ pairs, distances node.relaxed = .ok pairs ∧
      pairs.map (·.1) = node.relaxed.fractionalIndices := by
  obtain ⟨pairs, outcome, matched⟩ := exists_mapM_ok node.relaxed.fractionalIndices
      (fun index => do
        let distance ← exactly ((node.relaxed.selection[index]?.getD 0).distance .half)
        return (index, distance))
      (fun index pair => index = pair.1) <| by
    intro index member
    obtain ⟨taken, present, -⟩ := Solution.mem_indicesWhere.mp member
    have listed := List.mem_of_getElem? present
    obtain ⟨distance, measured⟩ :=
      distance_half_isOk (coherent.single taken listed) (coherent.narrow taken listed)
    refine ⟨(index, distance), ?_, rfl⟩
    simp only [present, Option.getD_some, measured, exactly, Except.mapError, bind, Except.bind,
      pure, Except.pure]
  refine ⟨pairs, outcome, ?_⟩
  rw [← List.forall₂_map_right_iff, List.forall₂_eq_eq_eq] at matched
  exact matched.symm

private theorem mostFractional_eq {pairs : List (ℕ × Fraction)}
    (outcome : distances node.relaxed = .ok pairs) (call : ℕ) :
    mostFractional call node = onChoice node ((nearest? pairs).map (·.1)) := by
  simp only [mostFractional, outcome, Failure.ofDefect, Except.mapError, bind, Except.bind]

private theorem nearest?_mem {pairs : List (ℕ × Fraction)} (present : pairs ≠ []) :
    ∃ pair ∈ pairs, nearest? pairs = some pair := by
  induction pairs with
  | nil => exact absurd rfl present
  | cons pair rest ih =>
    cases rest with
    | nil => exact ⟨pair, List.mem_cons_self .., rfl⟩
    | cons next others =>
      obtain ⟨other, member, chosen⟩ := ih (List.cons_ne_nil _ _)
      rw [nearest?, chosen]
      by_cases closer : other.2 < pair.2
      · exact ⟨other, List.mem_cons_of_mem _ member, if_pos closer⟩
      · exact ⟨pair, List.mem_cons_self .., if_neg closer⟩

theorem splits_mostFractional : mostFractional.Splits where
  whole := by
    intro call node coherent integral
    obtain ⟨pairs, outcome, indices⟩ := distances_isOk coherent
    rw [Solution.fractionalIndices_eq_nil integral, List.map_eq_nil_iff] at indices
    rw [mostFractional_eq outcome, indices]
    rfl
  cut := by
    intro call node coherent fractional
    obtain ⟨pairs, outcome, indices⟩ := distances_isOk coherent
    have present : pairs ≠ [] := by
      rintro rfl
      exact fractionalIndices_ne_nil fractional indices.symm
    obtain ⟨pair, member, nearest⟩ := nearest?_mem present
    refine ⟨pair.1, indices ▸ List.mem_map_of_mem member, ?_⟩
    rw [mostFractional_eq outcome, nearest]
    rfl

theorem halves_mostFractional (inst : Instance) : mostFractional.Halves inst :=
  splits_mostFractional.halves inst

/-- A drawn node has at most one cut item, so both rules choose the same. -/
theorem firstFractional_eq_mostFractional (drawn : node.Drawn inst) (call : ℕ) :
    firstFractional call node = mostFractional call node := by
  obtain ⟨pairs, outcome, indices⟩ := distances_isOk drawn.coherent
  rw [mostFractional_eq outcome, firstFractional]
  congr 1
  cases pairs with
  | nil => rw [← indices]; rfl
  | cons pair rest =>
    obtain ⟨nearest, member, chosen⟩ := nearest?_mem (List.cons_ne_nil pair rest)
    have listed : nearest.1 ∈ node.relaxed.fractionalIndices :=
      indices ▸ List.mem_map_of_mem member
    have first : pair.1 ∈ node.relaxed.fractionalIndices := by simp [← indices]
    rw [chosen, ← indices, List.map_cons, List.head?_cons, Option.map_some,
      drawn.fractional_unique first listed]

end Branching

end Knapsack
