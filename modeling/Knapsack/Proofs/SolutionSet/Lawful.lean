import Knapsack.SolutionSet
import Knapsack.Proofs.Bound.Order
import Knapsack.Proofs.Solution.Total

/-! # Solution sets that hold loads

A lawful set holds feasible integral solutions of one instance, none of them better than the
incumbent, which is one of them. Then the lower bound never exceeds the optimum, and recording a
solution raises it to the value of the solution: a solution that is left out because it is recorded
already is no improvement.
-/

namespace Knapsack

variable {inst : Instance}

namespace Solution

/-- A solution of an instance that packs a load. -/
structure Packs (inst : Instance) (solution : Solution) : Prop where
  about : solution.inst = inst
  feasible : solution.isFeasible = .ok true
  integral : solution.isIntegral = true

variable {solution : Solution} {value : Fraction}

/-- The items of such a solution are a load. -/
theorem Packs.mem_loads (packs : solution.Packs inst) : solution.packedSet ∈ inst.loads :=
  packs.about ▸ packedSet_mem_loads packs.feasible packs.integral

/-- The value of such a solution is the integer that its load is worth. -/
theorem Packs.value_eq (packs : solution.Packs inst) (worth : solution.value = .ok value) :
    value = .ofNat (inst.valueOf solution.packedSet) := by
  rw [← Fraction.toRat_inj, Fraction.toRat_ofNat, ← packs.about]
  exact toRat_value packs.feasible packs.integral worth

theorem Packs.value_le_optimum (packs : solution.Packs inst) (worth : solution.value = .ok value) :
    value ≤ .ofNat inst.optimum := by
  rw [packs.value_eq worth, Fraction.le_iff_toRat, Fraction.toRat_ofNat, Fraction.toRat_ofNat]
  exact Nat.cast_le.mpr (Instance.valueOf_le_optimum packs.mem_loads)

/-- An integral solution packs a load when it keeps to the capacity and packs no item more than
once. Its weight comes out then, no matter how many items there are. -/
theorem packs_of_light (about : solution.inst = inst) (integral : solution.isIntegral = true)
    (single : ∀ taken ∈ solution.selection, taken ≤ 1)
    (light : inst.weightOf solution.packedSet ≤ inst.capacity.toNat) : solution.Packs inst := by
  have weighed := total_eq_of_integral (·.weight) integral single <| by
    have capacity : inst.capacity.toNat < 2 ^ 64 := inst.capacity.toNat_lt
    rw [Instance.weightOf] at light
    rw [about, Fraction.widthLimit_eq]
    omega
  refine ⟨about, ?_, integral⟩
  rw [isFeasible_eq weighed, Except.ok.injEq, Bool.and_eq_true, decide_eq_true_iff,
    List.all_eq_true]
  refine ⟨?_, fun taken member => decide_eq_true (single taken member)⟩
  rw [Fraction.le_iff_toRat, Fraction.toRat_ofNat, Fraction.toRat_ofNat, about]
  exact_mod_cast light

/-- The value comes out when there are not too many items. -/
theorem Packs.value_isOk (packs : solution.Packs inst) (few : inst.size < 2 ^ 64) :
    ∃ value, solution.value = .ok value := by
  have single := (spread_weight_le_of_isFeasible packs.feasible).2
  have bound := Instance.measureOf_le (·.value) solution.packedSet_subset
  refine ⟨_, total_eq_of_integral (·.value) packs.integral single ?_⟩
  rw [packs.about] at bound ⊢
  rw [Fraction.widthLimit_eq]
  omega

end Solution

namespace SolutionSet

variable {set : SolutionSet} {solution : Solution} {value : Fraction}

/-- A set of solutions of an instance that pack loads, with the best of them as the incumbent. -/
structure Lawful (inst : Instance) (set : SolutionSet) : Prop where
  packs : ∀ solution ∈ set.recorded, solution.Packs inst
  covered : ∀ solution ∈ set.recorded, ∀ value, solution.value = .ok value →
    .finite value ≤ set.lowerBound
  incumbent : ∀ best, set.incumbent? = some best →
    best.solution ∈ set.recorded ∧ best.solution.value = .ok best.value

theorem lawful_empty (inst : Instance) (keepAll : Bool) : (empty keepAll).Lawful inst where
  packs := by simp [empty]
  covered := by simp [empty]
  incumbent := by simp [empty]

/-- The incumbent is recorded and worth the lower bound. -/
theorem lowerBound_eq_finite_iff :
    set.lowerBound = .finite value ↔ ∃ best, set.incumbent? = some best ∧ best.value = value := by
  unfold lowerBound bestValue? Bound.ofValue?
  cases set.incumbent? with
  | none => simp
  | some best => simp

/-- The lower bound depends on the incumbent alone. -/
theorem lowerBound_congr {left right : SolutionSet} (same : left.incumbent? = right.incumbent?) :
    left.lowerBound = right.lowerBound := by
  rw [lowerBound, bestValue?, same, lowerBound, bestValue?]

theorem Lawful.lowerBound_le (lawful : set.Lawful inst) :
    set.lowerBound ≤ .finite (.ofNat inst.optimum) := by
  refine Bound.ofValue?_le_iff.mpr fun value present => ?_
  obtain ⟨best, chosen, rfl⟩ := Option.map_eq_some_iff.mp present
  obtain ⟨member, worth⟩ := lawful.incumbent best chosen
  exact (lawful.packs _ member).value_le_optimum worth

/-- The best value of recorded loads is an integer. -/
theorem Lawful.lowerBound_integral (lawful : set.Lawful inst)
    (known : set.lowerBound = .finite value) : value = .ofNat value.num := by
  obtain ⟨best, chosen, rfl⟩ := lowerBound_eq_finite_iff.mp known
  obtain ⟨member, worth⟩ := lawful.incumbent best chosen
  rw [(lawful.packs _ member).value_eq worth]
  rfl

theorem Lawful.lowerBound_representable (lawful : set.Lawful inst)
    (known : set.lowerBound = .finite value) : value.Representable := by
  obtain ⟨best, chosen, rfl⟩ := lowerBound_eq_finite_iff.mp known
  exact (Solution.toRat_total (lawful.incumbent best chosen).2).2

/-- A lawful set knows its solutions by what they select. -/
theorem Lawful.contains_iff (lawful : set.Lawful inst) (about : solution.inst = inst) :
    set.contains solution = true ↔ solution ∈ set.recorded := by
  constructor
  · intro present
    obtain ⟨other, member, same⟩ := List.any_eq_true.mp present
    rwa [← Solution.eq_of_selection ((lawful.packs _ member).about.trans about.symm)
      (eq_of_beq same)]
  · intro member
    exact List.any_eq_true.mpr ⟨solution, member, beq_self_eq_true _⟩

/-- What recording does: a solution that improves the incumbent is recorded and replaces it, and any
other one is recorded when all are kept and it is new. -/
theorem Lawful.insert_eq (lawful : set.Lawful inst) (about : solution.inst = inst)
    (worth : solution.value = .ok value) : set.insert solution value =
      if set.lowerBound < .finite value then
        (⟨set.keepAll, set.recorded ++ [solution], some ⟨solution, value⟩⟩, true)
      else if set.keepAll = true ∧ solution ∉ set.recorded then
        ({ set with recorded := set.recorded ++ [solution] }, false)
      else (set, false) := by
  have known := lawful.contains_iff about
  by_cases improves : set.lowerBound < .finite value
  · -- What is recorded already is no improvement.
    have fresh : ¬ set.contains solution = true := fun present =>
      not_lt.mpr (lawful.covered solution (known.mp present) value worth) improves
    simp [insert, improves, fresh]
  · cases keeps : set.keepAll with
    | false => simp [insert, improves, keeps]
    | true =>
      by_cases member : solution ∈ set.recorded
      · simp [insert, improves, keeps, known.mpr member, member]
      · simp [insert, improves, keeps, known.not.mpr member, member]

theorem insert_improves (set : SolutionSet) (solution : Solution) (value : Fraction) :
    (set.insert solution value).2 = decide (set.lowerBound < .finite value) := by
  simp only [insert]
  split_ifs <;> rfl

/-- Recording makes a solution the incumbent exactly when it improves it. -/
theorem Lawful.incumbent?_insert (lawful : set.Lawful inst) (about : solution.inst = inst)
    (worth : solution.value = .ok value) : (set.insert solution value).1.incumbent? =
      if set.lowerBound < .finite value then some ⟨solution, value⟩ else set.incumbent? := by
  rw [lawful.insert_eq about worth]
  split_ifs <;> rfl

/-- Recording a solution raises the lower bound to its value. -/
theorem Lawful.lowerBound_insert (lawful : set.Lawful inst) (packs : solution.Packs inst)
    (worth : solution.value = .ok value) :
    (set.insert solution value).1.lowerBound = max set.lowerBound (.finite value) := by
  rw [lowerBound, bestValue?, lawful.incumbent?_insert packs.about worth]
  split_ifs with improves
  · rw [max_eq_right (le_of_lt improves)]
    rfl
  · rw [max_eq_left (not_lt.mp improves)]
    rfl

theorem mem_recorded_insert {other : Solution}
    (member : other ∈ (set.insert solution value).1.recorded) :
    other ∈ set.recorded ∨ other = solution := by
  simp only [insert] at member
  split_ifs at member
  · exact Or.inl member
  · exact Or.inl member
  · simpa using member
  · simpa using member

/-- Recording keeps a set lawful. -/
theorem Lawful.insert (lawful : set.Lawful inst) (packs : solution.Packs inst)
    (worth : solution.value = .ok value) : (set.insert solution value).1.Lawful inst where
  packs := by
    intro other member
    rcases mem_recorded_insert member with before | rfl
    · exact lawful.packs other before
    · exact packs
  covered := by
    intro other member amount worth'
    rw [lawful.lowerBound_insert packs worth]
    rcases mem_recorded_insert member with before | rfl
    · exact le_trans (lawful.covered other before amount worth') (le_max_left _ _)
    · obtain rfl := Except.ok.inj (worth.symm.trans worth')
      exact le_max_right _ _
  incumbent := by
    intro best chosen
    rw [lawful.insert_eq packs.about worth] at chosen ⊢
    split_ifs at chosen ⊢ with improves new
    · obtain rfl := Option.some.inj chosen
      exact ⟨List.mem_append_right _ (List.mem_singleton_self _), worth⟩
    · obtain ⟨member, known⟩ := lawful.incumbent best chosen
      exact ⟨List.mem_append_left _ member, known⟩
    · exact lawful.incumbent best chosen

/-- Adding a solution that packs a load is recording it. -/
theorem add_eq (packs : solution.Packs inst) (worth : solution.value = .ok value) :
    set.add solution = .ok (set.insert solution value) := by
  simp only [add, packs.feasible, packs.integral, worth, exactly, Except.mapError, bind,
    Except.bind, pure, Except.pure]
  rfl

/-- What does not pack a load, or has no value, is refused by every set for the same reason. -/
theorem add_refused (about : solution.inst = inst)
    (unfit : ∀ value, solution.Packs inst → solution.value ≠ .ok value) :
    ∃ defect, ∀ set : SolutionSet, set.add solution = .error defect := by
  unfold add
  cases judged : solution.isFeasible with
  | error fault => exact ⟨_, fun _ => rfl⟩
  | ok feasible =>
    cases feasible with
    | false => exact ⟨_, fun _ => rfl⟩
    | true =>
      cases integral : solution.isIntegral with
      | false => exact ⟨_, fun _ => rfl⟩
      | true =>
        cases worth : solution.value with
        | ok value => exact absurd worth (unfit value ⟨about, judged, integral⟩)
        | error fault => exact ⟨_, fun _ => rfl⟩

end SolutionSet

end Knapsack
