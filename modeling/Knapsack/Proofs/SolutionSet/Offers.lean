import Knapsack.Proofs.Outcome
import Knapsack.Proofs.SolutionSet.Records

/-! # Offering solutions to a set

A set takes the feasible integral solutions of its instance and refuses all others, and what it
refuses leaves no trace. After any offers, whatever the mode, the incumbent is the first of the
solutions taken that are worth the most: an improving solution is never one that is recorded
already, so the incumbent is replaced exactly when it is beaten.
-/

namespace Knapsack

variable {inst : Instance} {keepAll : Bool} {found offered : List Solution} {set : SolutionSet}
  {solution : Solution} {value : Fraction}

/-- An integral solution that keeps to the capacity and packs no item more than once. -/
structure Solution.Sound (inst : Instance) (solution : Solution) : Prop where
  light : inst.spread (·.weight) solution.amounts ≤ inst.capacity.toNat
  single : ∀ taken ∈ solution.selection, taken ≤ 1
  integral : solution.isIntegral = true

/-- Whether a solution packs a load does not depend on whether its weight can be represented. -/
theorem Solution.packs_iff_sound (about : solution.inst = inst) :
    solution.Packs inst ↔ solution.Sound inst := by
  constructor
  · intro packs
    obtain ⟨light, single⟩ := Solution.spread_weight_le_of_isFeasible packs.feasible
    exact ⟨about ▸ light, single, packs.integral⟩
  · intro sound
    apply Solution.packs_of_light about sound.integral sound.single
    have weighed := Solution.spread_amounts_eq_measureOf (·.weight) sound.integral sound.single
    have light := sound.light
    rw [← about, weighed] at light
    rw [← about]
    exact_mod_cast light

/-- The first of some solutions that are worth the most. -/
def Solution.IsFirstBest (best : Solution) (found : List Solution) : Prop :=
  ∃ before after, found = before ++ best :: after ∧
    (∀ earlier ∈ before, earlier.worth < best.worth) ∧
    ∀ later ∈ after, later.worth ≤ best.worth

theorem mem_of_mem_leaders (member : solution ∈ leaders found) : solution ∈ found := by
  obtain ⟨⟨leader, index⟩, listed, rfl⟩ := List.mem_map.mp member
  exact List.mem_of_getElem? (List.mem_zipIdx_iff_getElem?.mp (List.mem_filter.mp listed).1)

/-- Each leader is worth more than those before it. -/
theorem leaders_pairwise (found : List Solution) :
    (leaders found).Pairwise (·.worth < ·.worth) := by
  induction found using List.reverseRecOn with
  | nil => exact List.Pairwise.nil
  | append_singleton earlier latest ih =>
    rw [leaders_concat]
    split_ifs with leads
    · refine List.pairwise_append.mpr ⟨ih, List.pairwise_singleton _ _, ?_⟩
      intro leader member last only
      obtain rfl := List.mem_singleton.mp only
      exact Solution.leads_iff.mp leads leader (mem_of_mem_leaders member)
    · rwa [List.append_nil]

namespace SolutionSet

/-- Adding a solution that is feasible, integral and has a value is recording it, and no other one
is ever added. -/
theorem add_eq_ok_iff {result : SolutionSet × Bool} : set.add solution = .ok result ↔
    solution.isFeasible = .ok true ∧ solution.isIntegral = true ∧
      ∃ value, solution.value = .ok value ∧ set.insert solution value = result := by
  constructor
  · intro added
    obtain ⟨feasible, judged, added⟩ := bind_eq_ok.mp added
    rw [exactly_eq_ok_iff] at judged
    cases feasible with
    | false =>
      obtain ⟨_, refused, -⟩ := bind_eq_ok.mp added
      exact nomatch refused
    | true =>
      cases integral : solution.isIntegral with
      | false =>
        rw [integral] at added
        obtain ⟨_, refused, -⟩ := bind_eq_ok.mp added
        exact nomatch refused
      | true =>
        rw [integral] at added
        obtain ⟨value, worth, added⟩ := bind_eq_ok.mp added
        exact ⟨judged, rfl, value, exactly_eq_ok_iff.mp worth, Except.ok.inj added⟩
  · rintro ⟨feasible, integral, value, worth, rfl⟩
    exact add_eq ⟨rfl, feasible, integral⟩ worth

/-- A set after some solutions were offered to it one after the other, and those that it took; one
that it refuses leaves it as it is. -/
def offerAll (set : SolutionSet) : List Solution → SolutionSet × List Solution
  | [] => (set, [])
  | solution :: rest =>
    match set.add solution with
    | .ok (after, _) => ((after.offerAll rest).1, solution :: (after.offerAll rest).2)
    | .error _ => set.offerAll rest

/-- The incumbent is the first of the solutions found that are worth the most, if there are any. -/
def Crowns (found : List Solution) (set : SolutionSet) : Prop :=
  match set.best? with
  | none => found = []
  | some best => best.IsFirstBest found

theorem crowns_empty (keepAll : Bool) : Crowns [] (empty keepAll) := rfl

/-- A solution that is found becomes the incumbent when it is worth more than all before it. -/
theorem Crowns.insert (crowns : Crowns found set) (records : Records inst keepAll found set)
    (about : solution.inst = inst) (known : solution.value = .ok value) :
    Crowns (found ++ [solution]) (set.insert solution value).1 := by
  unfold Crowns best? at crowns ⊢
  rw [records.lawful.incumbent?_insert about known]
  split_ifs with improves
  · have above := (records.improves value).mp improves
    rw [← Solution.worth_eq known] at above
    exact ⟨found, [], rfl, above, by simp⟩
  · cases chosen : set.incumbent? with
    | none =>
      -- Where nothing is recorded, everything improves.
      refine absurd ?_ improves
      rw [lowerBound, bestValue?, chosen]
      exact ⟨trivial, id⟩
    | some best =>
      rw [chosen] at crowns
      obtain ⟨before, after, rfl, first, most⟩ := crowns
      have bound := not_lt.mp improves
      rw [lowerBound_eq_finite_iff.mpr ⟨best, chosen, rfl⟩,
        ← Solution.worth_eq (records.lawful.incumbent best chosen).2,
        ← Solution.worth_eq known] at bound
      refine ⟨before, after ++ [solution], by simp, first, ?_⟩
      intro later member
      rcases List.mem_append.mp member with earlier | last
      · exact most later earlier
      · exact List.mem_singleton.mp last ▸ bound

/-- What is recorded stays where it is. -/
theorem recorded_insert_prefix (set : SolutionSet) (solution : Solution) (value : Fraction) :
    set.recorded <+: (set.insert solution value).1.recorded := by
  simp only [SolutionSet.insert]
  split_ifs <;> simp

theorem recorded_offerAll_prefix (set : SolutionSet) (offered : List Solution) :
    set.recorded <+: (set.offerAll offered).1.recorded := by
  induction offered generalizing set with
  | nil => exact List.prefix_rfl
  | cons solution rest ih =>
    unfold offerAll
    cases added : set.add solution with
    | error defect => exact ih set
    | ok result =>
      obtain ⟨-, -, value, -, rfl⟩ := add_eq_ok_iff.mp added
      exact (set.recorded_insert_prefix solution value).trans (ih _)

/-- Offers keep the record and the incumbent in order. -/
theorem Records.offerAll (records : Records inst keepAll found set) (crowns : Crowns found set)
    (about : ∀ solution ∈ offered, solution.inst = inst) :
    Records inst keepAll (found ++ (set.offerAll offered).2) (set.offerAll offered).1 ∧
      Crowns (found ++ (set.offerAll offered).2) (set.offerAll offered).1 := by
  induction offered generalizing set found with
  | nil =>
    rw [SolutionSet.offerAll, List.append_nil]
    exact ⟨records, crowns⟩
  | cons solution rest ih =>
    obtain ⟨here, others⟩ := List.forall_mem_cons.mp about
    unfold SolutionSet.offerAll
    cases added : set.add solution with
    | error defect => exact ih records crowns others
    | ok result =>
      obtain ⟨feasible, integral, value, known, rfl⟩ := add_eq_ok_iff.mp added
      have next := ih (records.insert ⟨here, feasible, integral⟩ known)
        (crowns.insert records here known) others
      rwa [List.append_assoc] at next

/-- What a set takes is sound and has a value. -/
theorem sound_of_offerAll (set : SolutionSet) (about : ∀ solution ∈ offered, solution.inst = inst) :
    ∀ solution ∈ (set.offerAll offered).2,
      solution.Sound inst ∧ ∃ value, solution.value = .ok value := by
  induction offered generalizing set with
  | nil => simp [offerAll]
  | cons solution rest ih =>
    obtain ⟨here, others⟩ := List.forall_mem_cons.mp about
    unfold offerAll
    cases added : set.add solution with
    | error defect => exact ih _ others
    | ok result =>
      obtain ⟨feasible, integral, value, known, -⟩ := add_eq_ok_iff.mp added
      refine List.forall_mem_cons.mpr ⟨⟨?_, value, known⟩, ih _ others⟩
      exact (Solution.packs_iff_sound here).mp ⟨here, feasible, integral⟩

private theorem Records.add_cases (records : Records inst keepAll found set)
    (about : solution.inst = inst) :
    match set.add solution with
      | .ok (_, improves) => solution.Sound inst ∧
        (improves = true ↔ ∀ earlier ∈ found, earlier.worth < solution.worth)
      | .error _ => ¬ solution.Sound inst ∨ 2 ^ 64 ≤ inst.size := by
  cases added : set.add solution with
  | ok result =>
    obtain ⟨feasible, integral, value, known, same⟩ := add_eq_ok_iff.mp added
    have told : result.2 = decide (set.lowerBound < .finite value) :=
      same ▸ insert_improves set solution value
    refine ⟨(Solution.packs_iff_sound about).mp ⟨about, feasible, integral⟩, ?_⟩
    rw [told, decide_eq_true_iff, records.improves, Solution.worth_eq known]
  | error defect =>
    by_contra unexplained
    obtain ⟨sound, few⟩ := not_or.mp unexplained
    have packs := (Solution.packs_iff_sound about).mpr (not_not.mp sound)
    obtain ⟨value, known⟩ := packs.value_isOk (not_le.mp few)
    exact nomatch added.symm.trans (add_eq packs known)

/-- What a set makes of the solutions of an instance that are offered to it. It takes those that are
sound, unless there are more items than a machine word can count, and it tells whether one is worth
more than all that it took before. The incumbent is the first of the best that it took. Either all
that it took is recorded, without repetitions, or what was worth more than all before it; a solution
is contained when it was taken, or when it is recorded. What is recorded stays where it is. -/
theorem offers_are_recorded (about : ∀ solution ∈ offered, solution.inst = inst)
    {taken : List Solution} (reached : (empty keepAll).offerAll offered = (set, taken)) :
    (∀ next, next.inst = inst → match set.add next with
      | .ok (_, improves) => next.Sound inst ∧
        (improves = true ↔ ∀ earlier ∈ taken, earlier.worth < next.worth)
      | .error _ => ¬ next.Sound inst ∨ 2 ^ 64 ≤ inst.size) ∧
    (∀ next defect, set.add next = .error defect → set.offerAll [next] = (set, [])) ∧
    (∀ solution ∈ taken, solution.Sound inst ∧ ∃ value, solution.value = .ok value) ∧
    (match set.best? with
      | none => taken = []
      | some best => best.IsFirstBest taken) ∧
    (set.recorded = if keepAll then taken.eraseDups else leaders taken) ∧
    (keepAll = false → set.recorded.Pairwise (·.worth < ·.worth)) ∧
    (∀ solution, set.contains solution = true ↔
      ∃ other ∈ if keepAll then taken else set.recorded, other.selection = solution.selection) ∧
    ∀ more, set.recorded <+: (set.offerAll more).1.recorded := by
  obtain ⟨records, crowns⟩ :=
    (records_empty inst keepAll).offerAll (crowns_empty keepAll) about
  have sound := sound_of_offerAll (empty keepAll) about
  rw [reached, List.nil_append] at records crowns
  rw [reached] at sound
  refine ⟨fun _ same => records.add_cases same, ?_, sound, crowns, records.recorded, ?_, ?_,
    fun more => set.recorded_offerAll_prefix more⟩
  · intro next defect refused
    simp only [offerAll, refused]
  · rintro rfl
    rw [records.recorded]
    exact leaders_pairwise taken
  · intro solution
    simp only [contains, List.any_eq_true, Solution.sameSelection, beq_iff_eq]
    have recorded : set.recorded = if keepAll then taken.eraseDups else leaders taken :=
      records.recorded
    cases keepAll with
    | false => rfl
    | true => simp [recorded]

/-- The ways to pack two items of equal value, only one of which fits. -/
def rivals (first second : Bool) : Solution :=
  ⟨⟨[⟨1, 2⟩, ⟨1, 2⟩], 1⟩, [if first then 1 else 0, if second then 1 else 0], rfl⟩

/-- The first item stays the incumbent when the other one is found, and neither both of them nor the
first one again is recorded. -/
theorem offers_are_recorded_rivals : ∃ set,
    (empty true).offerAll
      [rivals true false, rivals false true, rivals true true, rivals true false] =
      (set, [rivals true false, rivals false true, rivals true false]) ∧
    set.best? = some (rivals true false) ∧
    set.recorded = [rivals true false, rivals false true, rivals true false].eraseDups ∧
    ∀ more, [rivals true false, rivals false true] <+: (set.offerAll more).1.recorded := by
  have reached : (empty true).offerAll
      [rivals true false, rivals false true, rivals true true, rivals true false] =
      (⟨true, [rivals true false, rivals false true], some ⟨rivals true false, 2⟩⟩,
        [rivals true false, rivals false true, rivals true false]) := by
    decide +kernel
  have about : ∀ solution ∈
      [rivals true false, rivals false true, rivals true true, rivals true false],
      solution.inst = (rivals true false).inst := by
    decide
  obtain ⟨-, -, -, -, recorded, -, -, stays⟩ := offers_are_recorded about reached
  exact ⟨_, reached, rfl, recorded, stays⟩

end SolutionSet

end Knapsack
