import Knapsack.Proofs.SolutionSet.Lawful

/-! # What a solution set records

A set that keeps all solutions records those that were found, in the order of their discovery and
without repetitions. One that keeps improvements only records those that are worth more than all
found before.
-/

namespace Knapsack

/-- What a solution is worth, as a bound. -/
def Solution.worth (solution : Solution) : Bound := .ofValue? solution.value.toOption

theorem Solution.worth_eq {solution : Solution} {value : Fraction}
    (known : solution.value = .ok value) : solution.worth = .finite value := by
  rw [worth, known]
  rfl

/-- Whether a solution is worth more than all of some others. -/
def Solution.leads (solution : Solution) (others : List Solution) : Bool :=
  others.all (·.worth < solution.worth)

theorem Solution.leads_iff {solution : Solution} {others : List Solution} :
    solution.leads others = true ↔ ∀ other ∈ others, other.worth < solution.worth := by
  simp [leads]

/-- The solutions that are worth more than all that come before them. -/
def leaders (found : List Solution) : List Solution :=
  (found.zipIdx.filter fun entry => entry.1.leads (found.take entry.2)).map (·.1)

section Lists

variable (found : List Solution) (solution : Solution)

theorem leaders_concat : leaders (found ++ [solution]) =
    leaders found ++ if solution.leads found then [solution] else [] := by
  have earlier : (found.zipIdx.filter fun entry =>
      entry.1.leads ((found ++ [solution]).take entry.2)) =
      found.zipIdx.filter fun entry => entry.1.leads (found.take entry.2) := by
    apply List.filter_congr
    rintro ⟨other, index⟩ member
    have within : index ≤ found.length :=
      (List.getElem?_eq_some_iff.mp (List.mem_zipIdx_iff_getElem?.mp member)).1.le
    rw [List.take_append_of_le_length within]
  rw [leaders, List.zipIdx_append, List.filter_append, List.map_append, earlier, leaders]
  congr 1
  rw [List.zipIdx_singleton, List.filter_singleton, Nat.zero_add, List.take_left]
  cases solution.leads found <;> rfl

theorem eraseDups_concat : (found ++ [solution]).eraseDups =
    found.eraseDups ++ if solution ∈ found then [] else [solution] := by
  rw [List.eraseDups_append]
  split_ifs with member
  · simp [List.removeAll, member]
  · simp [List.removeAll, member, List.eraseDups_cons]

/-- A solution that is found again does not lead. -/
theorem leaders_eraseDups : leaders found.eraseDups = leaders found := by
  induction found using List.reverseRecOn with
  | nil => rfl
  | append_singleton earlier latest ih =>
    have same : latest.leads earlier.eraseDups = latest.leads earlier := by
      rw [Bool.eq_iff_iff, Solution.leads_iff, Solution.leads_iff]
      simp only [List.mem_eraseDups]
    rw [eraseDups_concat, leaders_concat]
    split_ifs with member leads leads
    · exact absurd (Solution.leads_iff.mp leads latest member) (lt_irrefl _)
    · rw [List.append_nil, List.append_nil, ih]
    · rw [leaders_concat, ih, same, if_pos leads]
    · rw [leaders_concat, ih, same, if_neg leads]

end Lists

namespace SolutionSet

variable {inst : Instance} {keepAll : Bool} {found : List Solution} {set : SolutionSet}
  {solution : Solution} {value : Fraction}

/-- A set after some solutions were found: the incumbent is worth the best of them, and what is
recorded is told by the mode. -/
structure Records (inst : Instance) (keepAll : Bool) (found : List Solution) (set : SolutionSet) :
    Prop where
  lawful : set.Lawful inst
  mode : set.keepAll = keepAll
  improves : ∀ value, set.lowerBound < .finite value ↔ ∀ other ∈ found, other.worth < .finite value
  recorded : set.recorded = if keepAll then found.eraseDups else leaders found

theorem records_empty (inst : Instance) (keepAll : Bool) :
    Records inst keepAll [] (empty keepAll) where
  lawful := lawful_empty inst keepAll
  mode := rfl
  improves := by
    intro value
    have least : (empty keepAll).lowerBound < .finite value := ⟨trivial, id⟩
    simp [least]
  recorded := by cases keepAll <;> rfl

private theorem Records.recorded_insert (records : Records inst keepAll found set)
    (about : solution.inst = inst) (known : solution.value = .ok value) :
    (set.insert solution value).1.recorded =
      if keepAll then (found ++ [solution]).eraseDups else leaders (found ++ [solution]) := by
  have leads : set.lowerBound < .finite value ↔ solution.leads found = true := by
    rw [records.improves, Solution.leads_iff, Solution.worth_eq known]
  have member : solution.leads found = true → solution ∉ found := fun above listed =>
    lt_irrefl _ (Solution.leads_iff.mp above solution listed)
  rw [records.lawful.insert_eq about known, eraseDups_concat, leaders_concat, records.mode]
  have recorded := records.recorded
  cases keepAll with
  | false =>
    simp only [leads, Bool.false_eq_true, false_and, if_false] at recorded ⊢
    split_ifs <;> simp [recorded]
  | true =>
    simp only [leads, if_true, true_and] at recorded ⊢
    by_cases above : solution.leads found = true
    · simp [above, member above, recorded]
    · by_cases again : solution ∈ found
      · simp [above, again, recorded]
      · simp [above, again, recorded]

/-- Recording a solution is finding it. -/
theorem Records.insert (records : Records inst keepAll found set) (packs : solution.Packs inst)
    (known : solution.value = .ok value) :
    Records inst keepAll (found ++ [solution]) (set.insert solution value).1 where
  lawful := records.lawful.insert packs known
  mode := by
    rw [records.lawful.insert_eq packs.about known]
    split_ifs <;> exact records.mode
  improves := by
    intro other
    rw [records.lawful.lowerBound_insert packs known, max_lt_iff, records.improves,
      List.forall_mem_append, List.forall_mem_singleton, Solution.worth_eq known]
  recorded := records.recorded_insert packs.about known

end SolutionSet

end Knapsack
