import Knapsack.Node.Tree
import Knapsack.Proofs.Fixation.Split
import Knapsack.Proofs.Relaxation.Pour

/-! # The greedy relaxation solves the linear relaxation

Amounts that keep a fixation measure what is fixed plus what they take of the open items, so pouring
the open items into the room that the fixed ones leave is the best that such amounts can do. A load
that a fixation allows is never worth more than the relaxed solution, and neither is the relaxed
solution of a more constrained fixation.
-/

namespace Knapsack

namespace Fixation

variable {fixation : Fixation} {index : ℕ}

/-- The items that a fixation packs. -/
def packedBy (fixation : Fixation) : Finset ℕ :=
  Instance.marked (fixation.decisions.map (· == some true))

theorem mem_packedBy : index ∈ fixation.packedBy ↔ fixation.get? index = some (some true) := by
  rw [packedBy, Instance.mem_marked, List.getElem?_map, get?]
  cases fixation.decisions[index]? with
  | none => simp
  | some decision => simp

/-- Amounts that take nothing of what is left out, and all of what is packed. -/
def Keeps (fixation : Fixation) (amounts : ℕ → ℚ) : Prop :=
  ∀ index decision, fixation.get? index = some (some decision) →
    amounts index = (Fraction.ofDecision decision).toRat

/-- Only the items that both the fixation and the selection reach are looked at. -/
theorem keptBy_iff_forall {selection : List Fraction} :
    fixation.keptBy selection = true ↔ ∀ index decision taken,
      fixation.get? index = some (some decision) → selection[index]? = some taken →
        Fraction.ofDecision decision = taken := by
  simp only [keptBy, List.all_eq_true, Prod.forall, List.mem_iff_getElem?,
    List.getElem?_zip_eq_some, get?]
  constructor
  · intro kept index decision taken fixed present
    have same := kept _ _ ⟨index, fixed, present⟩
    rwa [Option.all_some, beq_iff_eq] at same
  · rintro kept decision taken ⟨index, fixed, present⟩
    cases decision with
    | none => rfl
    | some decision =>
      rw [Option.all_some, beq_iff_eq]
      exact kept index decision taken fixed present

theorem keptBy_iff {selection : List Fraction} (covers : selection.length = fixation.length) :
    fixation.keptBy selection = true ↔ ∀ index decision,
      fixation.get? index = some (some decision) →
        selection[index]? = some (Fraction.ofDecision decision) := by
  rw [keptBy_iff_forall]
  constructor
  · intro kept index decision fixed
    obtain ⟨bound, -⟩ := List.getElem?_eq_some_iff.mp fixed
    obtain ⟨taken, present⟩ : ∃ taken, selection[index]? = some taken :=
      ⟨_, List.getElem?_eq_getElem (covers ▸ bound)⟩
    rw [present, kept index decision taken fixed present]
  · intro kept index decision taken fixed present
    exact Option.some.inj ((kept index decision fixed).symm.trans present)

/-- A selection that keeps a fixation has amounts that keep it. -/
theorem keeps_amountsOf {selection : List Fraction} (covers : selection.length = fixation.length)
    (kept : fixation.keptBy selection = true) : fixation.Keeps (Solution.amountsOf selection) := by
  intro index decision fixed
  rw [Solution.amountsOf, (keptBy_iff covers).mp kept index decision fixed, Option.getD_some]

/-- The items of an allowed set keep the fixation when they are packed entirely. -/
theorem keeps_whole {chosen : Finset ℕ} (allowed : fixation.allows chosen = true) :
    fixation.Keeps (Instance.whole chosen) := by
  intro index decision fixed
  have agrees := allows_iff.mp allowed index decision fixed
  unfold Instance.whole Fraction.ofDecision
  simp only [← agrees]
  cases decision <;> simp

theorem Keeps.of_refines {child parent : Fixation} {amounts : ℕ → ℚ} (keeps : child.Keeps amounts)
    (refines : child.refines parent = true) : parent.Keeps amounts :=
  fun index decision fixed => keeps index decision (get?_of_refines refines fixed)

end Fixation

namespace Relaxation

variable {inst : Instance} {fixation : Fixation}

/-- What is fixed weighs what the packed items weigh. -/
theorem fixedWeight_eq (covers : fixation.length = inst.size) :
    fixedWeight inst fixation = inst.weightOf fixation.packedBy := by
  apply Instance.markedWeight_eq
  rw [List.length_map]
  exact covers

/-- The weight of the fixed items fits in 128 bits unless there are too many. -/
theorem fixedWeight_le_widthLimit (few : inst.size < 2 ^ 64)
    (covers : fixation.length = inst.size) : fixedWeight inst fixation ≤ Fraction.widthLimit := by
  apply Instance.markedWeight_le_widthLimit few
  rw [List.length_map]
  exact covers

theorem openIndices_lt_size (covers : fixation.length = inst.size) :
    ∀ index ∈ fixation.openIndices, index < inst.size := fun _ member =>
  covers ▸ Fixation.lt_length_of_mem_openIndices member

theorem valid_openIndices (covers : fixation.length = inst.size) :
    inst.valid fixation.openIndices = true := Instance.valid_iff.mpr (openIndices_lt_size covers)

/-- The open items can be ordered by density. -/
theorem densityOrder?_isSome (covers : fixation.length = inst.size) :
    (inst.densityOrder? fixation.openIndices).isSome = true := by
  rw [Instance.densityOrder?_eq (openIndices_lt_size covers), Option.isSome_some]

theorem lists_byDensity (inst : Instance) (indices : List ℕ) :
    Lists inst (inst.byDensity indices) := fun _ member => (Instance.mem_byDensity member).2

private theorem listed_byDensity (measure : Item → UInt32) (covers : fixation.length = inst.size)
    (amounts : ℕ → ℚ) :
    listed inst measure (inst.byDensity fixation.openIndices) amounts =
      ∑ index ∈ fixation.openIndices.toFinset, amounts index * inst.measureAt measure index := by
  rw [List.sum_toFinset _ fixation.nodup_openIndices]
  have perm := Instance.map_index_byDensity_perm (openIndices_lt_size covers)
  have sums := (perm.map fun index => amounts index * (inst.measureAt measure index : ℚ)).sum_eq
  rwa [List.map_map] at sums

/-- Amounts that keep a fixation measure what is packed and what they take of the open items. -/
theorem spread_of_keeps (measure : Item → UInt32) (covers : fixation.length = inst.size)
    {amounts : ℕ → ℚ} (keeps : fixation.Keeps amounts) :
    inst.spread measure amounts = inst.measureOf measure fixation.packedBy +
      listed inst measure (inst.byDensity fixation.openIndices) amounts := by
  have packed : fixation.packedBy ⊆ Finset.range inst.size :=
    Instance.marked_subset (by rw [List.length_map]; exact covers)
  have isOpen : fixation.openIndices.toFinset ⊆ Finset.range inst.size := fun index member =>
    Finset.mem_range.mpr (openIndices_lt_size covers index (List.mem_toFinset.mp member))
  rw [listed_byDensity measure covers, Instance.measureOf, Instance.spread, Nat.cast_sum,
    ← Finset.inter_eq_right.mpr packed, ← Finset.sum_ite_mem,
    ← Finset.inter_eq_right.mpr isOpen, ← Finset.sum_ite_mem, ← Finset.sum_add_distrib]
  apply Finset.sum_congr rfl
  intro index member
  have bound : index < fixation.decisions.length :=
    lt_of_lt_of_eq (Finset.mem_range.mp member) covers.symm
  have present : fixation.get? index = some fixation.decisions[index] :=
    List.getElem?_eq_getElem bound
  simp only [Fixation.mem_packedBy, List.mem_toFinset, Fixation.mem_openIndices]
  cases decided : fixation.decisions[index] with
  | none => simp [present, decided]
  | some decision =>
    rw [keeps index decision (by rw [present, decided])]
    cases decision <;> simp [present, decided, Fraction.ofDecision]

section Place

variable {selection : List Fraction} {amounts : List (ℕ × Fraction)}

theorem length_place (selection : List Fraction) (amounts : List (ℕ × Fraction)) :
    (place selection amounts).length = selection.length := by
  induction amounts generalizing selection with
  | nil => rfl
  | cons amount rest ih => exact (ih _).trans List.length_set

/-- What is placed elsewhere leaves an entry as it is. -/
theorem getElem?_place {index : ℕ} (apart : index ∉ amounts.map (·.1)) :
    (place selection amounts)[index]? = selection[index]? := by
  induction amounts generalizing selection with
  | nil => rfl
  | cons amount rest ih =>
    rw [List.map_cons, List.mem_cons, not_or] at apart
    exact (ih apart.2).trans (List.getElem?_set_ne (Ne.symm apart.1))

/-- Every entry was there before or was placed. -/
theorem of_getElem?_place {index : ℕ} {taken : Fraction}
    (present : (place selection amounts)[index]? = some taken) :
    selection[index]? = some taken ∨ (index, taken) ∈ amounts := by
  induction amounts generalizing selection with
  | nil => exact Or.inl present
  | cons amount rest ih =>
    rcases ih present with before | listed
    · by_cases same : amount.1 = index
      · subst same
        obtain ⟨bound, placed⟩ := List.getElem?_eq_some_iff.mp before
        rw [List.getElem_set_self] at placed
        exact Or.inr (placed ▸ List.mem_cons_self ..)
      · rw [List.getElem?_set_ne same] at before
        exact Or.inl before
    · exact Or.inr (List.mem_cons_of_mem _ listed)

theorem mem_place {taken : Fraction} (member : taken ∈ place selection amounts) :
    taken ∈ selection ∨ ∃ amount ∈ amounts, amount.2 = taken := by
  obtain ⟨index, present⟩ := List.mem_iff_getElem?.mp member
  rcases of_getElem?_place present with before | placed
  · exact Or.inl (List.mem_of_getElem? before)
  · exact Or.inr ⟨_, placed, rfl⟩

private theorem spread_set (measure : Item → UInt32) {index : ℕ} (amount : Fraction)
    (covers : selection.length = inst.size) (bound : index < inst.size)
    (vacant : Solution.amountsOf selection index = 0) :
    inst.spread measure (Solution.amountsOf (selection.set index amount)) =
      inst.spread measure (Solution.amountsOf selection) +
        amount.toRat * inst.measureAt measure index := by
  have split : ∀ position, Solution.amountsOf (selection.set index amount) position =
      Solution.amountsOf selection position + if index = position then amount.toRat else 0 := by
    intro position
    by_cases same : index = position
    · subst same
      rw [vacant, Solution.amountsOf, List.getElem?_set_self (covers ▸ bound)]
      simp
    · rw [Solution.amountsOf, List.getElem?_set_ne same, if_neg same, add_zero]
      rfl
  simp only [Instance.spread, split, add_mul, ite_mul, zero_mul, Finset.sum_add_distrib]
  rw [Finset.sum_ite_eq, if_pos (Finset.mem_range.mpr bound)]

/-- Placing amounts where nothing was adds what they measure. -/
theorem spread_place (measure : Item → UInt32) (covers : selection.length = inst.size)
    (single : (amounts.map (·.1)).Nodup) (valid : ∀ amount ∈ amounts, amount.1 < inst.size)
    (vacant : ∀ amount ∈ amounts, Solution.amountsOf selection amount.1 = 0) :
    inst.spread measure (Solution.amountsOf (place selection amounts)) =
      inst.spread measure (Solution.amountsOf selection) + poured inst measure amounts := by
  induction amounts generalizing selection with
  | nil => simp [place, poured]
  | cons amount rest ih =>
    rw [List.map_cons, List.nodup_cons] at single
    have bound := valid amount (List.mem_cons_self ..)
    have others : ∀ other ∈ rest,
        Solution.amountsOf (selection.set amount.1 amount.2) other.1 = 0 := by
      intro other member
      have apart : amount.1 ≠ other.1 := fun same =>
        single.1 (same ▸ List.mem_map_of_mem member)
      rw [Solution.amountsOf, List.getElem?_set_ne apart]
      exact vacant other (List.mem_cons_of_mem _ member)
    have step := ih (List.length_set.trans covers) single.2
      (fun other member => valid other (List.mem_cons_of_mem _ member)) others
    rw [spread_set measure _ covers bound (vacant amount (List.mem_cons_self ..))] at step
    rw [show place selection (amount :: rest) = place (selection.set amount.1 amount.2) rest from
      rfl, step, poured, poured, List.map_cons, List.sum_cons, add_assoc]

end Place

section Selection

theorem length_fixedPart (fixation : Fixation) :
    (fixedPart fixation).length = fixation.length := List.length_map _

theorem length_greedySelection (inst : Instance) (fixation : Fixation) :
    (greedySelection inst fixation).length = fixation.length := by
  simp only [greedySelection]
  split_ifs
  · rw [length_place, length_fixedPart]
  · exact length_fixedPart fixation

theorem getElem?_fixedPart {index : ℕ} {decision : Option Bool}
    (present : fixation.get? index = some decision) :
    (fixedPart fixation)[index]? = some (.ofDecision (decision.getD false)) := by
  rw [fixedPart, List.getElem?_map, ← Fixation.get?, present, Option.map_some]

theorem mem_fixedPart {taken : Fraction} (member : taken ∈ fixedPart fixation) :
    taken = 0 ∨ taken = 1 := by
  obtain ⟨decision, -, rfl⟩ := List.mem_map.mp member
  cases decision.getD false with
  | false => exact Or.inl rfl
  | true => exact Or.inr rfl

private theorem keeps_fixedPart (fixation : Fixation) :
    fixation.Keeps (Solution.amountsOf (fixedPart fixation)) := by
  intro index decision fixed
  rw [Solution.amountsOf, getElem?_fixedPart fixed]
  rfl

private theorem amountsOf_fixedPart {index : ℕ} (member : index ∈ fixation.openIndices) :
    Solution.amountsOf (fixedPart fixation) index = 0 := by
  rw [Solution.amountsOf, getElem?_fixedPart (Fixation.mem_openIndices.mp member)]
  exact Fraction.toRat_zero

/-- The fixed part measures what the packed items measure. -/
theorem spread_fixedPart (measure : Item → UInt32) (covers : fixation.length = inst.size) :
    inst.spread measure (Solution.amountsOf (fixedPart fixation)) =
      inst.measureOf measure fixation.packedBy := by
  have vacant : listed inst measure (inst.byDensity fixation.openIndices)
      (Solution.amountsOf (fixedPart fixation)) = 0 := by
    apply List.sum_eq_zero
    intro part member
    obtain ⟨entry, listed, rfl⟩ := List.mem_map.mp member
    rw [amountsOf_fixedPart (Instance.mem_byDensity listed).1, zero_mul]
  rw [spread_of_keeps measure covers (keeps_fixedPart fixation), vacant, add_zero]

private theorem pour_index {room : ℕ} {amount : ℕ × Fraction}
    (member : amount ∈ pour room (inst.byDensity fixation.openIndices)) :
    amount.1 ∈ fixation.openIndices := by
  have listed := (pour_sublist _ _).subset (List.mem_map_of_mem (f := (·.1)) member)
  obtain ⟨entry, present, same⟩ := List.mem_map.mp listed
  exact same ▸ (Instance.mem_byDensity present).1

/-- While the fixed items fit, the relaxed solution measures what they and the poured ones do. -/
theorem spread_greedySelection (measure : Item → UInt32) (covers : fixation.length = inst.size)
    (fits : fixedWeight inst fixation ≤ inst.capacity.toNat) :
    inst.spread measure (Solution.amountsOf (greedySelection inst fixation)) =
      inst.measureOf measure fixation.packedBy +
        poured inst measure (pour (inst.capacity.toNat - fixedWeight inst fixation)
          (inst.byDensity fixation.openIndices)) := by
  have perm := Instance.map_index_byDensity_perm (openIndices_lt_size covers)
  have single : ((pour (inst.capacity.toNat - fixedWeight inst fixation)
      (inst.byDensity fixation.openIndices)).map (·.1)).Nodup :=
    (pour_sublist _ _).nodup (perm.nodup_iff.mpr fixation.nodup_openIndices)
  rw [show greedySelection inst fixation = _ from if_pos fits,
    spread_place measure ((length_fixedPart fixation).trans covers) single
      (fun _ member => openIndices_lt_size covers _ (pour_index member))
      (fun _ member => amountsOf_fixedPart (pour_index member)), spread_fixedPart measure covers]

/-- The relaxed solution does not alter what is fixed. -/
theorem keptBy_greedySelection (inst : Instance) (fixation : Fixation) :
    fixation.keptBy (greedySelection inst fixation) = true := by
  apply (Fixation.keptBy_iff (length_greedySelection inst fixation)).mpr
  intro index decision fixed
  have kept : (fixedPart fixation)[index]? = some (.ofDecision decision) :=
    getElem?_fixedPart fixed
  simp only [greedySelection]
  split_ifs
  · rw [getElem?_place, kept]
    intro poured
    obtain ⟨amount, member, rfl⟩ := List.mem_map.mp poured
    have isOpen := Fixation.mem_openIndices.mp (pour_index member)
    exact Option.some_ne_none _ (Option.some.inj (fixed.symm.trans isOpen))
  · exact kept

/-- The amounts of a relaxed solution are parts of an item that have a common measure of 32 bits. -/
theorem greedySelection_parted (inst : Instance) (fixation : Fixation) :
    ∃ parts : ℕ, 0 < parts ∧ parts < 2 ^ 32 ∧
      ∀ taken ∈ greedySelection inst fixation, taken ≤ 1 ∧ taken.den ∣ parts := by
  obtain ⟨parts, positive, narrow, parted⟩ :=
    pour_parted (inst.capacity.toNat - fixedWeight inst fixation)
      (inst.byDensity fixation.openIndices)
  have whole : ∀ taken ∈ fixedPart fixation, taken ≤ 1 ∧ taken.den ∣ parts := by
    intro taken member
    rcases mem_fixedPart member with rfl | rfl
    · exact ⟨show (0 : Fraction) ≤ 1 by decide, one_dvd _⟩
    · exact ⟨show (1 : Fraction) ≤ 1 by decide, one_dvd _⟩
  refine ⟨parts, positive, narrow, fun taken member => ?_⟩
  simp only [greedySelection] at member
  split_ifs at member
  · rcases mem_place member with fixed | ⟨amount, poured, rfl⟩
    · exact whole taken fixed
    · exact parted amount poured
  · exact whole taken member

/-- A fixation of the right length is solved. -/
theorem greedy_eq (covers : fixation.length = inst.size) (call : ℕ) :
    greedy call inst fixation = .ok ⟨inst, greedySelection inst fixation,
      (length_greedySelection inst fixation).trans covers⟩ := by
  have length := (length_greedySelection inst fixation).trans covers
  rw [greedy, if_pos covers, Solution.ofSelection, dif_pos length]

/-- A total of a relaxed solution is too wide only when there are too many items. -/
theorem le_size_of_total_error {relaxed : Solution} {measure : Item → UInt32}
    {fault : ArithmeticFault} (about : relaxed.inst = inst)
    (selects : relaxed.selection = greedySelection inst fixation)
    (failed : relaxed.total measure = .error fault) : 2 ^ 64 ≤ inst.size := by
  by_contra few
  obtain ⟨parts, positive, narrow, parted⟩ := greedySelection_parted inst fixation
  obtain ⟨total, known, -⟩ := Solution.total_isOk measure (about ▸ not_le.mp few) positive narrow
    (show relaxed.Parted parts from fun taken member => parted taken (selects ▸ member))
  exact nomatch known.symm.trans failed

/-- At most one entry of a relaxed solution is cut. -/
theorem greedySelection_cut_unique (inst : Instance) (fixation : Fixation) {i j : ℕ}
    {first second : Fraction} (here : (greedySelection inst fixation)[i]? = some first)
    (there : (greedySelection inst fixation)[j]? = some second)
    (cut : first.isInteger = false) (cutToo : second.isInteger = false) : i = j := by
  have whole : ∀ {taken : Fraction}, taken.isInteger = false → taken ∉ fixedPart fixation := by
    rintro taken fractional member
    rcases mem_fixedPart member with rfl | rfl <;> exact absurd fractional (by decide)
  simp only [greedySelection] at here there
  split_ifs at here there
  · have poured := (of_getElem?_place here).resolve_left fun fixed =>
      whole cut (List.mem_of_getElem? fixed)
    have pouredToo := (of_getElem?_place there).resolve_left fun fixed =>
      whole cutToo (List.mem_of_getElem? fixed)
    exact congrArg Prod.fst (pour_cut_unique _ _ poured pouredToo cut cutToo)
  · exact absurd (List.mem_of_getElem? here) (whole cut)

/-- Only open items are cut. -/
theorem isOpen_of_cut {index : ℕ} {taken : Fraction}
    (present : (greedySelection inst fixation)[index]? = some taken)
    (cut : taken.isInteger = false) : fixation.get? index = some none := by
  obtain ⟨bound, -⟩ := List.getElem?_eq_some_iff.mp present
  have within : index < fixation.decisions.length :=
    lt_of_lt_of_eq bound (length_greedySelection inst fixation)
  have decided : fixation.get? index = some fixation.decisions[index] :=
    List.getElem?_eq_getElem within
  cases decision : fixation.decisions[index] with
  | none => rw [decided, decision]
  | some packed =>
    rw [decision] at decided
    have fixed := (Fixation.keptBy_iff (length_greedySelection inst fixation)).mp
      (keptBy_greedySelection inst fixation) index packed decided
    obtain rfl := Option.some.inj (present.symm.trans fixed)
    cases packed <;> exact absurd cut (by decide)

/-- The relaxed solution fits exactly when the fixed items do. -/
theorem spread_weight_greedySelection_le (covers : fixation.length = inst.size) :
    inst.spread (·.weight) (Solution.amountsOf (greedySelection inst fixation)) ≤
        inst.capacity.toNat ↔
      inst.weightOf fixation.packedBy ≤ inst.capacity.toNat := by
  rw [← fixedWeight_eq covers]
  by_cases fits : fixedWeight inst fixation ≤ inst.capacity.toNat
  · refine iff_of_true ?_ fits
    have filled : poured inst (·.weight) (pour (inst.capacity.toNat - fixedWeight inst fixation)
        (inst.byDensity fixation.openIndices)) ≤ (inst.capacity.toNat : ℚ) -
          fixedWeight inst fixation := by
      rw [poured_weight _ (lists_byDensity inst _), ← Nat.cast_sub fits]
      exact min_le_left _ _
    rw [fixedWeight_eq covers, Instance.weightOf] at filled fits
    rw [spread_greedySelection _ covers (fixedWeight_eq covers ▸ fits), fixedWeight_eq covers,
      Instance.weightOf]
    linarith
  · rw [show greedySelection inst fixation = fixedPart fixation from if_neg fits,
      spread_fixedPart _ covers, fixedWeight_eq covers]
    exact Nat.cast_le

/-- A relaxed solution is judged to be feasible exactly when the fixed items fit. -/
theorem isFeasible_iff (covers : fixation.length = inst.size) {relaxed : Solution} {feasible : Bool}
    (about : relaxed.inst = inst) (selects : relaxed.selection = greedySelection inst fixation)
    (judged : relaxed.isFeasible = .ok feasible) :
    feasible = true ↔ inst.weightOf fixation.packedBy ≤ inst.capacity.toNat := by
  rw [← spread_weight_greedySelection_le covers, ← selects]
  constructor
  · intro isTrue
    have light := (Solution.spread_weight_le_of_isFeasible (isTrue ▸ judged)).1
    rwa [about] at light
  · intro light
    cases outcome : relaxed.weight with
    | error fault => simp [Solution.isFeasible, outcome, bind, Except.bind] at judged
    | ok weight =>
      obtain ⟨parts, -, -, parted⟩ := greedySelection_parted inst fixation
      rw [Solution.isFeasible_eq outcome] at judged
      rw [← Except.ok.inj judged, Bool.and_eq_true, decide_eq_true_iff, List.all_eq_true]
      refine ⟨?_, fun taken member => decide_eq_true (parted taken (selects ▸ member)).1⟩
      rw [Fraction.le_iff_toRat, Fraction.toRat_ofNat, (Solution.toRat_total outcome).1, about]
      exact light

/-- Amounts that keep a fixation and fit leave room for the fixed items. -/
theorem weightOf_packedBy_le (covers : fixation.length = inst.size) {amounts : ℕ → ℚ}
    (keeps : fixation.Keeps amounts) (nonneg : ∀ index < inst.size, 0 ≤ amounts index)
    (fits : inst.spread (·.weight) amounts ≤ inst.capacity.toNat) :
    inst.weightOf fixation.packedBy ≤ inst.capacity.toNat := by
  have others : 0 ≤ listed inst (·.weight) (inst.byDensity fixation.openIndices) amounts := by
    apply List.sum_nonneg
    intro part member
    obtain ⟨entry, present, rfl⟩ := List.mem_map.mp member
    exact mul_nonneg (nonneg _ (openIndices_lt_size covers _ (Instance.mem_byDensity present).1))
      (Nat.cast_nonneg _)
  rw [spread_of_keeps _ covers keeps] at fits
  have fixedFits : (inst.measureOf (·.weight) fixation.packedBy : ℚ) ≤ inst.capacity.toNat := by
    linarith
  exact Nat.cast_le.mp fixedFits

/-- No amounts that keep a fixation and fit are worth more than the relaxed solution. -/
theorem spread_value_le_greedySelection (covers : fixation.length = inst.size) {amounts : ℕ → ℚ}
    (keeps : fixation.Keeps amounts)
    (bounded : ∀ index < inst.size, 0 ≤ amounts index ∧ amounts index ≤ 1)
    (fits : inst.spread (·.weight) amounts ≤ inst.capacity.toNat) :
    inst.spread (·.value) amounts ≤
      inst.spread (·.value) (Solution.amountsOf (greedySelection inst fixation)) := by
  have room : fixedWeight inst fixation ≤ inst.capacity.toNat :=
    (fixedWeight_eq covers).trans_le
      (weightOf_packedBy_le covers keeps (fun index bound => (bounded index bound).1) fits)
  have left : listed inst (·.weight) (inst.byDensity fixation.openIndices) amounts ≤
      ((inst.capacity.toNat - fixedWeight inst fixation : ℕ) : ℚ) := by
    rw [spread_of_keeps _ covers keeps] at fits
    rw [Nat.cast_sub room, fixedWeight_eq covers, Instance.weightOf]
    linarith
  rw [spread_of_keeps _ covers keeps, spread_greedySelection _ covers room]
  refine (add_le_add_iff_left _).mpr (listed_value_le_poured (lists_byDensity inst _)
    (inst.byDensity_pairwise _) (fun entry member => ?_) left)
  exact bounded _ (openIndices_lt_size covers _ (Instance.mem_byDensity member).1)

end Selection

end Relaxation

end Knapsack
