import Mathlib
import Knapsack.Fixation

/-! # Splitting a fixation

A fixation allows the sets of items that keep its decisions. Splitting on an open item gives two
fixations that disagree on that item, and every set that the parent allows is allowed by exactly one
of them. Decisions below a fixation stay, so disagreement is inherited.
-/

namespace Knapsack.Fixation

variable {fixation child parent other : Fixation} {index : ℕ}

/-- Whether a set of items keeps the decisions of a fixation. -/
def allows (fixation : Fixation) (chosen : Finset ℕ) : Bool :=
  fixation.decisions.zipIdx.all fun (decision, index) => decision.all (· == decide (index ∈ chosen))

theorem allows_iff {chosen : Finset ℕ} : fixation.allows chosen = true ↔
    ∀ index decision, fixation.get? index = some (some decision) →
      (decision = true ↔ index ∈ chosen) := by
  simp only [allows, List.all_eq_true, Prod.forall, List.mem_zipIdx_iff_getElem?, get?]
  constructor
  · intro kept index decision fixed
    have agrees := kept (some decision) index fixed
    simp only [Option.all_some, beq_iff_eq] at agrees
    rw [agrees, decide_eq_true_iff]
  · intro kept decision index fixed
    cases decision with
    | none => rfl
    | some decision =>
      have agrees := kept index decision fixed
      rw [Option.all_some, beq_iff_eq, Bool.eq_iff_iff, decide_eq_true_iff, agrees]

/-- Two fixations disagree on an item that both of them fix. -/
def Incompatible (a b : Fixation) : Prop :=
  ∃ index decision, a.get? index = some (some decision) ∧ b.get? index = some (some !decision)

theorem Incompatible.symm {a b : Fixation} (disagree : Incompatible a b) : Incompatible b a := by
  obtain ⟨index, decision, left, right⟩ := disagree
  exact ⟨index, !decision, right, by rwa [Bool.not_not]⟩

/-- No set of items keeps decisions that disagree. -/
theorem Incompatible.not_allows {a b : Fixation} {chosen : Finset ℕ} (disagree : Incompatible a b)
    (allowed : a.allows chosen = true) : b.allows chosen = false := by
  obtain ⟨index, decision, left, right⟩ := disagree
  rw [Bool.eq_false_iff]
  intro both
  have first := allows_iff.mp allowed index decision left
  have second := allows_iff.mp both index (!decision) right
  rw [← first] at second
  cases decision <;> simp at second

theorem get?_unassigned (length : ℕ) (decision : Bool) :
    (unassigned length).get? index ≠ some (some decision) := by
  simp only [unassigned, get?]
  intro fixed
  exact absurd (List.eq_of_mem_replicate (List.mem_of_getElem? fixed)) (by simp)

theorem fixedCount_unassigned (length : ℕ) : (unassigned length).fixedCount = 0 := by
  simp [fixedCount, unassigned, List.countP_replicate]

/-- Where nothing is decided, everything is allowed. -/
theorem allows_unassigned (length : ℕ) (chosen : Finset ℕ) :
    (unassigned length).allows chosen = true :=
  allows_iff.mpr fun _ decision fixed => (get?_unassigned length decision fixed).elim

theorem mem_openIndices : index ∈ fixation.openIndices ↔ fixation.get? index = some none := by
  simp only [openIndices, List.mem_filterMap, Prod.exists, List.mem_zipIdx_iff_getElem?, get?]
  constructor
  · rintro ⟨decision, position, present, kept⟩
    split_ifs at kept with undecided
    obtain rfl := Option.some.inj kept
    rw [present, Option.isNone_iff_eq_none.mp undecided]
  · intro present
    exact ⟨none, index, present, rfl⟩

theorem lt_length_of_mem_openIndices (member : index ∈ fixation.openIndices) :
    index < fixation.length :=
  (List.getElem?_eq_some_iff.mp (mem_openIndices.mp member)).1

/-- Every open item is listed once. -/
theorem nodup_openIndices (fixation : Fixation) : fixation.openIndices.Nodup := by
  have positions : (fixation.decisions.zipIdx.map Prod.snd).Nodup :=
    List.nodup_zipIdx_map_snd fixation.decisions
  apply (List.pairwise_map.mp positions).filterMap _
  rintro ⟨decision, position⟩ ⟨decision', position'⟩ distinct first kept second kept'
  simp only [Option.ite_none_right_eq_some, Option.some.injEq] at kept kept'
  rw [← kept.2, ← kept'.2]
  exact distinct

/-- Refining a fixation is keeping its decisions and making at least one more. -/
theorem refines_iff : child.refines parent = true ↔ child.length = parent.length ∧
    parent.fixedCount < child.fixedCount ∧ ∀ index decision,
      parent.get? index = some (some decision) → child.get? index = some (some decision) := by
  simp only [Fixation.refines, Bool.and_eq_true, beq_iff_eq, decide_eq_true_eq, and_assoc,
    List.all_eq_true]
  refine and_congr_right fun same => and_congr_right fun _ => ?_
  constructor
  · intro kept index decision fixed
    obtain ⟨bound, -⟩ := List.getElem?_eq_some_iff.mp fixed
    have within : index < child.decisions.length := by
      change index < child.length
      rw [same]
      exact bound
    have present : child.decisions[index]? = some child.decisions[index] :=
      List.getElem?_eq_getElem within
    have follows := kept (child.decisions[index], some decision)
      (List.mem_of_getElem? (List.getElem?_zip_eq_some.mpr ⟨present, fixed⟩))
    simp only [Fixation.follows, Option.isNone_some, Bool.false_or, beq_iff_eq] at follows
    rw [get?, present, ← follows]
  · rintro kept ⟨after, before⟩ member
    obtain ⟨position, present⟩ := List.mem_iff_getElem?.mp member
    obtain ⟨now, was⟩ := List.getElem?_zip_eq_some.mp present
    cases before with
    | none => rfl
    | some decision =>
      obtain rfl := Option.some.inj (now.symm.trans (kept position decision was))
      simp [Fixation.follows]

/-- The decisions of a refined fixation stay. -/
theorem get?_of_refines (refines : child.refines parent = true) {decision : Bool}
    (fixed : parent.get? index = some (some decision)) :
    child.get? index = some (some decision) := (refines_iff.mp refines).2.2 index decision fixed

theorem length_of_refines (refines : child.refines parent = true) :
    child.length = parent.length := (refines_iff.mp refines).1

theorem refines_trans (refines : child.refines parent = true)
    (above : parent.refines other = true) : child.refines other = true := by
  obtain ⟨length, more, kept⟩ := refines_iff.mp refines
  obtain ⟨lengthAbove, moreAbove, keptAbove⟩ := refines_iff.mp above
  exact refines_iff.mpr ⟨length.trans lengthAbove, moreAbove.trans more,
    fun index decision fixed => kept index decision (keptAbove index decision fixed)⟩

theorem Incompatible.of_refines (disagree : Incompatible parent other)
    (refines : child.refines parent = true) : Incompatible child other := by
  obtain ⟨index, decision, left, right⟩ := disagree
  exact ⟨index, decision, get?_of_refines refines left, right⟩

/-- A fixation with one more decision. -/
def decided (fixation : Fixation) (index : ℕ) (decision : Bool) : Fixation :=
  ⟨fixation.decisions.set index (some decision)⟩

/-- An open item can be split on, which decides it in both ways. -/
theorem split_eq (undecided : fixation.get? index = some none) :
    fixation.split index = .ok (fixation.decided index false, fixation.decided index true) := by
  simp [Fixation.split, fix, undecided, bind, Except.bind, pure, Except.pure, decided]

theorem get?_decided_self (undecided : fixation.get? index = some none) (decision : Bool) :
    (fixation.decided index decision).get? index = some (some decision) := by
  obtain ⟨bound, -⟩ := List.getElem?_eq_some_iff.mp undecided
  exact List.getElem?_set_self bound

theorem get?_decided_of_ne {position : ℕ} (distinct : position ≠ index) (decision : Bool) :
    (fixation.decided index decision).get? position = fixation.get? position :=
  List.getElem?_set_ne distinct.symm

/-- Deciding an open item fixes one item more. -/
theorem fixedCount_decided (undecided : fixation.get? index = some none) (decision : Bool) :
    (fixation.decided index decision).fixedCount = fixation.fixedCount + 1 := by
  obtain ⟨bound, isOpen⟩ := List.getElem?_eq_some_iff.mp undecided
  simp [fixedCount, decided, List.countP_set bound, isOpen]

/-- Deciding an open item refines a fixation. -/
theorem refines_decided (undecided : fixation.get? index = some none) (decision : Bool) :
    (fixation.decided index decision).refines fixation = true := by
  refine refines_iff.mpr ⟨List.length_set, ?_, fun position before fixed => ?_⟩
  · rw [fixedCount_decided undecided]
    exact Nat.lt_succ_self _
  · have distinct : position ≠ index := by
      rintro rfl
      exact nomatch fixed.symm.trans undecided
    rw [get?_decided_of_ne distinct, fixed]

/-- The two ways to decide an item disagree. -/
theorem incompatible_decided (undecided : fixation.get? index = some none) (decision : Bool) :
    Incompatible (fixation.decided index decision) (fixation.decided index !decision) :=
  ⟨index, decision, get?_decided_self undecided decision, get?_decided_self undecided _⟩

/-- A set of items that keeps a fixation also keeps the decision that it makes itself. -/
theorem allows_decided {chosen : Finset ℕ} (undecided : fixation.get? index = some none)
    (allowed : fixation.allows chosen = true) :
    (fixation.decided index (decide (index ∈ chosen))).allows chosen = true := by
  apply allows_iff.mpr
  intro position decision fixed
  by_cases same : position = index
  · subst same
    rw [get?_decided_self undecided] at fixed
    rw [← Option.some.inj (Option.some.inj fixed), decide_eq_true_iff]
  · rw [get?_decided_of_ne same] at fixed
    exact allows_iff.mp allowed position decision fixed

/-- Fixations that share out the sets of items that a parent allows: each of them refines the
parent, any two disagree, and no set is left without one. -/
structure Partition (parent : Fixation) (children : List Fixation) : Prop where
  refine : ∀ child ∈ children, child.refines parent = true
  disjoint : children.Pairwise Incompatible
  cover : ∀ chosen, parent.allows chosen = true → ∃ child ∈ children, child.allows chosen = true

/-- Something is allowed by every fixation, so it is not shared out among nobody. -/
theorem Partition.ne_nil {children : List Fixation} (partition : fixation.Partition children) :
    children ≠ [] := by
  rintro rfl
  have allowed : fixation.allows
      ((Finset.range fixation.length).filter fun index =>
        fixation.get? index = some (some true)) = true := by
    apply allows_iff.mpr
    intro index decision fixed
    have bound : index < fixation.length := (List.getElem?_eq_some_iff.mp fixed).1
    simp [fixed, bound]
  obtain ⟨child, member, -⟩ := partition.cover _ allowed
  exact nomatch member

/-- Deciding one open item in both ways is a partition. -/
theorem partition_decided (undecided : fixation.get? index = some none) :
    Partition fixation [fixation.decided index false, fixation.decided index true] where
  refine := by
    intro child member
    simp only [List.mem_cons, List.not_mem_nil, or_false] at member
    rcases member with rfl | rfl <;> exact refines_decided undecided _
  disjoint := by simpa using incompatible_decided undecided false
  cover := by
    intro chosen allowed
    refine ⟨_, ?_, allows_decided undecided allowed⟩
    cases decide (index ∈ chosen) <;> simp

/-- A complete assignment below a fixation: every item is decided, and the decisions of the fixation
are kept. -/
structure Completes (whole fixation : Fixation) : Prop where
  length_eq : whole.length = fixation.length
  complete : whole.isComplete = true
  keeps : ∀ index decision, fixation.get? index = some (some decision) →
    whole.get? index = some (some decision)

variable {whole : Fixation}

/-- A complete assignment decides every item. -/
theorem Completes.exists_decision (completes : whole.Completes fixation)
    (bound : index < fixation.length) : ∃ decision, whole.get? index = some (some decision) := by
  have within : index < whole.length := completes.length_eq ▸ bound
  have isFixed := List.all_eq_true.mp completes.complete _ (List.getElem_mem within)
  obtain ⟨decision, decides⟩ := Option.isSome_iff_exists.mp isFixed
  exact ⟨decision, List.getElem?_eq_some_iff.mpr ⟨within, decides⟩⟩

/-- What is complete below a fixation with one more decision makes that decision. -/
theorem completes_decided_iff (undecided : fixation.get? index = some none) {decision : Bool} :
    whole.Completes (fixation.decided index decision) ↔
      whole.Completes fixation ∧ whole.get? index = some (some decision) := by
  constructor
  · rintro ⟨length, complete, keeps⟩
    refine ⟨⟨length.trans List.length_set, complete, fun position before fixed => ?_⟩, ?_⟩
    · exact keeps position before (get?_of_refines (refines_decided undecided decision) fixed)
    · exact keeps index decision (get?_decided_self undecided decision)
  · rintro ⟨⟨length, complete, keeps⟩, makes⟩
    refine ⟨length.trans List.length_set.symm, complete, fun position before fixed => ?_⟩
    by_cases same : position = index
    · subst same
      rwa [← fixed.symm.trans (get?_decided_self undecided decision)] at makes
    · exact keeps position before (get?_decided_of_ne same decision ▸ fixed)

/-- Deciding an open item in both ways shares out the complete assignments. -/
theorem completes_iff_xor_decided (undecided : fixation.get? index = some none) :
    whole.Completes fixation ↔ Xor (whole.Completes (fixation.decided index false))
      (whole.Completes (fixation.decided index true)) := by
  rw [completes_decided_iff undecided, completes_decided_iff undecided]
  constructor
  · intro completes
    obtain ⟨decision, decides⟩ :=
      completes.exists_decision (List.getElem?_eq_some_iff.mp undecided).1
    cases decision with
    | false => exact Or.inl ⟨⟨completes, decides⟩, fun other => nomatch decides.symm.trans other.2⟩
    | true => exact Or.inr ⟨⟨completes, decides⟩, fun other => nomatch decides.symm.trans other.2⟩
  · rintro (⟨⟨completes, -⟩, -⟩ | ⟨⟨completes, -⟩, -⟩) <;> exact completes

end Knapsack.Fixation
