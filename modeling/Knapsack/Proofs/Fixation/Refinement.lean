import Knapsack.Fixation.InPlace
import Knapsack.Proofs.Fixation.Split
import Knapsack.Proofs.Outcome

/-! # Refining is fixing more

A fixation refines another one exactly when some items are fixed in addition, one call after the
other. Fixations come in an order in this way, and what refines allows strictly less: it is a matter
of the complete assignments alone. A call that fails changes nothing, and splitting is safe for the
fixation that is split.
-/

namespace Knapsack.Fixation

variable {fixation parent child whole : Fixation} {index value : ℕ} {decision : Bool}
  {calls : List (ℕ × ℕ)}

/-- An index is out of bounds, or its item is open or fixed. -/
theorem get?_cases (fixation : Fixation) (index : ℕ) :
    fixation.length ≤ index ∧ fixation.get? index = none ∨ fixation.get? index = some none ∨
      ∃ decision, fixation.get? index = some (some decision) := by
  rcases found : fixation.get? index with _ | _ | decision
  · exact Or.inl ⟨List.getElem?_eq_none_iff.mp found, rfl⟩
  · exact Or.inr (Or.inl rfl)
  · exact Or.inr (Or.inr ⟨decision, rfl⟩)

/-- Fixing succeeds on an open item, for the values 0 and 1. -/
theorem fix_eq_ok_iff : fixation.fix index value = .ok child ↔
    value ≤ 1 ∧ fixation.get? index = some none ∧ fixation.decided index (value == 1) = child := by
  unfold fix
  split_ifs with large
  · simp [large]
  · rcases found : fixation.get? index with _ | _ | decision
    · simp
    · simp [not_lt.mp large, decided]
    · simp

/-- Fixing in place is fixing, and a call that fails changes nothing. -/
theorem fixInPlace_apply (fixation : Fixation) (index value : ℕ) :
    fixInPlace index value fixation = match fixation.fix index value with
      | .ok fixed => .ok () fixed
      | .error error => .error error fixation := by
  unfold fixInPlace fix
  by_cases large : 1 < value
  · simp only [if_pos large]
    rfl
  · simp only [if_neg large]
    rcases found : fixation.get? index with _ | _ | decision
    all_goals
      simp only [bind, EStateM.bind, get, getThe, MonadStateOf.get, EStateM.get, found]
      rfl

/-- Splitting copies is splitting, and the fixation stays as it was. -/
theorem splitCopies_apply (fixation : Fixation) (index : ℕ) :
    splitCopies index fixation = match fixation.split index with
      | .ok halves => .ok halves fixation
      | .error error => .error error fixation := by
  have onCopy_apply : ∀ value, onCopy fixation (fixInPlace index value) fixation =
      match fixation.fix index value with
      | .ok fixed => .ok fixed fixation
      | .error error => .error error fixation := by
    intro value
    unfold onCopy
    rw [fixInPlace_apply]
    cases fixation.fix index value <;> rfl
  change (onCopy fixation (fixInPlace index 0) >>= fun left =>
    onCopy fixation (fixInPlace index 1) >>= fun right => pure (left, right)) fixation = _
  simp only [bind, EStateM.bind, onCopy_apply, split, Except.bind]
  cases fixation.fix index 0 with
  | error error => rfl
  | ok left =>
    dsimp only
    rw [onCopy_apply]
    cases fixation.fix index 1 <;> rfl

/-- The first call has to succeed, and the others have to succeed on what it makes. -/
theorem fixAll_cons_eq_ok_iff : fixAll ((index, value) :: calls) fixation = .ok () child ↔
    ∃ middle, fixation.fix index value = .ok middle ∧ fixAll calls middle = .ok () child := by
  change EStateM.bind (fixInPlace index value) (fun _ => fixAll calls) fixation = _ ↔ _
  rw [EStateM.bind, fixInPlace_apply]
  cases fixation.fix index value <;> simp

/-- A fixation with all decisions of another one, and maybe more. -/
structure Extends (child parent : Fixation) : Prop where
  length_eq : child.length = parent.length
  keeps : ∀ index decision, parent.get? index = some (some decision) →
    child.get? index = some (some decision)

namespace Extends

variable {other : Fixation}

theorem refl (fixation : Fixation) : fixation.Extends fixation := ⟨rfl, fun _ _ => id⟩

theorem trans (below : child.Extends parent) (above : parent.Extends other) :
    child.Extends other where
  length_eq := below.length_eq.trans above.length_eq
  keeps index decision fixed := below.keeps index decision (above.keeps index decision fixed)

/-- Where a fixation differs from what it extends, it decides an item that is open there. -/
theorem exists_open (below : child.Extends parent) (differs : child ≠ parent) :
    ∃ index decision, parent.get? index = some none ∧
      child.get? index = some (some decision) := by
  by_contra nothing
  refine differs (congrArg Fixation.mk (List.ext_getElem? fun index => ?_))
  change child.get? index = parent.get? index
  rcases get?_cases parent index with ⟨beyond, absent⟩ | isOpen | ⟨decision, fixed⟩
  · rw [absent]
    exact List.getElem?_eq_none_iff.mpr (below.length_eq.le.trans beyond)
  · rcases get?_cases child index with ⟨beyond, -⟩ | alsoOpen | ⟨decision, fixed⟩
    · have within : index < parent.length := (List.getElem?_eq_some_iff.mp isOpen).1
      rw [below.length_eq] at beyond
      omega
    · rw [isOpen, alsoOpen]
    · exact absurd ⟨index, decision, isOpen, fixed⟩ nothing
  · rw [fixed, below.keeps index decision fixed]

theorem decided (undecided : fixation.get? index = some none) (decision : Bool) :
    (fixation.decided index decision).Extends fixation where
  length_eq := length_of_refines (refines_decided undecided decision)
  keeps _ _ := get?_of_refines (refines_decided undecided decision)

/-- A decision that an extension makes can be made first. -/
theorem extends_decided (below : child.Extends parent)
    (decides : child.get? index = some (some decision)) :
    child.Extends (parent.decided index decision) where
  length_eq := below.length_eq.trans List.length_set.symm
  keeps position before fixed := by
    by_cases same : position = index
    · subst same
      have within : position < parent.decisions.length := by
        have bound := (List.getElem?_eq_some_iff.mp fixed).1
        rwa [Fixation.decided, List.length_set] at bound
      have makes : (parent.decided position decision).get? position = some (some decision) :=
        List.getElem?_set_self within
      rw [decides, ← makes, fixed]
    · exact below.keeps position before (get?_decided_of_ne same decision ▸ fixed)

end Extends

/-- Calls that succeed keep all decisions, and each of them makes one more. -/
theorem extends_of_fixAll (reached : fixAll calls parent = .ok () child) :
    child.Extends parent ∧ child.fixedCount = parent.fixedCount + calls.length := by
  induction calls generalizing parent with
  | nil =>
    cases reached
    exact ⟨.refl _, rfl⟩
  | cons call rest ih =>
    obtain ⟨index, value⟩ := call
    obtain ⟨middle, fixes, later⟩ := fixAll_cons_eq_ok_iff.mp reached
    obtain ⟨-, undecided, rfl⟩ := fix_eq_ok_iff.mp fixes
    obtain ⟨below, count⟩ := ih later
    refine ⟨below.trans (.decided undecided _), ?_⟩
    rw [count, fixedCount_decided undecided, List.length_cons, Nat.add_right_comm, Nat.add_assoc]

/-- Whatever extends a fixation is made from it by some calls. -/
theorem exists_fixAll_of_extends (below : child.Extends parent) :
    ∃ calls, fixAll calls parent = .ok () child := by
  -- Every call leaves fewer items open.
  induction room : parent.length - parent.fixedCount using Nat.strong_induction_on
    generalizing parent with
  | _ room ih =>
    by_cases same : child = parent
    · exact ⟨[], by rw [same]; rfl⟩
    obtain ⟨index, decision, undecided, decides⟩ := below.exists_open same
    have count := fixedCount_decided undecided decision
    have length : (parent.decided index decision).length = parent.length := List.length_set
    have bound : (parent.decided index decision).fixedCount ≤ parent.length :=
      length ▸ List.countP_le_length
    obtain ⟨calls, reached⟩ := ih _ (by omega) (below.extends_decided decides) rfl
    refine ⟨(index, decision.toNat) :: calls, fixAll_cons_eq_ok_iff.mpr ⟨_, ?_, reached⟩⟩
    refine fix_eq_ok_iff.mpr ⟨Bool.toNat_le decision, undecided, ?_⟩
    cases decision <;> rfl

theorem refines_iff_exists_fixAll : child.refines parent = true ↔
    ∃ calls, calls ≠ [] ∧ fixAll calls parent = .ok () child := by
  constructor
  · intro refines
    obtain ⟨length, more, keeps⟩ := refines_iff.mp refines
    obtain ⟨calls, reached⟩ := exists_fixAll_of_extends ⟨length, keeps⟩
    refine ⟨calls, ?_, reached⟩
    rintro rfl
    cases reached
    exact more.false
  · rintro ⟨calls, present, reached⟩
    obtain ⟨⟨length, keeps⟩, count⟩ := extends_of_fixAll reached
    have some_call := List.length_pos_iff.mpr present
    exact refines_iff.mpr ⟨length, by omega, keeps⟩

/-- To refine is to extend properly. -/
theorem refines_iff_extends_ne :
    child.refines parent = true ↔ child.Extends parent ∧ child ≠ parent := by
  constructor
  · intro refines
    obtain ⟨length, more, keeps⟩ := refines_iff.mp refines
    refine ⟨⟨length, keeps⟩, ?_⟩
    rintro rfl
    exact more.false
  · rintro ⟨below, differs⟩
    obtain ⟨calls, reached⟩ := exists_fixAll_of_extends below
    refine refines_iff_exists_fixAll.mpr ⟨calls, ?_, reached⟩
    rintro rfl
    cases reached
    exact differs rfl

/-- Leaving out all open items completes a fixation. -/
def filled (fixation : Fixation) : Fixation :=
  ⟨fixation.decisions.map fun decision => some (decision.getD false)⟩

theorem completes_filled (fixation : Fixation) : fixation.filled.Completes fixation where
  length_eq := List.length_map _
  complete := by simp [isComplete, filled]
  keeps index decision fixed := by
    change (fixation.decisions.map _)[index]? = _
    rw [List.getElem?_map, show fixation.decisions[index]? = _ from fixed]
    rfl

theorem Extends.completes (below : child.Extends parent) (completes : whole.Completes child) :
    whole.Completes parent where
  length_eq := completes.length_eq.trans below.length_eq
  complete := completes.complete
  keeps index decision fixed := completes.keeps index decision (below.keeps index decision fixed)

/-- The complete assignments below a fixation show how long it is and what it decides. -/
theorem extends_iff_completes_subset : child.Extends parent ↔
    {whole : Fixation | whole.Completes child} ⊆ {whole | whole.Completes parent} := by
  refine ⟨fun below _ => below.completes, fun below => ?_⟩
  have length : child.length = parent.length :=
    (completes_filled child).length_eq.symm.trans (below (completes_filled child)).length_eq
  refine ⟨length, fun index decision fixed => ?_⟩
  have within : index < parent.length := (List.getElem?_eq_some_iff.mp fixed).1
  rcases get?_cases child index with ⟨beyond, -⟩ | isOpen | ⟨other, decides⟩
  · omega
  · -- An item that is open below could also be decided in the other way.
    have opposite := completes_filled (child.decided index !decision)
    obtain ⟨completes, makes⟩ := (completes_decided_iff isOpen).mp opposite
    have clash := makes.symm.trans ((below completes).keeps index decision fixed)
    simp at clash
  · have kept := (completes_filled child).keeps index other decides
    rw [decides, ← kept, (below (completes_filled child)).keeps index decision fixed]

/-- What refines a fixation allows strictly less. -/
theorem refines_iff_completes_ssubset : child.refines parent = true ↔
    {whole : Fixation | whole.Completes child} ⊂ {whole | whole.Completes parent} := by
  rw [refines_iff_extends_ne, extends_iff_completes_subset, Set.ssubset_iff_subset_ne]
  refine and_congr_right fun below => not_congr ⟨fun same => by rw [same], fun same => ?_⟩
  by_contra differs
  obtain ⟨index, decision, isOpen, decides⟩ :=
    (extends_iff_completes_subset.mpr below).exists_open differs
  obtain ⟨completes, makes⟩ :=
    (completes_decided_iff isOpen).mp (completes_filled (parent.decided index !decision))
  have both : (parent.decided index !decision).filled.Completes child := same.ge completes
  have clash := makes.symm.trans (both.keeps index decision decides)
  simp at clash

/-- How a call that fixes one item ends: the value is tested first, then the index, then whether the
item is open. A call that fails leaves the fixation as it was. -/
inductive FixOutcome (fixation : Fixation) (index value : ℕ) :
    EStateM.Result Error Fixation Unit → Prop
  | badValue (large : 1 < value) :
      FixOutcome fixation index value (.error (.invalidFixValue value) fixation)
  | outOfBounds (small : value ≤ 1) (beyond : fixation.length ≤ index) :
      FixOutcome fixation index value (.error (.indexOutOfBounds index fixation.length) fixation)
  | alreadyFixed {decision : Bool} (small : value ≤ 1)
      (fixed : fixation.get? index = some (some decision)) :
      FixOutcome fixation index value (.error (.alreadyFixed index) fixation)
  | fixes (small : value ≤ 1) (isOpen : fixation.get? index = some none) :
      FixOutcome fixation index value (.ok () (fixation.decided index (value == 1)))

theorem fixOutcome (fixation : Fixation) (index value : ℕ) :
    FixOutcome fixation index value (fixInPlace index value fixation) := by
  rw [fixInPlace_apply]
  unfold fix
  by_cases large : 1 < value
  · rw [if_pos large]
    exact .badValue large
  · rw [if_neg large]
    rcases get?_cases fixation index with ⟨beyond, absent⟩ | isOpen | ⟨decision, fixed⟩
    · rw [absent]
      exact .outOfBounds (not_lt.mp large) beyond
    · rw [isOpen]
      exact .fixes (not_lt.mp large) isOpen
    · rw [fixed]
      exact .alreadyFixed (not_lt.mp large) fixed

/-- How splitting ends: an open item gives two fixations that refine the one that is split and
differ on this item alone, and any other item is refused. What is split stays as it was. -/
inductive SplitOutcome (fixation : Fixation) (index : ℕ) :
    EStateM.Result Error Fixation (Fixation × Fixation) → Prop
  | halves {left right : Fixation} (isOpen : fixation.get? index = some none)
      (leftRefines : left.refines fixation = true) (rightRefines : right.refines fixation = true)
      (leavesOut : left.get? index = some (some false))
      (packs : right.get? index = some (some true))
      (differ : ∀ position, left.get? position ≠ right.get? position ↔ position = index) :
      SplitOutcome fixation index (.ok (left, right) fixation)
  | refused {error : Error} (blocked : fixation.get? index ≠ some none) :
      SplitOutcome fixation index (.error error fixation)

theorem splitOutcome (fixation : Fixation) (index : ℕ) :
    SplitOutcome fixation index (splitCopies index fixation) := by
  rw [splitCopies_apply]
  by_cases isOpen : fixation.get? index = some none
  · rw [split_eq isOpen]
    refine .halves isOpen (refines_decided isOpen false) (refines_decided isOpen true)
      (get?_decided_self isOpen false) (get?_decided_self isOpen true) fun position => ?_
    constructor
    · intro differ
      by_contra distinct
      exact differ (by rw [get?_decided_of_ne distinct, get?_decided_of_ne distinct])
    · rintro rfl same
      rw [get?_decided_self isOpen, get?_decided_self isOpen] at same
      simp at same
  · cases outcome : fixation.split index with
    | error error => exact .refused isOpen
    | ok halves =>
      -- Whoever is split has let an item be fixed.
      obtain ⟨left, fixes, -⟩ := bind_eq_ok.mp outcome
      exact absurd (fix_eq_ok_iff.mp fixes).2.1 isOpen

/-- All fixations are made from the open one by calls that fix an item. One refines another exactly
when it takes some more such calls to get there, and exactly when it allows strictly less; so
fixations are strictly ordered by refinement. -/
theorem refining_is_fixing_more :
    (∀ fixation : Fixation, ∃ calls,
      fixAll calls (unassigned fixation.length) = .ok () fixation) ∧
    (∀ parent child : Fixation, child.refines parent = true ↔
      ∃ calls, calls ≠ [] ∧ fixAll calls parent = .ok () child) ∧
    IsStrictOrder Fixation (fun child parent => child.refines parent = true) ∧
    Std.Asymm (fun child parent : Fixation => child.refines parent = true) ∧
    (∀ parent child : Fixation, child.refines parent = true ↔ child.length = parent.length ∧
      {whole : Fixation | whole.Completes child} ⊂ {whole | whole.Completes parent}) ∧
    (∀ fixation index value, FixOutcome fixation index value (fixInPlace index value fixation)) ∧
    ∀ fixation index, SplitOutcome fixation index (splitCopies index fixation) := by
  have irreflexive : ∀ fixation : Fixation, ¬ fixation.refines fixation = true :=
    fun fixation refines => (refines_iff_extends_ne.mp refines).2 rfl
  refine ⟨fun fixation => ?_, fun _ _ => refines_iff_exists_fixAll, ?_, ?_, fun parent child => ?_,
    fixOutcome, splitOutcome⟩
  · refine exists_fixAll_of_extends ⟨List.length_replicate.symm, fun index decision fixed => ?_⟩
    exact (get?_unassigned _ _ fixed).elim
  · exact { irrefl := irreflexive, trans := fun _ _ _ => refines_trans }
  · exact ⟨fun child parent refines above => irreflexive child (refines_trans refines above)⟩
  · rw [← refines_iff_completes_ssubset]
    exact ⟨fun refines => ⟨length_of_refines refines, refines⟩, And.right⟩

end Knapsack.Fixation
