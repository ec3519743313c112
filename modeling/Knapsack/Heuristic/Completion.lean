import Knapsack.Heuristic.Basic

/-! # Greedy completion

The fractional items of a relaxed solution are left out, and the open items are packed by decreasing
density as long as they fit. The result is then improved by exchanges of one packed item for one
unpacked item of greater value, each followed by packing whatever fits again. Fixed items are never
touched.
-/

namespace Knapsack

/-- The items that are packed, and the capacity that is left. -/
structure Packing where
  packed : List Bool
  room : Nat
deriving DecidableEq

namespace Packing

/-- The mark of an item, which has to be covered by the packing. -/
def mark (packing : Packing) (item : IndexedItem) : Except Defect Bool :=
  match packing.packed[item.index]? with
  | some packed => .ok packed
  | none => .error .indexOutOfBounds

def pack (packing : Packing) (item : IndexedItem) : Except Defect Packing := do
  let room ← difference packing.room item.item.weight.toNat
  return { packed := packing.packed.set item.index true, room }

/-- Packs an item if it is not packed yet and fits. -/
def packIfFits (packing : Packing) (item : IndexedItem) : Except Defect Packing := do
  if !(← packing.mark item) && item.item.weight.toNat ≤ packing.room then packing.pack item
  else return packing

/-- Packs every one of the items that still fits, in the given order. -/
def fill (free : List IndexedItem) (packing : Packing) : Except Defect Packing :=
  free.foldlM packIfFits packing

/-- A packed item that could make place for an unpacked one, and what that gains. -/
structure Swap where
  out : IndexedItem
  inn : IndexedItem
  gain : Nat
deriving DecidableEq

/-- The exchanges of one packed item that fit and increase the value, by the item that enters. -/
def swapsOf (packing : Packing) (out : IndexedItem) (outside : List IndexedItem) :
    Except Defect (List Swap) := do
  let room ← word (packing.room + out.item.weight.toNat)
  (outside.filter fun inn => out.item.value < inn.item.value && inn.item.weight.toNat ≤ room).mapM
    fun inn => do return ⟨out, inn, ← difference inn.item.value.toNat out.item.value.toNat⟩

/-- The exchanges that fit and increase the value, by the item that leaves and then by the item
that enters, each in the given order. -/
def swaps (free : List IndexedItem) (packing : Packing) : Except Defect (List Swap) := do
  let marked ← free.mapM fun item => do return (item, ← packing.mark item)
  let inside := (marked.filter (·.2)).map (·.1)
  let outside := (marked.filter (!·.2)).map (·.1)
  return (← inside.mapM (packing.swapsOf · outside)).flatten

/-- The first of the exchanges of greatest gain. -/
def bestSwap? : List Swap → Option Swap
  | [] => none
  | swap :: rest =>
    match bestSwap? rest with
    | none => some swap
    | some other => if swap.gain < other.gain then some other else some swap

def apply (packing : Packing) (swap : Swap) : Except Defect Packing := do
  let freed ← word (packing.room + swap.out.item.weight.toNat)
  let room ← difference freed swap.inn.item.weight.toNat
  return { packed := (packing.packed.set swap.out.index false).set swap.inn.index true, room }

/-- Makes the best exchange, if there is any. -/
def exchange? (free : List IndexedItem) (packing : Packing) : Except Defect (Option Packing) := do
  match bestSwap? (← packing.swaps free) with
  | none => return none
  | some swap => return some (← packing.apply swap)

/-- Makes at most the given number of exchanges, and counts them. -/
def improve (free : List IndexedItem) : Nat → Packing → Except Defect (Packing × Nat)
  | 0, packing => return (packing, 0)
  | rounds + 1, packing => do
    match ← packing.exchange? free with
    | none => return (packing, 0)
    | some exchanged =>
      let (improved, count) ← improve free rounds (← exchanged.fill free)
      return (improved, count + 1)

end Packing

namespace Heuristic

/-- The solution that a packing stands for, when it covers the items. -/
def solution? (inst : Instance) (packed : List Bool) : Option Solution :=
  (Solution.ofPacked inst packed).toOption

/-- Greedy completion of a relaxed solution, improved by at most one exchange per item. It yields
the completed solution and, when it differs, the improved one; nothing when the items that are
packed entirely do not fit. -/
def completion : Heuristic := fun _ inst node => do
  let packed := node.relaxed.selection.map (· == 1)
  let weight ← word (inst.markedWeight packed)
  if inst.capacity.toNat < weight then return {}
  unless inst.valid node.fixation.openIndices do throw .indexOutOfBounds
  let free := inst.byDensity node.fixation.openIndices
  let completed ← Packing.fill free ⟨packed, inst.capacity.toNat - weight⟩
  let (improved, rounds) ← completed.improve free inst.size
  let packings :=
    if improved.packed = completed.packed then [completed.packed]
    else [completed.packed, improved.packed]
  return {
    notices := [.completionImproved node.id rounds]
    solutions := packings.filterMap (solution? inst) }

end Heuristic

end Knapsack
