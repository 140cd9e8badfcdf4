/-
  DynaSpec.Speculative.BuildTree — the links, positions and attention mask of the draft
  trees: the CUDA kernel `build_tree_efficient` (sgl-kernel/csrc/speculative/eagle_utils.cu)
  and the torch fallback `build_tree_efficient_native` (srt/speculative/eagle_utils.py).

  Node 0 of a request's tree is the last verified token, node `j + 1` its `j`-th selected
  candidate. The kernel runs a block per request and a thread per node: thread 0 builds
  the links from the last node to the first, every other thread climbs from its node to
  the root, counting the steps and setting the mask. Threads touch disjoint cells and
  run in any order. The fallback's tensors are checked on access: an index past the row
  raises, here `none`, as does a loop that runs out of fuel.
-/

import DynaSpec.Lib.Grid
import Mathlib.Data.List.FinRange

namespace DynaSpec.Speculative.BuildTree

open DynaSpec.Lib

inductive TreeMaskMode where
  | fullMask
  | qlenOnly
  | qlenOnlyBitpacking
  deriving DecidableEq, Repr

structure Inputs where
  batchSize : Nat
  topk : Nat
  depth : Nat
  draftTokenNum : Nat
  treeMaskMode : TreeMaskMode
  parentList : Mem
  selectedIndex : Mem
  verifiedSeqLen : Nat → Nat

structure Buffers where
  treeMask : Int → Bool
  positions : Mem
  retriveIndex : Mem
  retriveNextToken : Mem
  retriveNextSibling : Mem

variable (x : Inputs)

/-! ## The kernel -/

def seqTreeIdx (bid : Nat) : Int :=
  (List.range bid).foldl (fun acc (i : Nat) => acc + x.verifiedSeqLen i * x.draftTokenNum)
    (x.draftTokenNum * x.draftTokenNum * bid)

def tokenTreeIdx (bid tid : Nat) : Int :=
  if x.treeMaskMode = .fullMask then
    seqTreeIdx x bid + (x.verifiedSeqLen bid + x.draftTokenNum) * tid + x.verifiedSeqLen bid + 1
  else x.draftTokenNum * x.draftTokenNum * bid + x.draftTokenNum * tid + 1

/-- `selected_index` of the request's candidate `j`. -/
def selectedAt (bid j : Nat) : Int := x.selectedIndex ((bid * (x.draftTokenNum - 1) : Nat) + j)

/-- `parent_list` of the request at `parent_tb_idx`. -/
def parentAt (bid : Nat) (parentTbIdx : Int) : Int :=
  x.parentList ((bid * (x.topk * (x.depth - 1) + 1) : Nat) + parentTbIdx)

/-- The search loop from candidate `p` on: where it stops, and whether it found the token.
    It runs one past the row, into the next request's. -/
def scan (bid : Nat) (tokenIdx : Int) : Nat → Nat → Nat × Bool
  | 0, p => (p, false)
  | n + 1, p => if selectedAt x bid p = tokenIdx then (p, true) else scan bid tokenIdx n (p + 1)

variable (bid i : Nat)

def parentPosition : Nat :=
  let parentTbIdx := (selectedAt x bid (i - 1)).tdiv x.topk
  if 0 < parentTbIdx then
    let (p, found) := scan x bid (parentAt x bid parentTbIdx) x.draftTokenNum 0
    if found then p + 1 else p
  else 0

/-- One round of the link loop of thread 0; a node whose parent is not selected is left out. -/
def linkNode (s : Buffers) : Buffers :=
  let s := { s with retriveIndex := upd s.retriveIndex (bid * x.draftTokenNum + i) (bid * x.draftTokenNum + i) }
  let parent := parentPosition x bid i
  if parent = x.draftTokenNum then s
  else
    let origin := s.retriveNextToken (bid * x.draftTokenNum + parent)
    { s with
      retriveNextToken := upd s.retriveNextToken (bid * x.draftTokenNum + parent) i
      retriveNextSibling :=
        if origin = -1 then s.retriveNextSibling else upd s.retriveNextSibling (bid * x.draftTokenNum + i) origin }

/-- The link loop: nodes `i, i - 1, .., 1`. -/
def linkNodes (bid : Nat) : Nat → Buffers → Buffers
  | 0, s => s
  | i + 1, s => linkNodes bid i (linkNode x bid (i + 1) s)

/-- The loop of the other threads: the position counted and the mask set on the way up. -/
def climb (bid : Nat) (tokenTreeIdx : Int) : Nat → Nat → Nat → (Int → Bool) → Option (Nat × (Int → Bool))
  | 0, _, _, _ => none
  | fuel + 1, position, cur, mask =>
    let mask := upd mask (tokenTreeIdx + cur) true
    let parentTbIdx := (selectedAt x bid cur).tdiv x.topk
    if parentTbIdx = 0 then some (position + 1, mask)
    else climb bid tokenTreeIdx fuel (position + 1) (scan x bid (parentAt x bid parentTbIdx) x.draftTokenNum 0).1 mask

def thread (fuel bid tid : Nat) (s : Buffers) : Option Buffers :=
  if x.draftTokenNum ≤ tid then some s
  else
    let idx := tokenTreeIdx x bid tid
    let mask := fill (upd s.treeMask (idx - 1) true) idx (x.draftTokenNum - 1) false
    if tid = 0 then
      let s := linkNodes x bid (x.draftTokenNum - 1)
        { s with treeMask := mask, positions := upd s.positions (bid * x.draftTokenNum) (x.verifiedSeqLen bid) }
      some { s with retriveIndex := upd s.retriveIndex (bid * x.draftTokenNum) (bid * x.draftTokenNum) }
    else do
      let (position, mask) ← climb x bid idx fuel 0 (tid - 1) mask
      some { s with
        treeMask := mask
        positions := upd s.positions (bid * x.draftTokenNum + tid) (position + x.verifiedSeqLen bid) }

/-- `build_tree_efficient` over the grid, the threads in the given order. -/
def buildTreeEfficient (fuel : Nat) (order : List (Fin x.batchSize × Fin x.draftTokenNum)) (s : Buffers) : Option Buffers :=
  launch (fun bt => thread x fuel bt.1 bt.2) order s

/-! ## The torch fallback -/

/-- `selected_index[bid][j]`; an index past the row raises. -/
def nativeSelectedAt (bid j : Nat) : Option Int :=
  if j < x.draftTokenNum - 1 then some (selectedAt x bid j) else none

def nativeScan (bid : Nat) (tokenIdx : Int) : Nat → Nat → Option (Nat × Bool)
  | 0, p => some (p, false)
  | n + 1, p => do
    let sel ← nativeSelectedAt x bid p
    if sel = tokenIdx then some (p, true) else nativeScan bid tokenIdx n (p + 1)

def nativeParentPosition : Option Nat := do
  let sel ← nativeSelectedAt x bid (i - 1)
  let parentTbIdx := sel / x.topk
  if 0 < parentTbIdx then do
    let (p, found) ← nativeScan x bid (parentAt x bid parentTbIdx) x.draftTokenNum 0
    some (if found then p + 1 else p)
  else some 0

def nativeLinkNode (s : Buffers) : Option Buffers := do
  let parent ← nativeParentPosition x bid i
  if parent = x.draftTokenNum then some s
  else
    let origin := s.retriveNextToken (bid * x.draftTokenNum + parent)
    some { s with
      retriveNextSibling :=
        if origin ≠ -1 then upd s.retriveNextSibling (bid * x.draftTokenNum + i) origin else s.retriveNextSibling
      retriveNextToken := upd s.retriveNextToken (bid * x.draftTokenNum + parent) i }

def nativeLinkNodes (bid : Nat) : Nat → Buffers → Option Buffers
  | 0, s => some s
  | i + 1, s => do nativeLinkNodes bid i (← nativeLinkNode x bid (i + 1) s)

/-- The loop of the other nodes. Its branch for a position past the candidates is never
    taken: the search raises before. -/
def nativeClimb (bid : Nat) : Nat → Nat → Nat → Option Nat
  | 0, _, _ => none
  | fuel + 1, position, cur => do
    let sel ← nativeSelectedAt x bid cur
    let parentTbIdx := sel / x.topk
    if parentTbIdx = 0 then some (position + 1)
    else
      let (p, _) ← nativeScan x bid (parentAt x bid parentTbIdx) x.draftTokenNum 0
      nativeClimb bid fuel (position + 1) p

def nativeNode (fuel bid tid : Nat) (s : Buffers) : Option Buffers :=
  if tid = 0 then nativeLinkNodes x bid (x.draftTokenNum - 1) s
  else do
    let position ← nativeClimb x bid fuel 0 (tid - 1)
    some { s with
      positions := upd s.positions (bid * x.draftTokenNum + tid) (s.positions (bid * x.draftTokenNum + tid) + position) }

/-- Assignment of one value to the indexed cells of the mask. -/
def setCells (cells : List Int) (v : Bool) (mask : Int → Bool) : Int → Bool := fun c => if c ∈ cells then v else mask c

/-- The nodes of the batch, in the order of the nested loops. -/
def nodes : List (Fin x.batchSize × Fin x.draftTokenNum) :=
  (List.finRange x.batchSize).flatMap fun b => (List.finRange x.draftTokenNum).map fun t => (b, t)

def tokenTreeIndices : List Int := (nodes x).map fun bt => tokenTreeIdx x bt.1 bt.2

/-- The mask before the loops; nothing in them changes it. -/
def nativeMask (mask : Int → Bool) : Int → Bool :=
  let indices := (tokenTreeIndices x).flatMap fun idx : Int => (List.range (x.draftTokenNum - 1)).map fun i : Nat => idx +
    (i : Int)
  setCells indices true (setCells indices false (setCells ((tokenTreeIndices x).map (· - 1)) true mask))

/-- The flat index of `retrive_index[b][i]` is its value. -/
def buildTreeEfficientNative (fuel : Nat) (s : Buffers) : Option Buffers :=
  if x.draftTokenNum = 2 ∧ x.topk = 1 ∧ x.treeMaskMode = .fullMask then
    some { s with
      positions := fun c => x.verifiedSeqLen (c / 2).toNat + c % 2
      retriveIndex := id
      retriveNextToken := fun c => if c % 2 = 0 then 1 else -1 }
  else
    launch (fun bt => nativeNode x fuel bt.1 bt.2) (nodes x)
      { s with
        treeMask := nativeMask x s.treeMask
        positions := fun c => x.verifiedSeqLen (c / x.draftTokenNum).toNat
        retriveIndex := id }

end DynaSpec.Speculative.BuildTree
