/-
  DynaSpec.Speculative.Ngram — the n-gram draft cache (srt/speculative/cpp_ngram/ngram.h,
  ngram.cpp, param.h): the trie of token branches with its node pool, and the two matchers
  that turn it into a draft tree with its attention mask.

  A pointer is the index of a node in `nodes_`. A list iterator kept in a node is the place
  of that node in the list, which holds it once. An exception of the source is `thrown`; an
  access outside a container, which the source does not check, is `outOfBounds`.

  The matchers compute breadths and probabilities with floating point numbers; they are
  any type with the operations used. In which order an `unordered_map` is iterated and
  which of several maximal entries a `priority_queue` gives first is not fixed by the
  source, so both are parameters.
-/

import DynaSpec.Lib.Dict
import DynaSpec.Lib.Grid
import DynaSpec.Lib.While
import Mathlib.Data.List.Sort

namespace DynaSpec.Speculative.Ngram

open DynaSpec.Lib

abbrev Token := Int

abbrev NodePtr := Nat

inductive Failure where
  | thrown (what : String)
  | outOfBounds
  deriving DecidableEq, Repr

def require (cond : Bool) (what : String) : Except Failure Unit := if cond then .ok () else .error (.thrown what)

/-! ## Parameters -/

inductive MatchType where
  | bfs
  | prob
  deriving DecidableEq, Repr

/-- An entry of the two tables by batch size is `none` where the source has the largest `size_t`. -/
structure Param where
  minBfsBreadth : Nat := 1
  maxBfsBreadth : Nat := 8
  minMatchWindowSize : Nat := 1
  maxMatchWindowSize : Nat := 10
  branchLength : Nat := 18
  draftTokenNum : Nat := 8
  matchType : MatchType := .bfs
  batchMinMatchWindowSize : List (Option Nat) := []
  batchDraftTokenNum : List (Option Nat) := []

namespace Param

def getDraftTokenNum (p : Param) (batchSize : Nat) : Nat :=
  match p.batchDraftTokenNum[batchSize]? with
  | some (some n) => n
  | _ => p.draftTokenNum - 1

/-- The checks of the constructor. -/
def check (p : Param) : Except Failure Unit := do
  require (1 < p.branchLength)
    ("param_.branch_length must be greater than 1, current value: " ++ toString p.branchLength)
  require (0 < p.minMatchWindowSize)
    ("min_match_window_size must be greater than 0, current value: " ++ toString p.minMatchWindowSize)
  require (p.minMatchWindowSize ≤ p.maxMatchWindowSize)
    ("min_match_window_size must be less than or equal to max_match_window_size, current min_match_window_size: " ++
      toString p.minMatchWindowSize ++ ", max_match_window_size: " ++ toString p.maxMatchWindowSize)
  require (p.maxMatchWindowSize < p.branchLength)
    ("max_match_window_size must be less than branch_length, current max_match_window_size: " ++
      toString p.maxMatchWindowSize ++ ", branch_length: " ++ toString p.branchLength)
  require (0 < p.minBfsBreadth)
    ("min_bfs_breadth must be greater than 0, current value: " ++ toString p.minBfsBreadth)
  require (p.minBfsBreadth ≤ p.maxBfsBreadth)
    ("min_bfs_breadth must be less than or equal to max_bfs_breadth, current min_bfs_breadth: " ++
      toString p.minBfsBreadth ++ ", max_bfs_breadth: " ++ toString p.maxBfsBreadth)
  require (0 < p.draftTokenNum)
    ("draft_token_num must be greater than 0, current value: " ++ toString p.draftTokenNum)
  p.batchDraftTokenNum.reduceOption.forM fun config =>
    require (config ≤ p.draftTokenNum)
      ("batch_draft_token_num config value " ++ toString config ++ " must be less than or equal to draft_token_num: " ++
        toString p.draftTokenNum)
  p.batchMinMatchWindowSize.reduceOption.forM fun config => do
    require (p.minMatchWindowSize ≤ config)
      ("batch_min_match_window_size config value " ++ toString config ++
        " must be greater than or equal to min_match_window_size: " ++ toString p.minMatchWindowSize)
    require (config ≤ p.maxMatchWindowSize)
      ("batch_min_match_window_size config value " ++ toString config ++
        " must be less than or equal to max_match_window_size: " ++ toString p.maxMatchWindowSize)

end Param

/-! ## The trie -/

structure TrieNode where
  child : Dict Token NodePtr := Dict.empty
  token : Token := 0
  parent : NodePtr := 0
  lru : List NodePtr := []
  freq : Nat := 0
  sortedChildren : List NodePtr := []

/-- `CompareByFreq`: more frequent first, then by token and address. -/
def compareByFreq (nodes : NodePtr → TrieNode) (a b : NodePtr) : Bool :=
  (nodes b).freq < (nodes a).freq ∨ (nodes b).freq = (nodes a).freq ∧
    ((nodes a).token < (nodes b).token ∨ (nodes a).token = (nodes b).token ∧ a < b)

variable (nodes : NodePtr → TrieNode) (n : NodePtr) (l : List NodePtr)

/-- `multiset::insert`. -/
def sortedInsert : List NodePtr :=
  l.orderedInsert (fun a b => compareByFreq nodes a b) n

/-- `multiset::erase` of a key: the elements that compare neither way. -/
def sortedErase : List NodePtr :=
  l.filter fun m => compareByFreq nodes m n || compareByFreq nodes n m

/-- The members of `Ngram` that its trie consists of; `capacity` is the size of `nodes_`. -/
structure Trie where
  capacity : Nat
  nodes : NodePtr → TrieNode
  nodePool : List NodePtr
  freeNodeCount : Nat
  globalLru : List NodePtr
  root : NodePtr

namespace Trie

def getNode (t : Trie) : Except Failure (Trie × NodePtr) :=
  match t.freeNodeCount with
  | 0 => .error .outOfBounds
  | k + 1 =>
    match t.nodePool[k]? with
    | none => .error .outOfBounds
    | some node => .ok ({ t with freeNodeCount := k, nodes := upd t.nodes node {} }, node)

/-- `reset`: every node back to the pool, then a root. The other nodes keep what they hold. -/
def restart (capacity : Nat) (nodes : NodePtr → TrieNode) : Except Failure Trie := do
  let (t, root) ← getNode
    { capacity, nodes, nodePool := List.range capacity, freeNodeCount := capacity, globalLru := [], root := 0 }
  .ok { t with root }

def reset (t : Trie) : Except Failure Trie := restart t.capacity t.nodes

/-- One round of the loop of `squeeze`. -/
def release (t : Trie) : Except Failure Trie :=
  match t.globalLru.getLast? with
  | none => .error .outOfBounds
  | some last =>
    if (t.nodes last).child.items ≠ [] then
      .error (.thrown "The node to be released still has child nodes and cannot be released. ")
    else if t.nodePool.length ≤ t.freeNodeCount then .error .outOfBounds
    else
      let parent := t.nodes (t.nodes last).parent
      .ok { t with
        globalLru := t.globalLru.dropLast
        nodes := upd t.nodes (t.nodes last).parent { parent with
          lru := parent.lru.erase last
          sortedChildren := sortedErase t.nodes last parent.sortedChildren
          child := parent.child.erase (t.nodes last).token }
        nodePool := t.nodePool.set t.freeNodeCount last
        freeNodeCount := t.freeNodeCount + 1 }

def releaseMany : Nat → Trie → Except Failure Trie
  | 0, t => .ok t
  | count + 1, t => do releaseMany count (← t.release)

def squeeze (t : Trie) (count : Nat) : Except Failure Trie := do
  require (t.freeNodeCount + count ≤ t.nodePool.length)
    ("Insufficient node size to release required nodes. available to release: " ++
      toString (t.nodePool.length - t.freeNodeCount) ++ ", required to release: " ++ toString count)
  releaseMany count t

/-- One token of a branch: the child of `cursor` for it, made or touched. -/
def advance (t : Trie) (cursor : NodePtr) (token : Token) : Except Failure (Trie × NodePtr) :=
  match (t.nodes cursor).child.get? token with
  | none => do
    let (t, node) ← t.getNode
    let nodes := upd t.nodes node { t.nodes node with token := token, parent := cursor, freq := 1 }
    let c := nodes cursor
    .ok ({ t with
      globalLru := t.globalLru ++ [node]
      nodes := upd nodes cursor { c with
        child := c.child.set token node
        lru := node :: c.lru
        sortedChildren := sortedInsert nodes node c.sortedChildren } }, node)
  | some node =>
    let erased := sortedErase t.nodes node (t.nodes cursor).sortedChildren
    let nodes := upd t.nodes node { t.nodes node with freq := (t.nodes node).freq + 1 }
    let c := nodes cursor
    .ok ({ t with
      nodes := upd nodes cursor { c with
        sortedChildren := sortedInsert nodes node erased
        lru := node :: c.lru.erase node } }, node)

/-- The walk down a branch from `cursor`; the nodes on the way are `path_`. -/
def descend (t : Trie) (cursor : NodePtr) : List Token → Except Failure (Trie × List NodePtr)
  | [] => .ok (t, [])
  | token :: branch => do
    let (t, node) ← t.advance cursor token
    let (t, path) ← t.descend node branch
    .ok (t, node :: path)

/-- `splice` of a list element to the front. -/
def spliceFront (l : List NodePtr) (n : NodePtr) : List NodePtr := n :: l.erase n

/-- The nodes missing for a branch are squeezed out. -/
def makeRoom (t : Trie) (size : Nat) : Except Failure Trie :=
  if t.freeNodeCount < size then t.squeeze (size - t.freeNodeCount) else .ok t

/-- The body of the loop of `insert` over the starts of the branches. -/
def insertBranch (t : Trie) (branch : List Token) : Except Failure Trie := do
  let t ← t.makeRoom branch.length
  let (t, path) ← t.descend t.root branch
  .ok { t with globalLru := path.reverse.foldl spliceFront t.globalLru }

/-- The branches of a token sequence, in the order in which they are inserted. -/
def branches (p : Param) (data : List Token) : List (List Token) :=
  (List.range (data.length - p.minMatchWindowSize)).map fun i => (data.drop i).take p.branchLength

/-- What the insert worker does with one item while it holds the lock. -/
def insert (p : Param) (t : Trie) (data : List Token) : Except Failure Trie := (branches p data).foldlM insertBranch t

/-- The constructor; the insert worker is started at its end. -/
def new (capacity : Nat) (p : Param) : Except Failure Trie := do
  let t ← restart capacity fun _ => {}
  p.check
  .ok t

/-- The walk of `match` down the child maps. -/
def find (t : Trie) (cursor : NodePtr) : List Token → Option NodePtr
  | [] => some cursor
  | token :: tokens => do t.find (← (t.nodes cursor).child.get? token) tokens

/-- `match`: the nodes of the suffixes of the history that are in the trie, longest first.
    The loop runs down to `param_.min_match_window_size`, not to the value for the batch size. -/
def «match» (p : Param) (t : Trie) (tokens : List Token) : List (NodePtr × Nat) :=
  (List.range' p.minMatchWindowSize (min tokens.length p.maxMatchWindowSize + 1 - p.minMatchWindowSize)).reverse.filterMap
    fun window => (t.find t.root (tokens.drop (tokens.length - window))).map fun cursor => (cursor, window)

end Trie

/-! ## The draft tree -/

/-- `Node` of the draft tree. -/
structure Node where
  next : Dict Token Nat := Dict.empty

/-- The draft tree as it is built, and the next position to give out. -/
structure Draft where
  tree : Nat → Node := fun _ => {}
  cursor : Nat := 1

/-- The position below `parent` for a token, new unless the token is already there. -/
def Draft.attach (d : Draft) (parent : Nat) (token : Token) : Draft × Nat :=
  match (d.tree parent).next.get? token with
  | some pos => (d, pos)
  | none =>
    ({ tree := upd d.tree parent { next := (d.tree parent).next.set token d.cursor }, cursor := d.cursor + 1 }, d.cursor)

section
variable {F : Type} [NatCast F] [Add F] [Sub F] [Mul F] [Div F]

/-- An entry of the queue of `matchBFS`: parent, breadth and node. -/
structure Pending (F : Type) where
  parent : Nat
  breadth : F
  node : NodePtr

/-- The loop over the recently used children of a node. -/
def visitLru (draftTokenNum : Nat) (t : Trie) (parent : Nat) (breadth : F) :
    Nat → List NodePtr → Draft × List (Pending F) → Draft × List (Pending F)
  | 0, _, s => s
  | _ + 1, [], s => s
  | i + 1, n :: lru, (d, queue) =>
    if d.cursor ≤ draftTokenNum then
      let (d, pos) := d.attach parent (t.nodes n).token
      visitLru draftTokenNum t parent breadth i lru (d, queue ++ [⟨pos, breadth, n⟩])
    else (d, queue)

variable (toInt : F → Int)

/-- One round of the queue loop of `matchBFS`. -/
def bfsRound (draftTokenNum : Nat) (t : Trie) (scale : F) : Draft × List (Pending F) → Draft × List (Pending F)
  | (d, []) => (d, [])
  | (d, front :: queue) =>
    visitLru draftTokenNum t front.parent (front.breadth - scale) (max 1 (toInt front.breadth)).toNat
      (t.nodes front.node).lru (d, queue)

variable (p : Param) (draftTokenNum fuel : Nat) (t : Trie)

/-- The queue loop for one matched node. -/
def bfsFrom (d : Draft) (node : NodePtr × Nat) : Except Unit Draft := do
  let scale : F := ((p.maxBfsBreadth - p.minBfsBreadth : Nat) : F) / ((p.maxMatchWindowSize - p.minMatchWindowSize + 1 : Nat) : F)
  let breadth : F := ((p.maxMatchWindowSize - node.2 : Nat) : F) * scale + (p.minBfsBreadth : F)
  let s ← whileLoop () (fun s : Draft × List (Pending F) => !s.2.isEmpty && decide (s.1.cursor ≤ draftTokenNum))
    (fun s => .ok (bfsRound toInt draftTokenNum t scale s)) fuel (d, [⟨0, breadth, node.1⟩])
  .ok s.1

def bfsDraft (tokens : List Token) : Except Unit Draft :=
  (t.match p tokens).foldlM (bfsFrom toInt p draftTokenNum fuel t) {}

/-- An entry of the heap of `matchProb`. -/
structure Weighted (F : Type) where
  parent : Nat
  node : NodePtr
  prob : F

/-- `priority_queue` over the probabilities: which entry is taken, and the entries left. -/
structure PriorityQueue (F : Type) [LT F] where
  pop : List (Weighted F) → Option (Weighted F × List (Weighted F))
  some_of_ne : ∀ l, l ≠ [] → ∃ e rest, pop l = some (e, rest)
  perm : ∀ {l e rest}, pop l = some (e, rest) → l.Perm (e :: rest)
  top : ∀ {l e rest}, pop l = some (e, rest) → ∀ x ∈ l, ¬ e.prob < x.prob

variable [LT F] [DecidableLT F]

/-- `addToHeap`: the first `top_k` of the sorted children, at least one if there is any. -/
def addToHeap (p : Param) (t : Trie) (heap : List (Weighted F)) (parent : Nat) (node : NodePtr) (prob : F) : List (Weighted F) :=
  let topk := (t.nodes node).sortedChildren.take (max 1 p.maxBfsBreadth)
  let sumFreq := topk.foldl (fun acc c => acc + ((t.nodes c).freq : F)) ((0 : Nat) : F)
  let sumFreq := if ((0 : Nat) : F) < sumFreq then sumFreq else ((1 : Nat) : F)
  heap ++ topk.map fun c => ⟨parent, c, ((t.nodes c).freq : F) / sumFreq * prob⟩

/-- One round of the heap loop of `matchProb`. -/
def probRound (pq : PriorityQueue F) (p : Param) (t : Trie) : Draft × List (Weighted F) → Draft × List (Weighted F)
  | (d, heap) =>
    match pq.pop heap with
    | none => (d, heap)
    | some (e, heap) =>
      let (d, pos) := d.attach e.parent (t.nodes e.node).token
      (d, addToHeap p t heap pos e.node e.prob)

variable (pq : PriorityQueue F) (p : Param) (draftTokenNum fuel : Nat) (t : Trie)

/-- The heap loop for one matched node; the heap is kept from node to node. -/
def probFrom (s : Draft × List (Weighted F))
    (node : NodePtr × Nat) : Except Unit (Draft × List (Weighted F)) :=
  whileLoop () (fun s : Draft × List (Weighted F) => !s.2.isEmpty && decide (s.1.cursor ≤ draftTokenNum))
    (fun s => .ok (probRound pq p t s)) fuel (s.1, addToHeap p t s.2 0 node.1 ((1 : Nat) : F))

def probDraft (tokens : List Token) : Except Unit Draft := do
  let s ← (t.match p tokens).foldlM (probFrom pq p draftTokenNum fuel t) ({}, [])
  .ok s.1

end

/-! ## The tokens and the mask -/

/-- In which order the map of each position is iterated. -/
structure Iteration where
  order : Nat → List (Token × Nat) → List (Token × Nat)
  perm : ∀ pos l, (order pos l).Perm l

structure Result where
  token : List Token
  mask : List Nat

/-- The locals of the breadth-first loop of `fillResult`. -/
structure Filling where
  token : List Token
  prevs : List Int
  queue : List (Token × Nat × Nat)

variable (it : Iteration) (tree : Nat → Node)

def entries (pos prev : Nat) : List (Token × Nat × Nat) :=
  (it.order pos (tree pos).next.items).map fun e => (e.1, e.2, prev)

def fillRound (s : Filling) : Filling :=
  match s.queue with
  | [] => s
  | (token, next, prev) :: queue =>
    { token := s.token ++ [token]
      prevs := s.prevs ++ [(prev : Int)]
      queue := queue ++ entries it tree next s.token.length }

/-- The zero padding. -/
def Filling.pad (draftTokenNum : Nat) (s : Filling) : Filling :=
  { s with
    token := s.token ++ List.replicate (draftTokenNum - s.token.length) 0
    prevs := s.prevs ++ List.replicate (draftTokenNum - s.token.length) 0 }

/-- `memcpy` within the mask. -/
def copyCells (m : Nat → Nat) (dst src count : Nat) : Nat → Nat :=
  fun c => if dst ≤ c ∧ c < dst + count then m (src + (c - dst)) else m c

/-- One round of the loop over the rows of the mask. -/
def maskRow (n : Nat) (prevs : List Int) (m : Nat → Nat) (i : Nat) : Nat → Nat :=
  let prev := prevs.getD i (-1)
  let m := if prev ≠ -1 then copyCells m (i * n) (prev.toNat * n) (prev.toNat + 1) else m
  upd m (i * n + i) 1

def fillMask (prevs : List Int) : List Nat :=
  let n := prevs.length
  (List.range (n * n)).map ((List.range n).foldl (maskRow n prevs) (upd (fun _ => 0) 0 1))

def fillResult (it : Iteration) (fuel : Nat) (lastToken : Token) (draftTokenNum : Nat) (tree : Nat → Node) (root : Nat) :
    Except Unit Result := do
  let s ← whileLoop () (fun s : Filling => !s.queue.isEmpty) (fun s => .ok (fillRound it tree s)) fuel
    { token := [lastToken], prevs := [-1], queue := entries it tree root 0 }
  let s := s.pad draftTokenNum
  .ok { token := s.token, mask := fillMask s.prevs }

section
variable {F : Type} [NatCast F] [Add F] [Sub F] [Mul F] [Div F] [LT F] [DecidableLT F]

/-- The draft tree of either matcher. -/
def draft (toInt : F → Int) (pq : PriorityQueue F) (p : Param) (fuel : Nat) (t : Trie) (batchSize : Nat) (tokens : List Token) :
    Except Unit Draft :=
  match p.matchType with
  | .bfs => bfsDraft toInt p (p.getDraftTokenNum batchSize) fuel t tokens
  | .prob => probDraft pq p (p.getDraftTokenNum batchSize) fuel t tokens

variable (toInt : F → Int) (pq : PriorityQueue F) (it : Iteration) (p : Param) (fuel : Nat) (t : Trie)

/-- `matchBFS` and `matchProb`; the last token of the history is undefined for an empty one. -/
def matchTokens (batchSize : Nat)
    (tokens : List Token) : Except Unit Result := do
  let d ← draft toInt pq p fuel t batchSize tokens
  match tokens.getLast? with
  | none => .error ()
  | some last => fillResult it fuel last (p.getDraftTokenNum batchSize + 1) d.tree 0

/-- The results of the requests one after the other. -/
def batchMatch
    (tokens : List (List Token)) : Except Unit Result :=
  tokens.foldlM (fun merged tks => do
    let res ← matchTokens toInt pq it p fuel t tokens.length tks
    .ok { token := merged.token ++ res.token, mask := merged.mask ++ res.mask }) { token := [], mask := [] }

end

end DynaSpec.Speculative.Ngram
