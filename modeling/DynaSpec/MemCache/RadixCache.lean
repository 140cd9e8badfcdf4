/-
  DynaSpec.MemCache.RadixCache — the radix tree of the KV cache (radix_cache.py).

  The tree is a heap of `TreeNode` objects with parent pointers and child dictionaries, as
  in the source. Node objects are named by the value of `TreeNode.counter` they were given.
  A call that raises is an `Except.error`; a `while` loop runs at most as many turns as
  there are nodes (or tokens) and answers `outOfFuel` past that.
-/

import DynaSpec.Lib.Dict
import DynaSpec.Lib.Grid
import DynaSpec.Lib.Heapq
import DynaSpec.Lib.Leaves

namespace DynaSpec.MemCache

open DynaSpec.Lib Heapq

inductive PyError where
  | valueError | indexError | keyError | attributeError | assertionError | unboundLocalError
  | runtimeError | typeError | outOfFuel
deriving DecidableEq, Repr

/-! ## Keys -/

/-- A token id, or the pair that the EAGLE cache uses in its place. -/
inductive Token where
  | id (n : Nat)
  | bigram (fst snd : Token)
deriving DecidableEq, Repr

structure RadixKey where
  tokenIds : List Token
  extraKey : Option String := none
deriving DecidableEq, Repr

namespace RadixKey

def len (key : RadixKey) : Nat := key.tokenIds.length

/-- The slice `key[:n]`. -/
def upto (key : RadixKey) (n : Nat) : RadixKey := ⟨key.tokenIds.take n, key.extraKey⟩

/-- The slice `key[n:]`. -/
def from_ (key : RadixKey) (n : Nat) : RadixKey := ⟨key.tokenIds.drop n, key.extraKey⟩

end RadixKey

inductive PlainKey where
  | token (t : Token)
  | page (ts : List Token)
deriving DecidableEq, Repr

/-- What a node's `children` are looked up by. -/
inductive ChildKey where
  | plain (key : PlainKey)
  | tagged (extraKey : String) (key : PlainKey)
deriving DecidableEq, Repr

def checkExtraKey (key0 key1 : RadixKey) : Except PyError Unit :=
  if key0.extraKey ≠ key1.extraKey then .error .valueError else .ok ()

def commonLen : List Token → List Token → Nat
  | k0 :: key0, k1 :: key1 => if k0 ≠ k1 then 0 else commonLen key0 key1 + 1
  | _, _ => 0

def keyMatchPageSize1 (key0 key1 : RadixKey) : Except PyError Nat := do
  checkExtraKey key0 key1
  return commonLen key0.tokenIds key1.tokenIds

variable (pageSize : Nat)

/-- The slice `l[i : i + page_size]`. -/
def pageAt (l : List Token) (i : Nat) : List Token := (l.drop i).take pageSize

def keyMatchPaged (key0 key1 : RadixKey) : Except PyError Nat := do
  checkExtraKey key0 key1
  let minLen := min key0.len key1.len
  whileLoop .outOfFuel
    (fun i => decide (i < minLen ∧ pageAt pageSize key0.tokenIds i = pageAt pageSize key1.tokenIds i))
    (fun i => .ok (i + pageSize)) minLen 0

def getChildKey (key : RadixKey) : Except PyError ChildKey := do
  let plainKey ←
    if pageSize = 1 then
      match key.tokenIds with
      | t :: _ => .ok (PlainKey.token t)
      | [] => .error .indexError
    else .ok (PlainKey.page (key.tokenIds.take pageSize))
  match key.extraKey with
  | none => return .plain plainKey
  | some extraKey => return .tagged extraKey plainKey

def keyMatchFn : RadixKey → RadixKey → Except PyError Nat :=
  if pageSize = 1 then keyMatchPageSize1 else keyMatchPaged pageSize

def convertToBigramKey (tokens : List Token) : List Token :=
  match tokens with
  | [] | [_] => []
  | .bigram _ _ :: _ => tokens
  | _ :: rest => List.zipWith Token.bigram tokens rest

/-! ## Nodes and the cache -/

abbrev NodeId := Nat

structure TreeNode where
  children : Dict ChildKey NodeId := Dict.empty
  parent : Option NodeId := none
  key : RadixKey := ⟨[], none⟩
  value : List Nat := []
  lockRef : Int := 0
  lastAccessTime : Int := 0
  creationTime : Int := 0
  hitCount : Nat := 0

inductive EvictionStrategy where
  | lru | lfu | fifo | mru | filo
deriving DecidableEq, Repr

/-- A priority is compared as a tuple; a number stands for the tuple of it alone. -/
def EvictionStrategy.getPriority : EvictionStrategy → TreeNode → List Int
  | .lru, node => [node.lastAccessTime]
  | .lfu, node => [node.hitCount, node.lastAccessTime]
  | .fifo, node => [node.creationTime]
  | .mru, node => [-node.lastAccessTime]
  | .filo, node => [-node.creationTime]

inductive KvEvent where
  | blockStored (blockHashes : List Int) (parentBlockHash : Option Int) (tokenIds : List Token) (blockSize : Nat)
  | blockRemoved (blockHashes : List Int)
  | allBlocksCleared
deriving DecidableEq, Repr

/-- What a cache is constructed with, and the clock and hash function it runs on. -/
structure Config where
  pageSize : Nat
  disable : Bool := false
  enableKvCacheEvents : Bool := false
  evictionStrategy : EvictionStrategy := .lru
  isEagle : Bool := false
  /-- The values that the successive calls of `time.monotonic` give. -/
  monotonic : Nat → Int
  /-- Python's `hash` of a tuple of tokens. -/
  hash : List Token → Int

structure RadixCache where
  node : NodeId → TreeNode
  counter : Nat
  readings : Nat
  rootNode : NodeId
  evictableSize : Int
  protectedSize : Int
  kvEventQueue : List KvEvent

namespace RadixCache

def modify (s : RadixCache) (n : NodeId) (f : TreeNode → TreeNode) : RadixCache :=
  { s with node := upd s.node n (f (s.node n)) }

def keyConvertFn (cfg : Config) (tokens : List Token) : List Token :=
  if cfg.isEagle then convertToBigramKey tokens else tokens

variable (cfg : Config)

variable (s : RadixCache)

/-- The constructor of `TreeNode`, which reads the clock for each of its two times. -/
def newTreeNode : RadixCache × NodeId :=
  ({ s with
      node := upd s.node s.counter
        { lastAccessTime := cfg.monotonic s.readings, creationTime := cfg.monotonic (s.readings + 1) }
      counter := s.counter + 1
      readings := s.readings + 2 },
   s.counter)

/-! ## Events -/

variable (key : RadixKey)

/-- The pages that an event is recorded for. -/
def eventPages : List (List Token) :=
  ((List.range' 0 ((key.len + cfg.pageSize - 1) / cfg.pageSize) cfg.pageSize).map
    (pageAt cfg.pageSize key.tokenIds)).filter (· ≠ [])

def storeEvents (parentBlockHash : Option Int) : List (List Token) → List KvEvent
  | [] => []
  | pageTokens :: pages =>
    let blockHash := cfg.hash pageTokens
    .blockStored [blockHash] parentBlockHash pageTokens pageTokens.length :: storeEvents (some blockHash) pages

variable (n : NodeId)

def recordStoreEvent : RadixCache :=
  if cfg.enableKvCacheEvents then
    let node := s.node n
    let parentBlockHash := match node.parent with
      | none => none
      | some p =>
        if n ≠ s.rootNode then none
        else
          let key := (s.node p).key
          some (cfg.hash (key.tokenIds.drop ((key.len - 1) / cfg.pageSize * cfg.pageSize)))
    { s with kvEventQueue := s.kvEventQueue ++ storeEvents cfg parentBlockHash (eventPages cfg node.key) }
  else s

def recordRemoveEvent : RadixCache :=
  if cfg.enableKvCacheEvents then
    { s with kvEventQueue :=
        s.kvEventQueue ++ (eventPages cfg (s.node n).key).map fun pageTokens => .blockRemoved [cfg.hash pageTokens] }
  else s

def recordAllClearedEvent : RadixCache :=
  if cfg.enableKvCacheEvents then { s with kvEventQueue := s.kvEventQueue ++ [.allBlocksCleared] } else s

/-! ## Construction -/

def reset : RadixCache :=
  let (s, root) := newTreeNode cfg s
  let s := s.modify root fun n => { n with key := ⟨[], none⟩, value := [], lockRef := 1 }
  recordAllClearedEvent cfg { s with rootNode := root, evictableSize := 0, protectedSize := 0 }

/-- What the constructor starts from: no node was made and the clock was not read. -/
def blank : RadixCache where
  node := fun _ => {}
  counter := 0
  readings := 0
  rootNode := 0
  evictableSize := 0
  protectedSize := 0
  kvEventQueue := []

def init : RadixCache := reset cfg blank

/-! ## Walking down -/

def splitNode (child : NodeId) (splitLen : Nat) :
    Except PyError (RadixCache × NodeId) := do
  -- new_node -> child
  let s := recordRemoveEvent cfg s child
  let (s, newNode) := newTreeNode cfg s
  let restKey ← getChildKey cfg.pageSize (key.from_ splitLen)
  let old := s.node child
  let s := s.modify newNode fun n =>
    { n with
      children := Dict.empty.set restKey child
      parent := old.parent
      lockRef := old.lockRef
      key := old.key.upto splitLen
      value := old.value.take splitLen }
  let s := s.modify child fun n =>
    { n with parent := some newNode, key := n.key.from_ splitLen, value := n.value.drop splitLen }
  match old.parent with
  | none => .error .attributeError
  | some parent =>
    let firstKey ← getChildKey cfg.pageSize key
    let s := s.modify parent fun n => { n with children := n.children.set firstKey newNode }
    return (recordStoreEvent cfg (recordStoreEvent cfg s newNode) child, newNode)

/-- The variables of the two loops that walk down from the root. `key` is what is left of
    the key. -/
structure Walk where
  cache : RadixCache
  node : NodeId
  key : RadixKey
  childKey : ChildKey
  /-- The values met, one for each node (`_match_prefix_helper` only). -/
  value : List (List Nat) := []
  /-- Set when the loop is left by `break` (`_match_prefix_helper` only). -/
  broke : Bool := false
  /-- What is left of the inserted value and the length matched (`_insert_helper` only). -/
  rest : List Nat := []
  totalPrefixLength : Nat := 0

def touch (accessTime : Int) : RadixCache :=
  s.modify n fun node => { node with lastAccessTime := accessTime }

/-- Both loops go on while there is key left and a child to take it to. -/
def Walk.goesOn (w : Walk) : Bool :=
  !w.broke && decide (0 < w.key.len) && ((w.cache.node w.node).children.get? w.childKey).isSome

def nextChildKey (childKey : ChildKey) : Except PyError ChildKey :=
  if 0 < key.len then getChildKey cfg.pageSize key else .ok childKey

def matchStep (accessTime : Int) (w : Walk) : Except PyError Walk :=
  match (w.cache.node w.node).children.get? w.childKey with
  | none => .error .keyError
  | some child => do
    let s := w.cache.touch child accessTime
    let prefixLen ← keyMatchFn cfg.pageSize (s.node child).key w.key
    if prefixLen < (s.node child).key.len then
      let (s, newNode) ← splitNode cfg s (s.node child).key child prefixLen
      return { w with cache := s, node := newNode, value := w.value ++ [(s.node newNode).value], broke := true }
    else
      let key := w.key.from_ prefixLen
      let childKey ← nextChildKey cfg key w.childKey
      return { w with cache := s, node := child, key, childKey, value := w.value ++ [(s.node child).value] }

def readClock : RadixCache × Int := ({ s with readings := s.readings + 1 }, cfg.monotonic s.readings)

variable (node : NodeId)

def matchPrefixHelper (key : RadixKey) : Except PyError Walk := do
  let (s, accessTime) := readClock cfg s
  let s := s.touch node accessTime
  let childKey ← getChildKey cfg.pageSize key
  whileLoop .outOfFuel Walk.goesOn (matchStep cfg accessTime) (key.len + 1) { cache := s, node, key, childKey }

structure MatchResult where
  deviceIndices : List Nat
  lastDeviceNode : NodeId

def pageAlign (n : Nat) : Nat := n / cfg.pageSize * cfg.pageSize

def matchPrefix : Except PyError (RadixCache × MatchResult) :=
  let key := { key with tokenIds := keyConvertFn cfg key.tokenIds }
  if cfg.disable ∨ key.len = 0 then .ok (s, ⟨[], s.rootNode⟩)
  else
    let key := if cfg.pageSize ≠ 1 then key.upto (pageAlign cfg key.len) else key
    if key.len = 0 then .ok (s, ⟨[], s.rootNode⟩)
    else do
      let w ← matchPrefixHelper cfg s s.rootNode key
      return (w.cache, ⟨w.value.flatten, w.node⟩)

def splitIfPartial (prefixLen : Nat) : Except PyError (RadixCache × NodeId) :=
  if prefixLen < (s.node node).key.len then splitNode cfg s (s.node node).key node prefixLen else .ok (s, node)

def insertStep (accessTime : Int) (w : Walk) : Except PyError Walk :=
  match (w.cache.node w.node).children.get? w.childKey with
  | none => .error .keyError
  | some node => do
    let s := w.cache.touch node accessTime
    let prefixLen ← keyMatchFn cfg.pageSize (s.node node).key w.key
    let key := w.key.from_ prefixLen
    let rest := w.rest.drop prefixLen
    let totalPrefixLength := w.totalPrefixLength + prefixLen
    let (s, node) ← splitIfPartial cfg s node prefixLen
    let childKey ← nextChildKey cfg key w.childKey
    return { w with cache := s, node, key, childKey, rest, totalPrefixLength }

/-- The end of `_insert_helper`: what is left of the key becomes a new leaf. -/
def addLeaf (w : Walk) : RadixCache :=
  if 0 < w.key.len then
    let (s, newNode) := newTreeNode cfg w.cache
    let s := s.modify newNode fun n => { n with parent := some w.node, key := w.key, value := w.rest }
    let s := s.modify w.node fun n => { n with children := n.children.set w.childKey newNode }
    recordStoreEvent cfg { s with evictableSize := s.evictableSize + w.key.len } newNode
  else w.cache

def insertHelper (key : RadixKey) (value : List Nat) :
    Except PyError (RadixCache × Nat) := do
  let (s, accessTime) := readClock cfg s
  let s := s.touch node accessTime
  if key.len = 0 then return (s, 0)
  else
    let childKey ← getChildKey cfg.pageSize key
    let w ← whileLoop .outOfFuel Walk.goesOn (insertStep cfg accessTime) (key.len + 1)
      { cache := s, node, key, childKey, rest := value }
    return (addLeaf cfg w, w.totalPrefixLength)

protected def insert (value : List Nat) : Except PyError (RadixCache × Nat) :=
  if cfg.disable then .ok (s, 0)
  else
    let key := { key with tokenIds := keyConvertFn cfg key.tokenIds }
    -- an EAGLE value is one longer than its bigram key
    let value := if cfg.isEagle then value.take key.len else value
    insertHelper cfg s s.rootNode key value

/-! ## Locks -/

structure LockWalk where
  cache : RadixCache
  node : Option NodeId
  delta : Int := 0

def LockWalk.goesOn (root : NodeId) (w : LockWalk) : Bool := decide (w.node ≠ some root)

def addLock (by_ : Int) : RadixCache :=
  s.modify n fun node => { node with lockRef := node.lockRef + by_ }

/-- Move the size of a node from evictable to protected. -/
def protect (size : Int) : RadixCache :=
  { s with evictableSize := s.evictableSize - size, protectedSize := s.protectedSize + size }

def incStep (w : LockWalk) : Except PyError LockWalk :=
  match w.node with
  | none => .error .attributeError
  | some n =>
    let node := w.cache.node n
    let size : Int := node.key.len
    let w := if node.lockRef = 0 then { w with cache := w.cache.protect size, delta := w.delta - size } else w
    .ok { w with cache := w.cache.addLock n 1, node := node.parent }

def incLockRef : Except PyError (RadixCache × Int) :=
  if cfg.disable then .ok (s, 0)
  else do
    let w ← whileLoop .outOfFuel (LockWalk.goesOn s.rootNode) incStep s.counter { cache := s, node := some node }
    return (w.cache, w.delta)

def decStep (w : LockWalk) : Except PyError LockWalk :=
  match w.node with
  | none => .error .attributeError
  | some n =>
    let node := w.cache.node n
    let size : Int := node.key.len
    let w := if node.lockRef = 1 then { w with cache := w.cache.protect (-size), delta := w.delta + size } else w
    match node.parent with
    -- the loop is at another node than the root: this request holds the node from another tree
    | none => .error .assertionError
    | some parent => .ok { w with cache := w.cache.addLock n (-1), node := some parent }

def decLockRef : Except PyError (RadixCache × Int) :=
  if cfg.disable then .ok (s, 0)
  else do
    let w ← whileLoop .outOfFuel (LockWalk.goesOn s.rootNode) decStep s.counter { cache := s, node := some node }
    return (w.cache, w.delta)

/-! ## Eviction -/

/-- `_collect_leaves`: the leaves without a lock, found from the children of the root on. -/
def collectLeaves : Except PyError (List NodeId) :=
  Lib.collectLeaves .indexError .outOfFuel (fun n => (s.node n).children.values) (fun n => (s.node n).lockRef = 0)
    s.counter s.rootNode

def deleteLeaf : Except PyError RadixCache :=
  match (s.node n).parent with
  | none => .error .attributeError
  | some parent =>
    let items := (s.node parent).children.items
    -- the loop variable keeps the last key when no entry is the node
    match (items.find? fun e => e.2 = n).or items.getLast? with
    | none => .error .unboundLocalError
    | some (k, _) =>
      let s := s.modify parent fun p => { p with children := p.children.erase k }
      .ok { s with evictableSize := s.evictableSize - (s.node n).key.len }

abbrev HeapEntry := List Int × NodeId

/-- Tuples compare by the priority and then by `TreeNode.__lt__`. -/
def tupleLt (lastAccessTime : NodeId → Int) (a b : HeapEntry) : Bool :=
  decide (a.1 < b.1 ∨ a.1 = b.1 ∧ a.2 ≠ b.2 ∧ lastAccessTime a.2 < lastAccessTime b.2)

def entryLt : HeapEntry → HeapEntry → Bool := tupleLt fun n => (s.node n).lastAccessTime

def heapEntry : HeapEntry := (cfg.evictionStrategy.getPriority (s.node n), n)

structure EvictLoop where
  cache : RadixCache
  heap : List HeapEntry
  numEvicted : Int := 0
  /-- The arguments of the calls of the allocator's `free`. -/
  freed : List (List Nat) := []

def EvictLoop.goesOn (numTokens : Int) (l : EvictLoop) : Bool := decide (l.numEvicted < numTokens ∧ l.heap ≠ [])

def evictStep (l : EvictLoop) : Except PyError EvictLoop :=
  match heappop l.cache.entryLt l.heap with
  | none => .error .indexError
  | some ((_, x), heap) => do
    let value := (l.cache.node x).value
    let s ← deleteLeaf l.cache x
    match (s.node x).parent with
    | none => .error .attributeError
    | some parent =>
      let heap :=
        if (s.node parent).children.items = [] ∧ (s.node parent).lockRef = 0 then
          heappush s.entryLt heap (heapEntry cfg s parent)
        else heap
      return { cache := recordRemoveEvent cfg s x, heap, numEvicted := l.numEvicted + value.length, freed := l.freed ++ [value] }

/-- The cache after `evict`, and what it gave to the allocator's `free`. -/
def evict (numTokens : Int) : Except PyError (RadixCache × List (List Nat)) :=
  if cfg.disable then .ok (s, [])
  else do
    let leaves ← collectLeaves s
    let heap := heapify s.entryLt (leaves.map (heapEntry cfg s))
    let l ← whileLoop .outOfFuel (EvictLoop.goesOn numTokens) (evictStep cfg) s.counter { cache := s, heap }
    return (l.cache, l.freed)

end RadixCache

end DynaSpec.MemCache
