/-
  DynaSpec.MemCache.HiRadixTree — the tree of the hierarchical cache (hiradix_cache.py) and the
  pool of host memory (memory_pool_host.py), as far as the host tier goes.

  A node has slots on the device (`value`), on the host (`hostValue`), or both. The root is
  node 0: `reset` sets the counter of the node ids back. Loops run at most as many turns as
  there are tokens or nodes for them and answer `outOfFuel` past that.
-/

import DynaSpec.MemCache.RadixKeys

namespace DynaSpec.MemCache.HiRadix

open DynaSpec.Lib RadixCache Heapq

abbrev Hash := String

structure TreeNode where
  children : Dict ChildKey NodeId := Dict.empty
  parent : Option NodeId := none
  key : RadixKey := ⟨[], none⟩
  value : Option (List Nat) := none
  lockRef : Int := 0
  lastAccessTime : Int := 0
  creationTime : Int := 0
  hitCount : Nat := 0
  /-- The operations that need the host slots of the node. -/
  hostRefCounter : Nat := 0
  hostValue : Option (List Nat) := none
  hashValue : Option (List Hash) := none

namespace TreeNode

def evicted (n : TreeNode) : Bool := n.value.isNone

/-- What the eviction strategies look at. -/
def usage (n : TreeNode) : MemCache.TreeNode :=
  { lastAccessTime := n.lastAccessTime, creationTime := n.creationTime, hitCount := n.hitCount }

end TreeNode

structure HiTree where
  node : NodeId → TreeNode
  counter : Nat
  readings : Nat

/-- The pool of host memory (memory_pool_host.py). -/
structure HostPool where
  freeSlots : List Nat
  pageSize : Nat

namespace HostPool

def alloc (p : HostPool) (needSize : Nat) : Except PyError (Option (List Nat) × HostPool) :=
  if needSize % p.pageSize ≠ 0 then .error .assertionError
  else if p.freeSlots.length < needSize then .ok (none, p)
  else .ok (some (p.freeSlots.take needSize), { p with freeSlots := p.freeSlots.drop needSize })

def free (p : HostPool) (indices : List Nat) : HostPool := { p with freeSlots := p.freeSlots ++ indices }

end HostPool

namespace HiTree

variable (s : HiTree) (n : NodeId)

def modify (f : TreeNode → TreeNode) : HiTree := { s with node := upd s.node n (f (s.node n)) }

def protectHost : HiTree := s.modify n fun node => { node with hostRefCounter := node.hostRefCounter + 1 }

def releaseHost : Except PyError HiTree :=
  if 0 < (s.node n).hostRefCounter then .ok (s.modify n fun node => { node with hostRefCounter := node.hostRefCounter - 1 })
  else .error .runtimeError

variable (cfg : Config)

variable (s : HiTree)

def newTreeNode : HiTree × NodeId :=
  ({ node := upd s.node s.counter { lastAccessTime := cfg.monotonic s.readings, creationTime := cfg.monotonic (s.readings + 1) }
     counter := s.counter + 1
     readings := s.readings + 2 },
   s.counter)

/-- `node.last_access_time = time.monotonic()` -/
def touch (n : NodeId) : HiTree :=
  { s.modify n (fun node => { node with lastAccessTime := cfg.monotonic s.readings }) with readings := s.readings + 1 }

def reset : HiTree :=
  let (s, root) := newTreeNode cfg { s with counter := 0 }
  s.modify root fun n => { n with key := ⟨[], none⟩, value := some [], hostValue := some [], lockRef := 1 }

/-- The hashes of a split node; the condition of the source is false of an empty list. -/
def splitHash (hashValue : Option (List Hash)) (pages : Nat) : Option (List Hash) × Option (List Hash) :=
  match hashValue with
  | some (h :: hs) => (some ((h :: hs).take pages), some ((h :: hs).drop pages))
  | other => (none, other)

def splitNode (key : RadixKey) (child : NodeId) (splitLen : Nat) : Except PyError (HiTree × NodeId) := do
  -- new_node -> child
  let (s, newNode) := newTreeNode cfg s
  let restKey ← getChildKey cfg.pageSize (key.from_ splitLen)
  let old := s.node child
  let hashes := splitHash old.hashValue (splitLen / cfg.pageSize)
  let s := s.modify newNode fun n =>
    { n with
      children := Dict.empty.set restKey child
      parent := old.parent
      lockRef := old.lockRef
      key := old.key.upto splitLen
      hitCount := old.hitCount
      value := old.value.map (List.take splitLen)
      hostValue := old.hostValue.map (List.take splitLen)
      hashValue := hashes.1 }
  let s := s.modify child fun n =>
    { n with
      value := n.value.map (List.drop splitLen)
      hostValue := n.hostValue.map (List.drop splitLen)
      hashValue := hashes.2
      parent := some newNode
      key := n.key.from_ splitLen }
  match old.parent with
  | none => .error .attributeError
  | some parent =>
    let firstKey ← getChildKey cfg.pageSize key
    return (s.modify parent fun n => { n with children := n.children.set firstKey newNode }, newNode)

/-! ## Inserting what was fetched into host memory -/

structure HostWalk where
  tree : HiTree
  node : NodeId
  key : RadixKey
  childKey : ChildKey
  hostValue : List Nat
  hashValue : List Hash
  matchedLength : Nat := 0

def HostWalk.goesOn (w : HostWalk) : Bool := decide (0 < w.key.len) && ((w.tree.node w.node).children.get? w.childKey).isSome

def splitIfPartial (node : NodeId) (prefixLen : Nat) : Except PyError (HiTree × NodeId) :=
  if prefixLen < (s.node node).key.len then splitNode cfg s (s.node node).key node prefixLen else .ok (s, node)

def insertHostStep (w : HostWalk) : Except PyError HostWalk :=
  match (w.tree.node w.node).children.get? w.childKey with
  | none => .error .keyError
  | some node => do
    let s := w.tree.touch cfg node
    let prefixLen ← keyMatchFn cfg.pageSize (s.node node).key w.key
    let key := w.key.from_ prefixLen
    let hostValue := w.hostValue.drop prefixLen
    let hashValue := w.hashValue.drop (prefixLen / cfg.pageSize)
    let (s, node) ← splitIfPartial cfg s node prefixLen
    let childKey ← nextChildKey cfg key w.childKey
    return ⟨s, node, key, childKey, hostValue, hashValue, w.matchedLength + prefixLen⟩

/-- What is left of the key becomes a node that is on the host only. -/
def addHostLeaf (w : HostWalk) : HiTree :=
  if 0 < w.key.len then
    let (s, newNode) := newTreeNode cfg w.tree
    let s := s.modify newNode fun n =>
      { n with parent := some w.node, key := w.key, value := none, hostValue := some w.hostValue, hashValue := some w.hashValue }
    s.modify w.node fun n => { n with children := n.children.set w.childKey newNode }
  else w.tree

def insertHelperHost (node : NodeId) (key : RadixKey) (hostValue : List Nat) (hashValue : List Hash) :
    Except PyError (HiTree × Nat) := do
  let s := s.touch cfg node
  if key.len = 0 then return (s, 0)
  else
    let childKey ← getChildKey cfg.pageSize key
    let w ← whileLoop .outOfFuel HostWalk.goesOn (insertHostStep cfg) key.len ⟨s, node, key, childKey, hostValue, hashValue, 0⟩
    return (addHostLeaf cfg w, w.matchedLength)

/-! ## Evicting from the host -/

def collectLeaves : Except PyError (List NodeId) :=
  Lib.collectLeaves .indexError .outOfFuel (fun n => (s.node n).children.values) (fun n => (s.node n).lockRef = 0) s.counter 0

def entryLt : HeapEntry → HeapEntry → Bool := tupleLt fun n => (s.node n).lastAccessTime

def heapEntry (n : NodeId) : HeapEntry := (cfg.evictionStrategy.getPriority (s.node n).usage, n)

structure HostEvict where
  tree : HiTree
  pool : HostPool
  heap : List HeapEntry
  numEvicted : Nat := 0
  broke : Bool := false

def HostEvict.goesOn (numTokens : Nat) (w : HostEvict) : Bool := !w.broke && decide (w.numEvicted < numTokens ∧ w.heap ≠ [])

/-- `del x.parent.children[k]`, with the key that the loop before it leaves in `k`. -/
def dropChild (parent x : NodeId) : Except PyError HiTree :=
  let items := (s.node parent).children.items
  match (items.find? fun e => e.2 = x).or items.getLast? with
  | none => .error .unboundLocalError
  | some (k, _) => .ok (s.modify parent fun p => { p with children := p.children.erase k })

def evictHostStep (w : HostEvict) : Except PyError HostEvict :=
  match heappop w.tree.entryLt w.heap with
  | none => .error .indexError
  | some ((_, x), heap) =>
    if x = 0 then .ok { w with heap, broke := true }
    -- only the host value of evicted nodes, unless a storage operation needs it
    else if !(w.tree.node x).evicted ∨ 0 < (w.tree.node x).hostRefCounter then .ok { w with heap }
    else
      match (w.tree.node x).hostValue, (w.tree.node x).parent with
      | none, _ => .error .typeError
      | some _, none => .error .attributeError
      | some hostValue, some parent => do
        let s ← dropChild w.tree parent x
        let heap :=
          if (s.node parent).children.items = [] ∧ (s.node parent).evicted then
            heappush s.entryLt heap (heapEntry cfg s parent)
          else heap
        return { tree := s, pool := w.pool.free hostValue, heap, numEvicted := w.numEvicted + hostValue.length }

def evictHost (pool : HostPool) (numTokens : Nat) : Except PyError (HiTree × HostPool) := do
  let leaves ← collectLeaves s
  let heap := heapify s.entryLt (leaves.map (heapEntry cfg s))
  let w ← whileLoop .outOfFuel (HostEvict.goesOn numTokens) (evictHostStep cfg) (2 * s.counter) { tree := s, pool, heap }
  return (w.tree, w.pool)

end HiTree

end DynaSpec.MemCache.HiRadix
