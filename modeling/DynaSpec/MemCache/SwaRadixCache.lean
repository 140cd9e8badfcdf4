/-
  DynaSpec.MemCache.SwaRadixCache — the radix tree for models with sliding-window layers
  (swa_radix_cache.py).

  Nodes are named as in `RadixCache`, the root is node 0. A node whose slots were freed for the
  sliding-window layers is a tombstone. An LRU list is the list of its nodes, the most recently
  used first; its dictionary has the same nodes, and its dummy head and tail are the ends of
  the list. Calls of the allocator are recorded in `freed`, in order.
-/

import DynaSpec.MemCache.RadixCache

namespace DynaSpec.MemCache.SwaRadix

open DynaSpec.Lib

structure TreeNode where
  children : Dict ChildKey NodeId := Dict.empty
  parent : Option NodeId := none
  key : RadixKey := ⟨[], none⟩
  value : List Nat := []
  swaTombstone : Bool := false
  fullLockRef : Int := 0
  swaLockRef : Int := 0
  swaUuid : Option Nat := none

structure Config where
  pageSize : Nat
  slidingWindowSize : Nat
  disable : Bool := false
  isEagle : Bool := false
  pageSize_pos : 0 < pageSize
  slidingWindowSize_pos : 0 < slidingWindowSize

inductive FreeCall where
  | free (indices : List Nat)
  | freeSwa (indices : List Nat)
deriving DecidableEq, Repr

/-! ## LRU lists -/

structure LruList where
  swa : Bool
  nodes : List NodeId := []

namespace LruList

variable (node : NodeId → TreeNode)

/-- `_add_node_after`; no node before it is the dummy head. -/
def addNodeAfter (old : Option NodeId) (new : NodeId) : List NodeId → List NodeId
  | [] => [new]
  | n :: nodes =>
    match old with
    | none => new :: n :: nodes
    | some old => if n = old then n :: new :: nodes else n :: addNodeAfter (some old) new nodes

variable (l : LruList) (n : NodeId)

/-- A tombstone must not be in the list of the sliding-window layers. -/
def bars : Bool := l.swa && (node n).swaTombstone

def resetNodeMru : Except PyError LruList :=
  if n ∉ l.nodes ∨ l.bars node n then .error .assertionError else .ok { l with nodes := addNodeAfter none n (l.nodes.erase n) }

def insertMru : Except PyError LruList :=
  if n ∈ l.nodes ∨ l.bars node n then .error .assertionError else .ok { l with nodes := addNodeAfter none n l.nodes }

def removeNode : Except PyError LruList :=
  if n ∉ l.nodes ∨ l.bars node n then .error .assertionError else .ok { l with nodes := l.nodes.erase n }

/-- The loop of `reset_node_and_parents_mru`. -/
structure Refresh where
  list : LruList
  prevNode : Option NodeId
  node : NodeId

def refreshStep (w : Refresh) : Except PyError Refresh :=
  match (node w.node).parent with
  | none => .error .attributeError
  | some parent =>
    if w.list.bars node w.node then .ok { w with node := parent }
    else if w.node ∉ w.list.nodes then .error .assertionError
    else .ok ⟨{ w.list with nodes := addNodeAfter w.prevNode w.node (w.list.nodes.erase w.node) }, some w.node, parent⟩

def resetNodeAndParentsMru (turns : Nat) (l : LruList) (n : NodeId) : Except PyError LruList := do
  let w ← whileLoop .outOfFuel (fun w : Refresh => decide (w.node ≠ 0)) (refreshStep node) turns ⟨l, none, n⟩
  return w.list

def lockRef : Int := if l.swa then (node n).swaLockRef else (node n).fullLockRef

def noLock : Bool := decide (l.lockRef node n ≤ 0)

def leafNoLock : Bool := l.noLock node n && decide ((node n).children.items = [])

def getLruNoLock (l : LruList) : Option NodeId := l.nodes.reverse.find? (l.noLock node)

def getLeafLruNoLock (l : LruList) : Option NodeId := l.nodes.reverse.find? (l.leafNoLock node)

/-- The nodes that were used after `n`, from the least recently used on. -/
def moreRecent : List NodeId := (l.nodes.takeWhile (· ≠ n)).reverse

def getPrevNoLock : Except PyError (Option NodeId) :=
  if n ∉ l.nodes then .error .assertionError else .ok ((l.moreRecent n).find? (l.noLock node))

def getPrevLeafNoLock : Except PyError (Option NodeId) :=
  if n ∉ l.nodes then .error .assertionError else .ok ((l.moreRecent n).find? (l.leafNoLock node))

def inList (l : LruList) : Option NodeId → Bool
  | none => false
  | some n => decide (n ∈ l.nodes)

end LruList

/-! ## The cache -/

structure SwaCache where
  node : NodeId → TreeNode
  counter : Nat
  swaUuidCounter : Nat
  fullEvictableSize : Int
  swaEvictableSize : Int
  fullProtectedSize : Int
  swaProtectedSize : Int
  fullLruList : LruList
  swaLruList : LruList
  freed : List FreeCall

namespace SwaCache

def modify (s : SwaCache) (n : NodeId) (f : TreeNode → TreeNode) : SwaCache := { s with node := upd s.node n (f (s.node n)) }

/-- A cache just after `reset`. -/
def new : SwaCache where
  node := upd (fun _ => {}) 0 { fullLockRef := 1, swaLockRef := 1 }
  counter := 1
  swaUuidCounter := 1
  fullEvictableSize := 0
  swaEvictableSize := 0
  fullProtectedSize := 0
  swaProtectedSize := 0
  fullLruList := { swa := false }
  swaLruList := { swa := true }
  freed := []

variable (cfg : Config)

def keyConvertFn (tokenIds : List Token) : List Token := if cfg.isEagle then convertToBigramKey tokenIds else tokenIds

def nextChildKey (key : RadixKey) (childKey : ChildKey) : Except PyError ChildKey :=
  if 0 < key.len then getChildKey cfg.pageSize key else .ok childKey

/-! ### Splitting a node -/

variable (s : SwaCache) (key : RadixKey) (child : NodeId) (splitLen : Nat)

/-- The nodes after `_split_node`. -/
def cutNode : Except PyError SwaCache := do
  let restKey ← getChildKey cfg.pageSize (key.from_ splitLen)
  let firstKey ← getChildKey cfg.pageSize key
  let old := s.node child
  match old.parent with
  | none => .error .attributeError
  | some parent =>
    let newNode := s.counter
    let s := { s with counter := s.counter + 1 }
    -- new_node -> child
    let s := s.modify newNode fun _ =>
      { children := Dict.empty.set restKey child
        parent := some parent
        swaTombstone := old.swaTombstone
        fullLockRef := old.fullLockRef
        swaLockRef := old.swaLockRef
        key := old.key.upto splitLen
        value := old.value.take splitLen
        -- parent inherits the swa_uuid from child for swa lock ref
        swaUuid := old.swaUuid }
    let s := s.modify child fun n =>
      { n with swaUuid := none, parent := some newNode, key := n.key.from_ splitLen, value := n.value.drop splitLen }
    return s.modify parent fun n => { n with children := n.children.set firstKey newNode }

/-- One of the lists after `_split_node`, with the parent behind the child. -/
def splitLru (node : NodeId → TreeNode) (l : LruList) (child newNode : NodeId) : Except PyError LruList := do
  let l ← l.removeNode node child
  let l ← l.insertMru node newNode
  l.insertMru node child

/-- The list of the sliding-window layers stays as it is for a tombstone. -/
def unlessTombstone (n : TreeNode) (l : LruList) (l' : Except PyError LruList) : Except PyError LruList :=
  if n.swaTombstone then .ok l else l'

def splitNode : Except PyError (SwaCache × NodeId) := do
  let newNode := s.counter
  let s ← cutNode cfg s key child splitLen
  let fullLruList ← splitLru s.node s.fullLruList child newNode
  let swaLruList ← unlessTombstone (s.node newNode) s.swaLruList (splitLru s.node s.swaLruList child newNode)
  return ({ s with fullLruList, swaLruList }, newNode)

/-! ### `match_prefix` -/

structure MatchWalk where
  cache : SwaCache
  node : NodeId
  key : RadixKey
  childKey : ChildKey
  value : List (List Nat) := []
  /-- Nothing stands for the infinity of a path without tombstones. -/
  matchLenSinceTombstone : Option Nat := none
  bestValueLen : Nat := 0
  bestLastNode : NodeId
  broke : Bool := false

def MatchWalk.goesOn (w : MatchWalk) : Bool :=
  !w.broke && decide (0 < w.key.len) && ((w.cache.node w.node).children.get? w.childKey).isSome

def reachesWindow (slidingWindowSize : Nat) (matchLen : Option Nat) : Bool :=
  matchLen.all fun len => decide (slidingWindowSize ≤ len)

/-- `match_len_since_tombstone` after a node with `len` slots. -/
def since (matchLen : Option Nat) (swaTombstone : Bool) (len : Nat) : Option Nat :=
  if swaTombstone then matchLen else matchLen.map (· + len)

/-- Update `best_value_len` and `best_last_node` if needed. -/
def noteTombstone (w : MatchWalk) (child : NodeId) : MatchWalk :=
  if (w.cache.node child).swaTombstone ∧ reachesWindow cfg.slidingWindowSize w.matchLenSinceTombstone then
    { w with bestValueLen := w.value.length, bestLastNode := w.node, matchLenSinceTombstone := some 0 }
  else w

def matchStep (w : MatchWalk) : Except PyError MatchWalk :=
  match (w.cache.node w.node).children.get? w.childKey with
  | none => .error .keyError
  | some child => do
    let w := noteTombstone cfg w child
    let prefixLen ← keyMatchFn cfg.pageSize (w.cache.node child).key w.key
    if prefixLen < (w.cache.node child).key.len then
      let (s, newNode) ← splitNode cfg w.cache (w.cache.node child).key child prefixLen
      return { w with
        cache := s
        node := newNode
        value := w.value ++ [(s.node newNode).value]
        matchLenSinceTombstone := since w.matchLenSinceTombstone (s.node newNode).swaTombstone (s.node newNode).value.length
        broke := true }
    else
      let key := w.key.from_ prefixLen
      let childKey ← nextChildKey cfg key w.childKey
      return { w with
        node := child
        key, childKey
        value := w.value ++ [(w.cache.node child).value]
        matchLenSinceTombstone := since w.matchLenSinceTombstone (w.cache.node child).swaTombstone
          (w.cache.node child).value.length }

/-- The case that the last node is fully matched. -/
def noteEnd (w : MatchWalk) : MatchWalk :=
  if reachesWindow cfg.slidingWindowSize w.matchLenSinceTombstone
    then { w with bestValueLen := w.value.length, bestLastNode := w.node } else w

variable (s : SwaCache) (n : NodeId)

def refreshLists : Except PyError SwaCache := do
  let fullLruList ← s.fullLruList.resetNodeAndParentsMru s.node s.counter n
  let swaLruList ← s.swaLruList.resetNodeAndParentsMru s.node s.counter n
  return { s with fullLruList, swaLruList }

def matchPrefixHelper (s : SwaCache) (key : RadixKey) : Except PyError (SwaCache × List (List Nat) × NodeId) := do
  let childKey ← getChildKey cfg.pageSize key
  let w ← whileLoop .outOfFuel MatchWalk.goesOn
    (matchStep cfg) key.len { cache := s, node := 0, key, childKey, bestLastNode := 0 }
  let w := noteEnd cfg w
  let s ← refreshLists w.cache w.bestLastNode
  return (s, w.value.take w.bestValueLen, w.bestLastNode)

/-- The key that is looked up. -/
def lookupKey (key : RadixKey) : RadixKey :=
  let key : RadixKey := ⟨keyConvertFn cfg key.tokenIds, key.extraKey⟩
  if cfg.pageSize = 1 then key else key.upto (key.len / cfg.pageSize * cfg.pageSize)

/-- The slots and the last node of the match. The length is tested before the key is cut to whole pages. -/
def matchPrefix (s : SwaCache) (key : RadixKey) : Except PyError (SwaCache × List Nat × NodeId) :=
  if cfg.disable ∨ (keyConvertFn cfg key.tokenIds).length = 0 then .ok (s, [], 0)
  else do
    let (s, value, lastNode) ← matchPrefixHelper cfg s (lookupKey cfg key)
    return (s, value.flatten, lastNode)

/-! ### `insert` -/

structure InsertWalk where
  cache : SwaCache
  node : NodeId
  key : RadixKey
  childKey : ChildKey
  value : List Nat
  totalPrefixLength : Nat := 0

def InsertWalk.goesOn (w : InsertWalk) : Bool := decide (0 < w.key.len) && ((w.cache.node w.node).children.get? w.childKey).isSome

/-- The node is used now. -/
def touchLists : Except PyError SwaCache := do
  let fullLruList ← s.fullLruList.resetNodeMru s.node n
  let swaLruList ← unlessTombstone (s.node n) s.swaLruList (s.swaLruList.resetNodeMru s.node n)
  return { s with fullLruList, swaLruList }

def splitIfPartial (prefixLen : Nat) : Except PyError (SwaCache × NodeId) :=
  if prefixLen < (s.node n).key.len then splitNode cfg s (s.node n).key n prefixLen else .ok (s, n)

/-- Slots from `first_diff_idx` on are freed: those of a tombstone, which gets the slots of the input, or those of the input. -/
def updateValue (value : List Nat) (prefixLen firstDiffIdx : Nat) : Except PyError SwaCache :=
  if (s.node n).swaTombstone then
    if (s.node n).swaLockRef ≠ 0 then .error .assertionError
    else do
      let s := { s with freed := s.freed ++ [FreeCall.free ((s.node n).value.drop firstDiffIdx)] }
      let s := s.modify n fun node => { node with value := value.take prefixLen, swaTombstone := false }
      let swaLruList ← s.swaLruList.insertMru s.node n
      return { s with swaLruList, swaEvictableSize := s.swaEvictableSize + (s.node n).value.length }
  else .ok { s with freed := s.freed ++ [FreeCall.free ((value.take prefixLen).drop firstDiffIdx)] }

/-- Only what is behind `update_kv_after_len` is updated. -/
def updateBehind (value : List Nat) (prefixLen totalPrefixLength updateKvAfterLen : Nat) : Except PyError SwaCache :=
  if updateKvAfterLen < totalPrefixLength + prefixLen
    then updateValue s n value prefixLen (updateKvAfterLen - totalPrefixLength) else .ok s

def insertStep (updateKvAfterLen : Nat) (w : InsertWalk) : Except PyError InsertWalk :=
  match (w.cache.node w.node).children.get? w.childKey with
  | none => .error .keyError
  | some node => do
    let s ← touchLists w.cache node
    let prefixLen ← keyMatchFn cfg.pageSize (s.node node).key w.key
    let (s, node) ← splitIfPartial cfg s node prefixLen
    let s ← updateBehind s node w.value prefixLen w.totalPrefixLength updateKvAfterLen
    let key := w.key.from_ prefixLen
    let childKey ← nextChildKey cfg key w.childKey
    return ⟨s, node, key, childKey, w.value.drop prefixLen, w.totalPrefixLength + prefixLen⟩

/-- What is left of the key becomes a new node. -/
def addLeaf (w : InsertWalk) : Except PyError SwaCache :=
  if w.key.len = 0 then .ok w.cache
  else do
    let newNode := w.cache.counter
    let s := { w.cache with counter := w.cache.counter + 1 }
    let s := s.modify newNode fun _ => { parent := some w.node, key := w.key, value := w.value }
    let fullLruList ← s.fullLruList.insertMru s.node newNode
    let swaLruList ← s.swaLruList.insertMru s.node newNode
    let s := s.modify w.node fun n => { n with children := n.children.set w.childKey newNode }
    return { s with
      fullLruList, swaLruList
      fullEvictableSize := s.fullEvictableSize + w.value.length
      swaEvictableSize := s.swaEvictableSize + w.value.length }

/-- `_insert_helper` from the root on. -/
def insertHelper (s : SwaCache) (key : RadixKey) (value : List Nat) (updateKvAfterLen : Nat) : Except PyError (SwaCache × Nat) :=
  if key.len = 0 then .ok (s, 0)
  else do
    let childKey ← getChildKey cfg.pageSize key
    let w ← whileLoop .outOfFuel InsertWalk.goesOn (insertStep cfg updateKvAfterLen) key.len
      { cache := s, node := 0, key, childKey, value }
    return (← addLeaf w, w.totalPrefixLength)

def insert (s : SwaCache) (key : RadixKey) (value : List Nat) (prevPrefixLen : Nat) : Except PyError (SwaCache × Nat) :=
  if cfg.disable then .ok (s, 0)
  else
    let key : RadixKey := ⟨keyConvertFn cfg key.tokenIds, key.extraKey⟩
    let value := if cfg.isEagle then value.take key.len else value
    insertHelper cfg s key value prevPrefixLen

/-! ### Eviction -/

/-- `del node.parent.children[k]`, with the key that the loop before it leaves in `k`. -/
def dropChild (s : SwaCache) (parent n : NodeId) : Except PyError SwaCache :=
  let items := (s.node parent).children.items
  match (items.find? fun e => e.2 = n).or items.getLast? with
  | none => .error .unboundLocalError
  | some (k, _) => .ok (s.modify parent fun p => { p with children := p.children.erase k })

def deleteLeaf : Except PyError SwaCache :=
  if (s.node n).swaTombstone ∨ (s.node n).children.items ≠ [] then .error .assertionError
  else
    match (s.node n).parent with
    | none => .error .attributeError
    | some parent => do
      let s ← dropChild s parent n
      return { s with
        fullEvictableSize := s.fullEvictableSize - (s.node n).key.len
        swaEvictableSize := s.swaEvictableSize - (s.node n).key.len }

def tombstoneInternalNode : Except PyError SwaCache :=
  if (s.node n).children.items = [] then .error .assertionError
  else
    let s := s.modify n fun node => { node with swaTombstone := true }
    .ok { s with swaEvictableSize := s.swaEvictableSize - (s.node n).key.len }

def deleteTombstoneLeaf : Except PyError SwaCache :=
  if !(s.node n).swaTombstone ∨ (s.node n).children.items ≠ [] then .error .assertionError
  else
    match (s.node n).parent with
    | none => .error .attributeError
    | some parent => do
      let s ← dropChild s parent n
      return { s with fullEvictableSize := s.fullEvictableSize - (s.node n).key.len }

structure Prune where
  cache : SwaCache
  node : NodeId
  fullNumEvicted : Nat := 0

/-- The parent is a tombstone without children, and neither the root nor in use. -/
def Prune.goesOn (w : Prune) : Bool :=
  match (w.cache.node w.node).parent with
  | none => true
  | some parent =>
    let p := w.cache.node parent
    p.swaTombstone && decide (p.children.items = []) && decide (parent ≠ 0) && decide (p.fullLockRef ≤ 0)

def pruneStep (w : Prune) : Except PyError Prune :=
  match (w.cache.node w.node).parent with
  | none => .error .attributeError
  | some parent =>
    if (w.cache.node parent).swaLockRef ≠ 0 then .error .assertionError
    else do
      let value := (w.cache.node parent).value
      let s := { w.cache with freed := w.cache.freed ++ [FreeCall.free value] }
      let fullLruList ← s.fullLruList.removeNode s.node parent
      let s ← deleteTombstoneLeaf { s with fullLruList } parent
      return ⟨s, parent, w.fullNumEvicted + value.length⟩

def iterativelyDeleteTombstoneLeaf : Except PyError (SwaCache × NodeId × Nat) := do
  let w ← whileLoop .outOfFuel Prune.goesOn pruneStep s.counter { cache := s, node := n }
  return (w.cache, w.node, w.fullNumEvicted)

structure Evict where
  cache : SwaCache
  x : Option NodeId
  fullNumEvicted : Nat
  swaNumEvicted : Nat

/-- A leaf goes from the tree and from both lists. -/
def evictLeaf (s : SwaCache) (x : NodeId) : Except PyError SwaCache := do
  let fullLruList ← s.fullLruList.removeNode s.node x
  let swaLruList ← s.swaLruList.removeNode s.node x
  deleteLeaf { s with fullLruList, swaLruList, freed := s.freed ++ [FreeCall.free (s.node x).value] } x

def evictFullStep (w : Evict) : Except PyError Evict :=
  match w.x with
  | none => .error .attributeError
  | some x =>
    if x = 0 ∨ (w.cache.node x).fullLockRef ≠ 0 then .error .assertionError
    else do
      let len := (w.cache.node x).value.length
      -- the next leaf
      let xNext ← w.cache.fullLruList.getPrevLeafNoLock w.cache.node x
      let s ← evictLeaf w.cache x
      let (s, x, leafFullNumEvicted) ← iterativelyDeleteTombstoneLeaf s x
      match (s.node x).parent with
      | none => .error .attributeError
      | some parent =>
        -- a parent without children is a leaf now, and may be the least recently used one
        let xNext := if (s.node parent).children.items = [] then s.fullLruList.getLeafLruNoLock s.node else xNext
        return ⟨s, xNext, w.fullNumEvicted + len + leafFullNumEvicted, w.swaNumEvicted + len⟩

def evictSwaStep (w : Evict) : Except PyError Evict :=
  match w.x with
  | none => .error .attributeError
  | some x =>
    if (w.cache.node x).swaTombstone ∨ x = 0 ∨ (w.cache.node x).swaLockRef ≠ 0 then .error .assertionError
    else do
      let len := (w.cache.node x).value.length
      let xNext ← w.cache.swaLruList.getPrevNoLock w.cache.node x
      if (w.cache.node x).children.items ≠ [] then
        -- an internal node, free swa tokens
        let swaLruList ← w.cache.swaLruList.removeNode w.cache.node x
        let s ← tombstoneInternalNode
          { w.cache with swaLruList, freed := w.cache.freed ++ [FreeCall.freeSwa (w.cache.node x).value] } x
        return ⟨s, xNext, w.fullNumEvicted, w.swaNumEvicted + len⟩
      else if (w.cache.node x).fullLockRef ≠ 0 then .error .assertionError
      else
        let s ← evictLeaf w.cache x
        let (s, _, _) ← iterativelyDeleteTombstoneLeaf s x
        return ⟨s, xNext, w.fullNumEvicted + len, w.swaNumEvicted + len⟩

def evictFull (s : SwaCache) (fullNumTokens : Nat) : Except PyError Evict :=
  if 0 < fullNumTokens then
    whileLoop .outOfFuel (fun w : Evict => decide (w.fullNumEvicted < fullNumTokens) && w.cache.fullLruList.inList w.x)
      evictFullStep
      s.counter ⟨s, s.fullLruList.getLeafLruNoLock s.node, 0, 0⟩
  else .ok ⟨s, none, 0, 0⟩

def evictSwa (w : Evict) (swaNumTokens : Nat) : Except PyError Evict :=
  if w.swaNumEvicted < swaNumTokens then
    whileLoop .outOfFuel (fun w : Evict => decide (w.swaNumEvicted < swaNumTokens) && w.cache.swaLruList.inList w.x) evictSwaStep
      w.cache.counter { w with x := w.cache.swaLruList.getLruNoLock w.cache.node }
  else .ok w

def evict (s : SwaCache) (fullNumTokens swaNumTokens : Nat) : Except PyError SwaCache :=
  if cfg.disable then .ok s
  else do
    let w ← evictFull s fullNumTokens
    let w ← evictSwa w swaNumTokens
    return w.cache

/-! ### Locks -/

def lockFull : SwaCache :=
  let node := s.node n
  let s := if node.fullLockRef = 0 then
      { s with
        fullEvictableSize := s.fullEvictableSize - node.value.length
        fullProtectedSize := s.fullProtectedSize + node.value.length }
    else s
  s.modify n fun node => { node with fullLockRef := node.fullLockRef + 1 }

def lockSwa : SwaCache :=
  let node := s.node n
  let s := if node.swaLockRef = 0 then
      { s with
        swaEvictableSize := s.swaEvictableSize - node.value.length
        swaProtectedSize := s.swaProtectedSize + node.value.length }
    else s
  s.modify n fun node => { node with swaLockRef := node.swaLockRef + 1 }

/-- The node's uuid, a new one if it has none. -/
def uuidOf : SwaCache × Nat :=
  match (s.node n).swaUuid with
  | some uuid => (s, uuid)
  | none =>
    let uuid := s.swaUuidCounter + 1
    ({ s with swaUuidCounter := uuid }.modify n fun node => { node with swaUuid := some uuid }, uuid)

structure IncLock where
  cache : SwaCache
  node : NodeId
  swaLockSize : Nat := 0
  swaUuidForLock : Option Nat := none

def incLockStep (w : IncLock) : Except PyError IncLock :=
  let n := w.cache.node w.node
  match n.parent with
  | none => .error .attributeError
  | some parent =>
    if n.fullLockRef < 0 then .error .assertionError
    else
      let s := lockFull w.cache w.node
      if w.swaLockSize < cfg.slidingWindowSize then
        if n.swaTombstone then .error .assertionError
        else
          let s := lockSwa s w.node
          let swaLockSize := w.swaLockSize + n.value.length
          if cfg.slidingWindowSize ≤ swaLockSize then
            let (s, uuid) := uuidOf s w.node
            .ok ⟨s, parent, swaLockSize, some uuid⟩
          else .ok ⟨s, parent, swaLockSize, w.swaUuidForLock⟩
      else .ok { w with cache := s, node := parent }

def incLockRef : Except PyError (SwaCache × Option Nat) :=
  if cfg.disable then .ok (s, none)
  else do
    let w ← whileLoop .outOfFuel (fun w : IncLock => decide (w.node ≠ 0)) (incLockStep cfg) s.counter { cache := s, node := n }
    return (w.cache, w.swaUuidForLock)

def unlockFull : SwaCache :=
  let node := s.node n
  let s := if node.fullLockRef = 1 then
      { s with
        fullEvictableSize := s.fullEvictableSize + node.value.length
        fullProtectedSize := s.fullProtectedSize - node.value.length }
    else s
  s.modify n fun node => { node with fullLockRef := node.fullLockRef - 1 }

def unlockSwa : SwaCache :=
  let node := s.node n
  let s := if node.swaLockRef = 1 then
      { s with
        swaEvictableSize := s.swaEvictableSize + node.value.length
        swaProtectedSize := s.swaProtectedSize - node.value.length }
    else s
  s.modify n fun node => { node with swaLockRef := node.swaLockRef - 1 }

structure DecLock where
  cache : SwaCache
  node : NodeId
  decLockSwa : Bool := true

def decLockStep (swaUuidForLock : Option Nat) (w : DecLock) : Except PyError DecLock :=
  let n := w.cache.node w.node
  match n.parent with
  | none => .error .attributeError
  | some parent =>
    if n.fullLockRef ≤ 0 then .error .assertionError
    else
      let s := unlockFull w.cache w.node
      if w.decLockSwa then
        if n.swaTombstone ∨ n.swaLockRef ≤ 0 then .error .assertionError
        -- uuids begin at 1, so that one is true as a condition
        else .ok ⟨unlockSwa s w.node, parent, !(swaUuidForLock.isSome && decide (n.swaUuid = swaUuidForLock))⟩
      else .ok { w with cache := s, node := parent }

def decLockRef (swaUuidForLock : Option Nat) : Except PyError SwaCache :=
  if cfg.disable then .ok s
  else do
    let w ← whileLoop .outOfFuel (fun w : DecLock => decide (w.node ≠ 0)) (decLockStep swaUuidForLock) s.counter
      { cache := s, node := n }
    return w.cache

end SwaCache

end DynaSpec.MemCache.SwaRadix
