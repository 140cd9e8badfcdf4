/-
  DynaSpec.MemCache.Prefetch — prefetching from the storage backend into host memory
  (hiradix_cache.py and cache_controller.py), for a tensor-parallel group of one.

  Three threads share operation objects and queues. The scheduler allocates host memory for
  an operation, inserts what was fetched into the tree and gives memory back
  (`prefetchFromStorage`, `checkPrefetchProgress`, `releaseAbortedRequest`, the drains). The
  prefetch thread asks the storage which pages it has, and revokes the operation or cuts it to
  them. The I/O thread fetches the pages batch by batch. A step of a thread is one access to
  what the threads share: a queue, or the fields of an operation under its lock. What the
  scheduler does to its own tables, to the tree and to the pool is part of the step before it,
  since no other thread looks at them. A step that finds its queue empty, or the scheduler
  still busy, changes nothing.

  The answers of the storage are arguments of the steps: the number of pages of a batch that
  exist, and for each page whether it was read. The three loops of the drain are steps of
  their own, each for the entries that its queue has then.
-/

import DynaSpec.MemCache.HiRadixTree

namespace DynaSpec.MemCache.HiRadix

open DynaSpec.Lib

abbrev ReqId := Nat

abbrev OpId := Nat

structure PrefetchOperation where
  requestId : ReqId
  hostIndices : List Nat
  tokenIds : List Token
  lastHash : Option Hash
  completedTokens : Nat := 0
  hashValue : List Hash := []
  terminatedFlag : Bool := false

inductive StopPolicy where
  | bestEffort | waitComplete | timeout | unknown
deriving DecidableEq, Repr

structure StorageConfig extends Config where
  enableStorage : Bool := true
  /-- `HiRadixCache.prefetch_threshold`; the controller's is at least a page. -/
  prefetchThreshold : Nat
  prefetchCapacityLimit : Int
  prefetchStopPolicy : StopPolicy := .bestEffort
  /-- The backends that `_page_get_zero_copy` is used for. -/
  zeroCopy : Bool := false
  getHashStr : List Token → Option Hash → Hash

/-- Granularity of batch storage IO operations, in number of pages. -/
def storageBatchSize : Nat := 128

/-- An entry of `ongoing_prefetch`. -/
structure Ongoing where
  lastHostNode : NodeId
  tokenIds : List Token
  hostIndices : List Nat
  operation : OpId

inductive PrefetchThread where
  | waiting
  | querying (operation : OpId)
  | revoking (pages : List (List Nat))
  | cutting (operation : OpId) (storageHitCount : Nat) (pages : List (List Nat))

inductive IoThread where
  | waiting
  /-- At the head of the loop over the batches. -/
  | batch (operation : OpId) (i : Nat)
  /-- In `page_get_func`, at page `j` of the batch. -/
  | fetching (operation : OpId) (i j prevCompletedTokens : Nat)
  | checking (operation : OpId) (i prevCompletedTokens : Nat)
  /-- In `append_host_mem_release`, for the first or for the second time. -/
  | releasing (operation : OpId) (second : Bool) (pages : List (List Nat))

structure System where
  tree : HiTree
  pool : HostPool
  operation : OpId → PrefetchOperation
  counter : Nat
  ongoingPrefetch : Dict ReqId Ongoing
  ongoingBackup : Dict Nat NodeId
  prefetchTokensOccupied : Int
  prefetchQueue : List OpId
  prefetchBuffer : List OpId
  prefetchRevokeQueue : List ReqId
  ackBackupQueue : List Nat
  hostMemReleaseQueue : List (List Nat)
  /-- The pages that the scheduler is about to put into the release queue. -/
  scheduler : List (List Nat)
  prefetchThread : PrefetchThread
  ioThread : IoThread

/-- `split(page_size)`, for a list of at most `turns` pages. -/
def splitPages (pageSize : Nat) : Nat → List Nat → List (List Nat)
  | 0, _ => []
  | turns + 1, l => if l = [] then [] else l.take pageSize :: splitPages pageSize turns (l.drop pageSize)

/-- The pages that `append_host_mem_release` puts into the release queue. -/
def releasePages (pageSize : Nat) (hostIndices : List Nat) : List (List Nat) := splitPages pageSize hostIndices.length hostIndices

namespace System

variable (cfg : StorageConfig)

variable (s : System)

def updOperation (o : OpId) (f : PrefetchOperation → PrefetchOperation) : System :=
  { s with operation := upd s.operation o (f (s.operation o)) }

def markTerminate (o : OpId) : System := s.updOperation o fun op => { op with terminatedFlag := true }

/-! ## The scheduler -/

def prefetchRateLimited : Bool := decide (cfg.prefetchCapacityLimit ≤ s.prefetchTokensOccupied)

/-- `alloc`, and once more after an eviction. -/
def allocHost (tree : HiTree) (pool : HostPool) (needSize : Nat) : Except PyError (Option (List Nat) × HiTree × HostPool) := do
  let (hostIndices, pool) ← pool.alloc needSize
  match hostIndices with
  | some hostIndices => return (some hostIndices, tree, pool)
  | none =>
    let (tree, pool) ← tree.evictHost cfg.toConfig pool needSize
    let (hostIndices, pool) ← pool.alloc needSize
    return (hostIndices, tree, pool)

def prefetchFromStorage (reqId : ReqId) (lastHostNode : NodeId) (newInputTokens : List Token) (lastHash : Option Hash) :
    Except PyError System :=
  let prefetchLength := newInputTokens.length - newInputTokens.length % cfg.pageSize
  let newInputTokens := newInputTokens.take prefetchLength
  if !cfg.enableStorage ∨ prefetchLength < cfg.prefetchThreshold ∨ s.prefetchRateLimited cfg then .ok s
  else do
    let (hostIndices, tree, pool) ← allocHost cfg (s.tree.protectHost lastHostNode) s.pool prefetchLength
    match hostIndices with
    | none => return { s with tree := ← tree.releaseHost lastHostNode, pool }
    | some hostIndices =>
      return { s with
        tree, pool
        operation := upd s.operation s.counter ⟨reqId, hostIndices, newInputTokens, lastHash, 0, [], false⟩
        counter := s.counter + 1
        prefetchQueue := s.prefetchQueue ++ [s.counter]
        ongoingPrefetch := s.ongoingPrefetch.set reqId ⟨lastHostNode, newInputTokens, hostIndices, s.counter⟩
        prefetchTokensOccupied := s.prefetchTokensOccupied + newInputTokens.length }

/-- `timedOut` is the answer of `is_prefetch_timeout`. -/
def canTerminatePrefetch (op : PrefetchOperation) (timedOut : Bool) : Bool :=
  let completed := decide (op.hashValue ≠ []) && decide (op.completedTokens = op.hashValue.length * cfg.pageSize)
  match cfg.prefetchStopPolicy with
  | .bestEffort => true
  | .waitComplete => completed || op.terminatedFlag
  | .timeout => completed || timedOut || op.terminatedFlag
  | .unknown => true

def checkPrefetchProgress (reqId : ReqId) (timedOut : Bool) : Except PyError System :=
  match s.ongoingPrefetch.get? reqId with
  | none => .ok s
  | some info =>
    if !canTerminatePrefetch cfg (s.operation info.operation) timedOut then .ok s
    else do
      let s := s.markTerminate info.operation
      let completedTokens := (s.operation info.operation).completedTokens
      let hashValue := (s.operation info.operation).hashValue
      -- a group of one has nothing to take the minimum with
      let minCompletedTokens := completedTokens
      let (tree, matchedLength) ← s.tree.insertHelperHost cfg.toConfig info.lastHostNode
        ⟨info.tokenIds.take minCompletedTokens, (s.tree.node info.lastHostNode).key.extraKey⟩
        (info.hostIndices.take minCompletedTokens)
        (hashValue.take (minCompletedTokens / cfg.pageSize))
      let tree ← tree.releaseHost info.lastHostNode
      return { s with
        tree
        pool := s.pool.free (info.hostIndices.take matchedLength)
        scheduler := releasePages cfg.pageSize ((info.hostIndices.take completedTokens).drop minCompletedTokens)
        ongoingPrefetch := s.ongoingPrefetch.erase reqId
        prefetchTokensOccupied := s.prefetchTokensOccupied - info.tokenIds.length }

def releaseAbortedRequest (rid : ReqId) : Except PyError System :=
  match s.ongoingPrefetch.get? rid with
  | none => .ok s
  | some info => do
    let s := s.markTerminate info.operation
    let completedTokens := (s.operation info.operation).completedTokens
    let tree ← s.tree.releaseHost info.lastHostNode
    return { s with
      tree
      ongoingPrefetch := s.ongoingPrefetch.erase rid
      scheduler := releasePages cfg.pageSize (info.hostIndices.take completedTokens)
      prefetchTokensOccupied := s.prefetchTokensOccupied - info.tokenIds.length }

def processRevoke (reqId : ReqId) : Except PyError System :=
  match s.ongoingPrefetch.get? reqId with
  -- the revoked operation already got terminated, nothing to do
  | none => .ok s
  | some info => do
    let tree ← s.tree.releaseHost info.lastHostNode
    return { s with
      tree
      ongoingPrefetch := s.ongoingPrefetch.erase reqId
      prefetchTokensOccupied := s.prefetchTokensOccupied - info.tokenIds.length }

def processBackupAck (ackId : Nat) : Except PyError System :=
  match s.ongoingBackup.get? ackId with
  | none => .ok s
  | some node => do
    let tree ← s.tree.releaseHost node
    return { s with tree, ongoingBackup := s.ongoingBackup.erase ackId }

def drainRevokes : Except PyError System :=
  s.prefetchRevokeQueue.foldlM processRevoke { s with prefetchRevokeQueue := [] }

def drainBackupAcks : Except PyError System :=
  s.ackBackupQueue.foldlM processBackupAck { s with ackBackupQueue := [] }

def drainReleases : System :=
  { s with pool := s.pool.free s.hostMemReleaseQueue.flatten, hostMemReleaseQueue := [] }

/-! ## The prefetch thread -/

/-- The chained hashes of the pages. -/
def pageHashes : Nat → List Token → Option Hash → List Hash
  | 0, _, _ => []
  | turns + 1, tokens, lastHash =>
    if tokens = [] then []
    else
      let hash := cfg.getHashStr (tokens.take cfg.pageSize) lastHash
      hash :: pageHashes turns (tokens.drop cfg.pageSize) (some hash)

/-- `batchExists` answers with a number of pages from the start of the batch. -/
def storageHitQuery (batchExists : List Hash → Nat) : Nat → List Token → Option Hash → List Hash × Nat
  | 0, _, _ => ([], 0)
  | turns + 1, tokens, lastHash =>
    if tokens = [] then ([], 0)
    else
      let batchTokens := tokens.take (cfg.pageSize * storageBatchSize)
      let batchHashes := pageHashes cfg batchTokens.length batchTokens lastHash
      let hitPageNum := min (batchExists batchHashes) batchHashes.length
      let rest := if hitPageNum < batchHashes.length then ([], 0)
        else storageHitQuery batchExists turns (tokens.drop (cfg.pageSize * storageBatchSize)) (batchHashes.getLast?.or lastHash)
      (batchHashes.take hitPageNum ++ rest.1, hitPageNum * cfg.pageSize + rest.2)

def prefetchThreadStep (batchExists : List Hash → Nat) (s : System) : System :=
  match s.prefetchThread with
  | .waiting =>
    match s.prefetchQueue with
    | [] => s
    | o :: queue => { s with prefetchQueue := queue, prefetchThread := .querying o }
  | .querying o =>
    let op := s.operation o
    let (hashValue, storageHitCount) := storageHitQuery cfg batchExists op.tokenIds.length op.tokenIds op.lastHash
    if storageHitCount < max cfg.prefetchThreshold cfg.pageSize then
      -- not to prefetch if not enough benefits
      { s with
        prefetchRevokeQueue := s.prefetchRevokeQueue ++ [op.requestId]
        prefetchThread := .revoking (releasePages cfg.pageSize op.hostIndices) }
    else
      { s.updOperation o fun op => { op with hashValue := hashValue.take (storageHitCount / cfg.pageSize) } with
        -- the pages that are not hit
        prefetchThread := .cutting o storageHitCount (releasePages cfg.pageSize (op.hostIndices.drop storageHitCount)) }
  | .revoking [] => { s with prefetchThread := .waiting }
  | .revoking (page :: pages) =>
    { s with hostMemReleaseQueue := s.hostMemReleaseQueue ++ [page], prefetchThread := .revoking pages }
  | .cutting o storageHitCount [] =>
    { s.updOperation o fun op => { op with hostIndices := op.hostIndices.take storageHitCount } with
      prefetchBuffer := s.prefetchBuffer ++ [o], prefetchThread := .waiting }
  | .cutting o storageHitCount (page :: pages) =>
    { s with hostMemReleaseQueue := s.hostMemReleaseQueue ++ [page], prefetchThread := .cutting o storageHitCount pages }

/-! ## The I/O thread -/

/-- The pages of the batch that begins at page `i`. -/
def batchLen (op : PrefetchOperation) (i : Nat) : Nat := min storageBatchSize (op.hashValue.length - i)

/-- `operation.increment`; an operation that is terminated stays as it is. -/
def increment (o : OpId) (numTokens : Nat) : System :=
  s.updOperation o fun op => if op.terminatedFlag then op else { op with completedTokens := op.completedTokens + numTokens }

/-- What is left of the operation's memory. -/
def unfetched (o : OpId) : List Nat := (s.operation o).hostIndices.drop (s.operation o).completedTokens

/-- `pageRead j` says whether page `j` of the batch was read from the storage. -/
def ioThreadStep (pageRead : Nat → Bool) (s : System) : System :=
  match s.ioThread with
  | .waiting =>
    match s.prefetchBuffer with
    | [] => s
    | o :: buffer => { s with prefetchBuffer := buffer, ioThread := .batch o 0 }
  | .batch o i =>
    if i < (s.operation o).hashValue.length then { s with ioThread := .fetching o i 0 (s.operation o).completedTokens }
    else { s with ioThread := .releasing o false (releasePages cfg.pageSize (s.unfetched o)) }
  | .fetching o i j prevCompletedTokens =>
    let batchLen := batchLen (s.operation o) i
    if cfg.zeroCopy then
      let inc := ((List.range batchLen).takeWhile pageRead).length * cfg.pageSize
      { s.increment o inc with ioThread := .checking o i prevCompletedTokens }
    else if j < batchLen ∧ pageRead j then
      { s.increment o cfg.pageSize with
        ioThread := if (s.operation o).terminatedFlag then .checking o i prevCompletedTokens
          else .fetching o i (j + 1) prevCompletedTokens }
    else { s with ioThread := .checking o i prevCompletedTokens }
  | .checking o i prevCompletedTokens =>
    if (s.operation o).completedTokens ≠ prevCompletedTokens + batchLen (s.operation o) i * cfg.pageSize then
      -- some operations fail or operation terminated by controller
      { s.markTerminate o with ioThread := .releasing o false (releasePages cfg.pageSize (s.unfetched o)) }
    else { s with ioThread := .batch o (i + storageBatchSize) }
  | .releasing o second (page :: pages) =>
    { s with hostMemReleaseQueue := s.hostMemReleaseQueue ++ [page], ioThread := .releasing o second pages }
  -- `_page_transfer` has released the memory, and `prefetch_io_aux_func` does so again
  | .releasing o false [] => { s with ioThread := .releasing o true (releasePages cfg.pageSize (s.unfetched o)) }
  | .releasing _ true [] => { s with ioThread := .waiting }

/-! ## Runs -/

inductive Action where
  | prefetchFromStorage (reqId : ReqId) (lastHostNode : NodeId) (newInputTokens : List Token) (lastHash : Option Hash)
  | checkPrefetchProgress (reqId : ReqId) (timedOut : Bool)
  | releaseAbortedRequest (reqId : ReqId)
  | drainRevokes
  | drainBackupAcks
  | drainReleases
  /-- The scheduler puts a page into the release queue. -/
  | schedulerPut
  | prefetchThread (batchExists : List Hash → Nat)
  | ioThread (pageRead : Nat → Bool)
  /-- The backup thread has done an operation. -/
  | backupDone (id : Nat)

/-- The scheduler begins with something new. -/
def schedulerStep : Action → Except PyError System
  | .prefetchFromStorage reqId lastHostNode newInputTokens lastHash =>
    s.prefetchFromStorage cfg reqId lastHostNode newInputTokens lastHash
  | .checkPrefetchProgress reqId timedOut => s.checkPrefetchProgress cfg reqId timedOut
  | .releaseAbortedRequest reqId => s.releaseAbortedRequest cfg reqId
  | .drainRevokes => s.drainRevokes
  | .drainBackupAcks => s.drainBackupAcks
  | .drainReleases => .ok s.drainReleases
  | _ => .ok s

def step : Action → Except PyError System
  | .schedulerPut =>
    match s.scheduler with
    | [] => .ok s
    | page :: pages => .ok { s with hostMemReleaseQueue := s.hostMemReleaseQueue ++ [page], scheduler := pages }
  | .prefetchThread batchExists => .ok (s.prefetchThreadStep cfg batchExists)
  | .ioThread pageRead => .ok (s.ioThreadStep cfg pageRead)
  | .backupDone id => .ok { s with ackBackupQueue := s.ackBackupQueue ++ [id] }
  | a => if s.scheduler = [] then s.schedulerStep cfg a else .ok s

def run (actions : List Action) : Except PyError System := actions.foldlM (fun s a => s.step cfg a) s

end System

end DynaSpec.MemCache.HiRadix
