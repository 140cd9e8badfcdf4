/-
  DynaSpec.MemCache.ReqCache — the KV slots of requests over a radix cache: the prefix that a
  request is admitted with, the chunks that it is extended by, and `cache_unfinished_req` and
  `cache_finished_req` (radix_cache.py), which pass its slots on to the tree.

  A request has a row of `req_to_token`, of which `kv_indices` is a view. The tokens of
  a request are ids; `RadixKey`s of an EAGLE cache are made of their bigrams.
-/

import DynaSpec.MemCache.RadixPool

namespace DynaSpec.MemCache

open DynaSpec.Lib RadixCache

structure Req where
  extraKey : Option String := none
  /-- `origin_input_ids + output_ids`. -/
  tokenIds : List Nat
  /-- The tokens up to the end of the current chunk. -/
  fillIds : List Nat := []
  reqPoolIdx : Nat := 0
  prefixIndices : List Nat := []
  lastMatchedPrefixLen : Nat := 0
  lastNode : NodeId := 0
  kvCommittedLen : Nat := 0

/-- The tree cache with its allocator, and the rows of `req_to_token`. -/
structure Memory where
  pool : Pool
  reqToToken : Nat → Nat → Nat

namespace Memory

/-- The view `req_to_token[idx, :n]`. -/
def row (m : Memory) (idx n : Nat) : List Nat := (List.range n).map (m.reqToToken idx)

/-- The write of `values` from column `start` on. -/
def write (m : Memory) (idx start : Nat) (values : List Nat) : Memory :=
  { m with reqToToken := fun i j =>
      if i = idx ∧ start ≤ j ∧ j < start + values.length then values.getD (j - start) 0 else m.reqToToken i j }

def withCache (m : Memory) (cache : RadixCache) : Memory := { m with pool := { m.pool with cache } }

/-- The slice `l[start:stop]`. -/
def slice (l : List Nat) (start stop : Nat) : List Nat := (l.take stop).drop start

section
variable (cfg : Config)

def radixKey (req : Req) (tokens : List Nat) : RadixKey := ⟨tokens.map Token.id, req.extraKey⟩

variable (m : Memory) (req : Req)

/-- `init_next_round_input` and the lock that the prefill adder takes. -/
def initNextRoundInput (maxPrefixLen : Nat) : Except PyError (Memory × Req) := do
  let (cache, r) ← matchPrefix cfg m.pool.cache (radixKey req (req.tokenIds.take maxPrefixLen))
  let (cache, _) ← incLockRef cfg cache r.lastDeviceNode
  return (m.withCache cache, { req with
      prefixIndices := r.deviceIndices
      lastMatchedPrefixLen := r.deviceIndices.length
      lastNode := r.lastDeviceNode })

def lastLoc (prefixIndices : List Nat) : Int :=
  match prefixIndices.getLast? with
  | some x => x
  | none => -1

/-- The allocation of `alloc_for_extend` for one request. -/
def allocExtend (sched : Schedule) (pool : Pool) (prefixIndices : List Nat)
    (seqLen : Nat) : Except AllocError (Pool × List Nat) :=
  let prefixLen := prefixIndices.length
  if cfg.pageSize = 1 then pool.allocTokenSlots cfg (seqLen - prefixLen)
  else
    match pool.allocPagedTokenSlotsExtend cfg sched 1 (fun _ => prefixLen) (fun _ => seqLen) (fun _ => lastLoc prefixIndices)
      (seqLen - prefixLen) with
    | .error e => .error e
    | .ok (pool, outCacheLoc) => .ok (pool, (List.range (seqLen - prefixLen)).map outCacheLoc)

/-- A chunk of `extendInputLen` tokens, with `idx` for its row. -/
def extend (sched : Schedule) (m : Memory) (req : Req) (idx extendInputLen : Nat) : Except AllocError (Memory × Req) :=
  let prefixLen := req.prefixIndices.length
  let fillIds := req.tokenIds.take (prefixLen + extendInputLen)
  match allocExtend cfg sched m.pool req.prefixIndices fillIds.length with
  | .error e => .error e
  | .ok (pool, outCacheLoc) =>
    .ok (({ m with pool }.write idx 0 req.prefixIndices).write idx prefixLen outCacheLoc,
      { req with fillIds, reqPoolIdx := idx, kvCommittedLen := fillIds.length })

/-- The length of the KV that has a key: in an EAGLE cache the last token has no bigram. -/
def actualKvLen (n : Nat) : Nat := if cfg.isEagle then n - 1 else n

def pageAlignedLen (n : Nat) : Nat := if cfg.pageSize ≠ 1 then actualKvLen cfg n / cfg.pageSize * cfg.pageSize
    else actualKvLen cfg n

def pageAlignedKvIndices (kvIndices : List Nat) : List Nat :=
  if cfg.pageSize ≠ 1 then kvIndices.take (pageAlignedLen cfg kvIndices.length) else kvIndices

def pageAlignedTokenLen (n : Nat) : Nat := if cfg.isEagle then pageAlignedLen cfg n + 1 else pageAlignedLen cfg n

/-- In an EAGLE cache the prefix of a chunk includes a token that was not matched. -/
def oldPrefixLen (req : Req) : Nat :=
  if cfg.isEagle ∧ req.prefixIndices.length > req.lastMatchedPrefixLen then req.prefixIndices.length - 1
    else req.prefixIndices.length

/-- The tokens up to `page_aligned_len` when a request ends. -/
def insertOrFree (tokenIds kvIndices : List Nat) (isInsert : Bool) : Except PyError Pool :=
  let committedKvLen := kvIndices.length
  if isInsert then do
    let (cache, newPrefixLen) ← RadixCache.insert cfg m.pool.cache
      (radixKey req (tokenIds.take (pageAlignedTokenLen cfg committedKvLen))) (pageAlignedKvIndices cfg kvIndices)
    -- free the duplicates that were already in the tree
    pure (({ m.pool with cache } : Pool).free (slice kvIndices (oldPrefixLen cfg req) newPrefixLen))
  else pure (m.pool.free (slice kvIndices (oldPrefixLen cfg req) (pageAlignedLen cfg committedKvLen)))

def cacheFinishedReq (isInsert : Bool) : Except PyError Memory :=
  let committedKvLen := req.kvCommittedLen
  let kvIndices := m.row req.reqPoolIdx committedKvLen
  if cfg.disable then .ok { m with pool := m.pool.free kvIndices }
  else do
    let pool ← insertOrFree cfg m req (req.tokenIds.take committedKvLen) kvIndices isInsert
    -- free the unaligned tail
    let pool := pool.free (kvIndices.drop (pageAlignedLen cfg committedKvLen))
    let (cache, _) ← decLockRef cfg pool.cache req.lastNode
    return { m with pool := { pool with cache } }

def cacheUnfinishedReq : Except PyError (Memory × Req) :=
  if cfg.disable then .ok (m, req)
  else do
    let allTokenLen := req.fillIds.length
    let kvIndices := m.row req.reqPoolIdx allTokenLen
    let key := radixKey req (req.fillIds.take (pageAlignedTokenLen cfg allTokenLen))
    let old := oldPrefixLen cfg req
    let (cache, newPrefixLen) ← RadixCache.insert cfg m.pool.cache key (pageAlignedKvIndices cfg kvIndices)
    let m := { m with pool := ({ m.pool with cache } : Pool).free (slice kvIndices old newPrefixLen) }
    -- the prefix indices could be updated, reuse it
    let (cache, r) ← matchPrefix cfg m.pool.cache key
    let newIndices := r.deviceIndices
    let m := (m.withCache cache).write req.reqPoolIdx old (newIndices.drop old)
    let kvIndices := m.row req.reqPoolIdx allTokenLen
    let (cache, _) ← decLockRef cfg m.pool.cache req.lastNode
    let (cache, _) ← incLockRef cfg cache r.lastDeviceNode
    return (m.withCache cache, { req with
        lastMatchedPrefixLen := newIndices.length
        -- the partial page, or the last token of an EAGLE request, is part of the next prefix
        prefixIndices := if cfg.pageSize ≠ 1 then newIndices ++ kvIndices.drop newIndices.length
          else if cfg.isEagle then newIndices ++ kvIndices.drop (actualKvLen cfg allTokenLen) else newIndices
        lastNode := r.lastDeviceNode })

end

end Memory

end DynaSpec.MemCache
