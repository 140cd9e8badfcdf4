/-
  DynaSpec.Speculative.VerifyKv — the KV slots of a verification step:
  `EagleVerifyInput.prepare_for_verify` and `verify` (srt/speculative/eagle_info.py) with
  their kernels (srt/speculative/spec_utils.py).

  A batch of `bs` requests has `draft_token_num` draft tokens each; token `j` of request
  `i` has the flat index `i * draft_token_num + j`. A slot of the KV cache holds a value
  of an arbitrary type: the KV of the token written to it last. `verify` keeps the slots
  of the accepted tokens in one of three ways: it frees the other slots (pages of one
  slot), or the pages behind the last accepted token (`topk = 1`), or it moves the
  accepted tokens to the front of the new slots and frees the pages behind them.
-/

import DynaSpec.MemCache.Allocator

namespace DynaSpec.Speculative.VerifyKv

open DynaSpec.Lib DynaSpec.MemCache
open List (range)

/-- What a verification step reads and changes of a batch. -/
structure Batch (K : Type) where
  bs : Nat
  reqPoolIndices : Nat → Nat
  seqLens : Nat → Nat
  seqLensCpu : Nat → Nat
  reqToToken : Nat × Nat → Nat
  allocator : Allocator
  kv : Nat → K
  outCacheLoc : List Nat := []
  kvCommittedLen : Nat → Nat
  kvAllocatedLen : Nat → Nat

variable {K : Type}

/-! ## Before the forward pass -/

variable (sched : Schedule)

/-- `assign_req_to_token_pool`: the slots of `outCacheLoc`, one request after the other,
    go to the positions from `startOffset` to `endOffset` of the requests' rows. -/
def assignReqToTokenPool (bs : Nat) (reqPoolIndices : Nat → Nat) (reqToToken : Nat × Nat → Nat)
    (startOffset endOffset : Nat → Nat) (outCacheLoc : List Nat) : Nat × Nat → Nat :=
  scatter reqToToken ((sched.order bs).flatMap fun pid =>
    (blockLoop 32 (endOffset pid - startOffset pid)).map fun k =>
      ((reqPoolIndices pid, startOffset pid + k),
        outCacheLoc.getD (maskedSum (nextPowerOf2 bs) pid (fun j => endOffset j - startOffset j) + k) 0))

def getLastLoc (reqToToken : Nat × Nat → Nat) (reqPoolIndices prefixLens : Nat → Nat) (i : Nat) : Int :=
  if 0 < prefixLens i then reqToToken (reqPoolIndices i, prefixLens i - 1) else -1

/-- The slots for the draft tokens; `none` when there are not enough of them. -/
def allocForVerify (draftTokenNum : Nat) (b : Batch K) : Allocator × Option (List Nat) :=
  if b.allocator.pageSize = 1 then b.allocator.alloc (b.bs * draftTokenNum)
  else
    let (a, loc) := b.allocator.allocExtend sched b.bs b.seqLens (fun i => b.seqLens i + draftTokenNum)
      (getLastLoc b.reqToToken b.reqPoolIndices b.seqLens) (b.bs * draftTokenNum)
    (a, loc.map fun loc => (range (b.bs * draftTokenNum)).map loc)

/-- `none` is the RuntimeError of an allocation that runs out of memory. -/
def prepareForVerify (draftTokenNum : Nat) (b : Batch K) : Option (Batch K) :=
  match allocForVerify sched draftTokenNum b with
  | (_, none) => none
  | (a, some loc) =>
    some { b with
      allocator := a
      outCacheLoc := loc
      kvAllocatedLen := if b.allocator.pageSize = 1 then fun i => b.kvAllocatedLen i + 1 else b.kvAllocatedLen
      reqToToken := assignReqToTokenPool sched b.bs b.reqPoolIndices b.reqToToken b.seqLens
        (fun i => b.seqLens i + draftTokenNum) loc }

/-- The target model's forward pass writes the KV of every draft token to its slot. -/
def forwardTargetVerify (draftKv : Nat → K) (b : Batch K) : Batch K :=
  { b with kv := scatter b.kv ((range b.outCacheLoc.length).map fun f => (b.outCacheLoc.getD f 0, draftKv f)) }

/-! ## The accepted tokens -/

/-- One row of `accept_index` after the finish checks: what follows the token the
    request finishes on is -1. The flag says whether it finished. -/
def checkRow (finishes : Nat → Bool) : Nat → List Int → List Int × Bool
  | _, [] => ([], false)
  | j, idx :: rest =>
    if idx = -1 then (idx :: rest, false)
    else if finishes j then (idx :: rest.map fun _ => -1, true)
    else
      let (rest, finished) := checkRow finishes (j + 1) rest
      (idx :: rest, finished)

/-- `accept_index[accept_index != -1]`. -/
def flatAcceptIndex (bs : Nat) (rows : Nat → List Int) : List Nat :=
  (range bs).flatMap fun i => ((rows i).filter (· ≠ -1)).map Int.toNat

/-- `unfinished_accept_index`: the rows of the unfinished requests up to their first -1. -/
def unfinishedAcceptIndex (rows : Nat → List Int) (unfinishedIndex : List Nat) : List Nat :=
  unfinishedIndex.flatMap fun i => ((rows i).takeWhile (· ≠ -1)).map Int.toNat

/-- `out_cache_loc[index]`. -/
def select (outCacheLoc index : List Nat) : List Nat := index.map fun f => outCacheLoc.getD f 0

/-- `out_cache_loc[mask]`. -/
def selectMask (outCacheLoc : List Nat) (mask : Nat → Bool) : List Nat :=
  select outCacheLoc ((range outCacheLoc.length).filter mask)

/-! ## The kernels of `verify` -/

/-- `align_evict_mask_to_page_size`: the rest of the page of the last accepted token is
    kept. A block reads and writes its own row of the mask only. -/
def alignEvictMaskToPageSize (bs pageSize numDraftTokens : Nat) (seqLens : Nat → Nat) (evictMask : Nat → Bool) :
    Nat → Bool :=
  scatter evictMask ((sched.order bs).flatMap fun bid =>
    let numTrues := (maskedArange (nextPowerOf2 numDraftTokens) numDraftTokens).countP
      fun t => evictMask (bid * numDraftTokens + t)
    let numFalse := numDraftTokens - numTrues
    let start : Int := ((seqLens bid : Int) + numFalse - 1) / pageSize * pageSize - seqLens bid
    ((range (min (start + pageSize) numDraftTokens).toNat).filter fun (i : Nat) => max start 0 ≤ (i : Int)).map
      fun i => (bid * numDraftTokens + i, false))

/-- `to_free_num_slots` of `get_src_tgt_cache_loc`. -/
def toFreeNumSlots (pageSize draftTokenNum : Nat) (seqLens acceptLength : Nat → Nat) (i : Nat) : Nat :=
  let extendedLen := seqLens i + draftTokenNum
  let keepLen := min ((seqLens i + acceptLength i + 1 + pageSize - 1) / pageSize * pageSize) extendedLen
  extendedLen - keepLen

/-- `get_target_cache_loc`: the first slots of each row are the targets, the last ones
    are freed. The tensors are written in full. -/
def getTargetCacheLoc (bs numVerifyTokens : Nat) (acceptLength toFree : Nat → Nat) (outCacheLoc : List Nat) :
    (Nat → Nat) × (Nat → Nat) :=
  let upper := nextPowerOf2 numVerifyTokens
  let bsUpper := nextPowerOf2 bs
  (scatter (fun _ => 0) ((sched.order bs).flatMap fun bid =>
      (maskedArange upper (acceptLength bid + 1)).map fun k =>
        (maskedSum bsUpper bid acceptLength + bid + k, outCacheLoc.getD (bid * numVerifyTokens + k) 0)),
    scatter (fun _ => 0) ((sched.order bs).flatMap fun bid =>
      (maskedArange upper (toFree bid)).map fun k =>
        (maskedSum bsUpper bid toFree + k, outCacheLoc.getD (bid * numVerifyTokens + (numVerifyTokens - toFree bid) + k) 0)))

/-- `move_kv_cache`: every source is read before a target is written. -/
def moveKvCache (kv : Nat → K) (tgt src : List Nat) : Nat → K := scatter kv (tgt.zip (src.map kv))

/-- `filter_finished_cache_loc_kernel`: the targets of the requests that go on. -/
def filterFinishedCacheLoc (bs numVerifyTokens : Nat) (tgtCacheLoc : List Nat)
    (acceptLength acceptLengthFilter : Nat → Nat) : Nat → Nat :=
  let bsUpper := nextPowerOf2 bs
  scatter (fun _ => 0) ((sched.order bs).flatMap fun bid =>
    (maskedArange (nextPowerOf2 numVerifyTokens) (acceptLengthFilter bid)).map fun k =>
      (maskedSum bsUpper bid acceptLengthFilter + k, tgtCacheLoc.getD (maskedSum bsUpper bid acceptLength + bid + k) 0))

/-! ## Verification -/

/-- What the verification kernel leaves, and which accepted token a request finishes on. -/
structure Accepted where
  acceptIndex : Nat → List Int
  acceptLength : Nat → Nat
  finishes : Nat → Nat → Bool

/-- `accept_index`, `accept_length` and the unfinished requests after the finish checks. -/
structure Checked where
  acceptIndex : Nat → List Int
  acceptLength : Nat → Nat
  unfinishedIndex : List Nat
  hasFinished : Bool

def checkAccepted (bs : Nat) (acc : Accepted) : Checked :=
  let rows := fun i => checkRow (acc.finishes i) 0 (acc.acceptIndex i)
  let hasFinished := (range bs).any fun i => (rows i).2
  { acceptIndex := fun i => (rows i).1
    acceptLength := if hasFinished then fun i => (rows i).1.countP (· ≠ -1) - 1 else acc.acceptLength
    unfinishedIndex := (range bs).filter fun i => !(rows i).2
    hasFinished := hasFinished }

variable (topk draftTokenNum : Nat)

/-- What is freed and moved, and the target slots (used by the third way only). -/
def freeUnaccepted (c : Checked) (b : Batch K) : Batch K × List Nat :=
  let pageSize := b.allocator.pageSize
  let acceptIndex := flatAcceptIndex b.bs c.acceptIndex
  let evictMask := fun f => !acceptIndex.contains f
  let commit : Batch K → Batch K := fun b =>
    { b with
      kvCommittedLen := fun i => b.kvCommittedLen i + (c.acceptLength i + 1)
      kvAllocatedLen := fun i => b.kvCommittedLen i + (c.acceptLength i + 1) }
  if pageSize = 1 then
    (commit { b with allocator := b.allocator.free (selectMask b.outCacheLoc evictMask) }, [])
  else if topk = 1 then
    let evictMask := alignEvictMaskToPageSize sched b.bs pageSize draftTokenNum b.seqLens evictMask
    (commit { b with allocator := b.allocator.free (selectMask b.outCacheLoc evictMask) }, [])
  else
    let srcCacheLoc := select b.outCacheLoc acceptIndex
    let toFree := toFreeNumSlots pageSize draftTokenNum b.seqLens c.acceptLength
    let (tgt, toFreeSlots) := getTargetCacheLoc sched b.bs draftTokenNum c.acceptLength toFree b.outCacheLoc
    let tgtCacheLoc := (range srcCacheLoc.length).map tgt
    ({ b with allocator := b.allocator.free ((range (offset toFree b.bs)).map toFreeSlots),
              kv := moveKvCache b.kv tgtCacheLoc srcCacheLoc }, tgtCacheLoc)

/-- The rest of `verify`: the rows, the lengths and `out_cache_loc` of the requests that go on. -/
def commitAccepted (c : Checked) (tgtCacheLoc : List Nat) (b : Batch K) : Batch K :=
  let inPlace := b.allocator.pageSize = 1 ∨ topk = 1
  let acceptIndex := flatAcceptIndex b.bs c.acceptIndex
  let grown : Batch K := { b with
    seqLens := fun i => b.seqLens i + (c.acceptLength i + 1)
    seqLensCpu := fun i => b.seqLensCpu i + (c.acceptLength i + 1) }
  let reqToToken := assignReqToTokenPool sched b.bs b.reqPoolIndices b.reqToToken b.seqLens
    (fun i => b.seqLens i + c.acceptLength i + 1) (select b.outCacheLoc acceptIndex)
  if !c.hasFinished then
    if inPlace then { grown with outCacheLoc := select b.outCacheLoc acceptIndex, reqToToken := reqToToken }
    else { grown with outCacheLoc := tgtCacheLoc }
  else if inPlace then
    if c.unfinishedIndex.isEmpty then { grown with reqToToken := reqToToken }
    else { grown with reqToToken := reqToToken,
                      outCacheLoc := select b.outCacheLoc (unfinishedAcceptIndex c.acceptIndex c.unfinishedIndex) }
  else if c.unfinishedIndex.isEmpty then b
  else
    let acceptLengthFilter := fun i => if i ∈ c.unfinishedIndex then c.acceptLength i + 1 else 0
    let loc := filterFinishedCacheLoc sched b.bs draftTokenNum tgtCacheLoc c.acceptLength acceptLengthFilter
    let size := c.unfinishedIndex.length + (c.unfinishedIndex.map c.acceptLength).sum
    { grown with outCacheLoc := (range size).map loc }

def verify (acc : Accepted) (b : Batch K) : Batch K :=
  let c := checkAccepted b.bs acc
  let (b, tgtCacheLoc) := freeUnaccepted sched topk draftTokenNum c b
  commitAccepted sched topk draftTokenNum c tgtCacheLoc b

/-- Allocation, forward pass and verification. -/
def verifyStep (draftKv : Nat → K) (acc : Accepted) (b : Batch K) : Option (Batch K) :=
  (prepareForVerify sched draftTokenNum b).map fun b => verify sched topk draftTokenNum acc (forwardTargetVerify draftKv b)

end DynaSpec.Speculative.VerifyKv
