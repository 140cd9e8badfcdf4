/-
  DynaSpec.Managers.NormalScheduler — the non-overlapped scheduler without speculation
  (srt/managers/scheduler.py, srt/managers/schedule_batch.py), as far as it moves the
  requests, their outputs and the penalizers of their batches.

  A batch holds the ids of its requests, the tokens its last forward pass sampled
  (`output_ids`) and the penalizer orchestrator of its `sampling_info`. What the memory
  budget and the priorities decide is a `Plan`; what the model samples and which requests
  then pass their finish checks is a `Forward`. `none` is an exception of the source.
-/

import DynaSpec.Sampling.Penalizers
import Mathlib.Data.List.Sort

namespace DynaSpec.Managers.Normal

open DynaSpec.Lib DynaSpec.Sampling

abbrev ReqId := Nat

structure Req (P : Type) where
  samplingParams : SamplingParams P
  maxNewTokens : Nat := 128
  originInputLen : Nat := 1
  outputIds : List Nat := []
  finished : Bool := false
  isRetracted : Bool := false
  isChunked : Nat := 0

variable {P : Type} [AddCommGroup P] [DecidableEq P]

def Req.resetForRetract (q : Req P) : Req P := { q with isRetracted := true, isChunked := 0 }

/-! ## Batches -/

inductive ForwardMode where
  | extend
  | mixed
  | decode
  deriving DecidableEq, Repr

def ForwardMode.isExtend : ForwardMode → Bool
  | .decode => false
  | _ => true

/-- `ScheduleBatch`; the batch that the scheduler starts with has no `sampling_info`. -/
structure Batch (P : Type) [AddCommGroup P] [DecidableEq P] where
  reqs : List ReqId
  forwardMode : ForwardMode := .extend
  outputIds : Option (List Nat) := none
  orchestrator : Option (Orchestrator P) := none
  chunkedReq : Option ReqId := none
  isPrefillOnly : Bool := false

namespace Batch

def params (req : ReqId → Req P) (reqs : List ReqId) : List (SamplingParams P) := reqs.map fun r => (req r).samplingParams

variable (vocabSize : Nat) (req : ReqId → Req P)

/-- `init_new` followed by `prepare_for_extend`. -/
def initNew (reqs : List ReqId) (chunkedReq : Option ReqId) : Batch P :=
  { reqs := reqs, chunkedReq := chunkedReq, isPrefillOnly := reqs.all fun r => (req r).maxNewTokens == 0,
    orchestrator := some (Orchestrator.new vocabSize (params req reqs)) }

/-- `filter_batch` once `keep_indices` is known. -/
def filterIndices (req : ReqId → Req P) (keepIndices : List Nat) (b : Batch P) : Option (Batch P) :=
  if keepIndices.isEmpty then some { b with reqs := [] }
  else if keepIndices.length = b.reqs.length then some b
  else do
    let reqs ← gather b.reqs keepIndices
    let outputIds ← b.outputIds.bind (gather · keepIndices)
    let orchestrator ← b.orchestrator.bind (·.filter keepIndices (params req reqs))
    some { b with reqs := reqs, outputIds := some outputIds, orchestrator := some orchestrator }

def filterBatch (req : ReqId → Req P) (chunkedReqToExclude : List ReqId) (b : Batch P) : Option (Batch P) :=
  b.filterIndices req (indicesWhere (fun r => !(req r).finished && !chunkedReqToExclude.contains r) b.reqs)

/-- The penalizers are merged before the requests. -/
def mergeBatch (b other : Batch P) : Option (Batch P) := do
  let orchestrator ← b.orchestrator
  let their ← other.orchestrator
  let orchestrator ← orchestrator.merge vocabSize (params req b.reqs) (params req other.reqs) their
  let outputIds ← match b.outputIds with
    | none => some none
    | some ids => other.outputIds.map fun ids' => some (ids ++ ids')
  some { b with reqs := b.reqs ++ other.reqs, outputIds := outputIds, orchestrator := some orchestrator }

def prepareForDecode (b : Batch P) : Option (Batch P) := do
  let orchestrator ← b.orchestrator
  let outputIds ← b.outputIds
  let orchestrator := if orchestrator.isRequired then orchestrator.cumulateOutputTokens outputIds else orchestrator
  some { b with forwardMode := .decode, orchestrator := some orchestrator, outputIds := none }

def mixWithRunning (b running : Batch P) : Option (Batch P) := do
  let b ← { b with forwardMode := .mixed }.mergeBatch vocabSize req running
  some { b with isPrefillOnly := false }

end Batch

/-! ## The scheduler -/

structure Scheduler (P : Type) [AddCommGroup P] [DecidableEq P] where
  req : ReqId → Req P
  nextId : ReqId := 0
  waitingQueue : List ReqId := []
  runningBatch : Batch P := { reqs := [] }
  lastBatch : Option (Batch P) := none
  chunkedReq : Option ReqId := none

/-- The requests that the budget admits, in the order of their priority; whether the
    chunked request is truncated again and whether the last one admitted is chunked;
    whether the running batch is mixed in; how many requests are retracted. -/
structure Plan where
  fromQueue : List ReqId := []
  truncated : Bool := false
  newChunked : Bool := false
  mix : Bool := false
  retracted : Nat := 0

/-- The tokens that are sampled, and which requests `check_finished` then finishes. -/
structure Forward where
  nextToken : ReqId → Nat
  finishes : ReqId → Bool

inductive Call (P : Type) where
  | receive (samplingParams : SamplingParams P) (maxNewTokens originInputLen : Nat)
  | abort (r : ReqId)
  | iterate (plan : Plan) (forward : Forward)

namespace Scheduler
variable (vocabSize : Nat)

/-- The last prefill batch, filtered, joins the running batch. -/
def mergeLastBatch (s : Scheduler P) : Option (Scheduler P) :=
  match s.lastBatch with
  | none => some s
  | some last =>
    if last.forwardMode.isExtend then do
      let last ← last.filterBatch s.req (s.chunkedReq.toList ++ last.chunkedReq.toList)
      let s := { s with lastBatch := some last }
      if !last.reqs.isEmpty && !last.isPrefillOnly then
        if s.runningBatch.reqs.isEmpty then some { s with runningBatch := last }
        else do
          let running ← s.runningBatch.mergeBatch vocabSize s.req last
          some { s with runningBatch := running }
      else some s
    else some s

variable (plan : Plan) (s : Scheduler P)

/-- The admitted requests, the chunked request first. -/
def canRunList : List ReqId :=
  s.chunkedReq.toList ++ plan.fromQueue.dedup.filter (· ∈ s.waitingQueue)

/-- The chunked request of the new batch; `none` is the failed assertion that there is
    only one. -/
def nextChunkedReq : Option (Option ReqId) :=
  let newChunkedReq := if plan.newChunked then (plan.fromQueue.dedup.filter (· ∈ s.waitingQueue)).getLast? else none
  match newChunkedReq, (if plan.truncated then s.chunkedReq else none) with
  | some _, some _ => none
  | some r, none => some (some r)
  | none, chunkedReq => some chunkedReq

/-- The running batch, one token further, joins the new batch. -/
def mixRunning (s : Scheduler P) (b : Batch P) : Option (Scheduler P × Batch P) := do
  let running ← s.runningBatch.filterBatch s.req []
  let b ←
    if running.reqs.isEmpty then some b
    else do
      let running ← running.prepareForDecode
      b.mixWithRunning vocabSize s.req running
  some ({ s with runningBatch := { reqs := [] } }, b)

def getNewBatchPrefill : Option (Scheduler P × Option (Batch P)) :=
  let canRunList := s.canRunList plan
  if canRunList.isEmpty then some (s, none)
  else do
    let chunkedReq ← s.nextChunkedReq plan
    let req := fun r =>
      if r ∈ canRunList then
        { s.req r with
          isRetracted := false
          isChunked := if chunkedReq = some r then (s.req r).isChunked + 1 else (s.req r).isChunked }
      else s.req r
    let s := { s with
      req := req
      chunkedReq := chunkedReq
      waitingQueue := s.waitingQueue.filter fun r => !canRunList.contains r }
    let b := Batch.initNew vocabSize req canRunList chunkedReq
    if plan.mix && !s.runningBatch.reqs.isEmpty then do
      let (s, b) ← mixRunning vocabSize s b
      some (s, some b)
    else some (s, some b)

/-- The requests with the longest outputs first, among these the shortest inputs. -/
def sortedIndices (req : ReqId → Req P) (reqs : List ReqId) : List Nat :=
  let key := fun i => req (reqs.getD i 0)
  (List.range reqs.length).insertionSort fun i j =>
    (key j).outputIds.length < (key i).outputIds.length ∨
      (key j).outputIds.length = (key i).outputIds.length ∧ (key i).originInputLen ≤ (key j).originInputLen

/-- Requests are retracted from the back of the sorted indices; the last one stays. -/
def retractDecode (count : Nat) (s : Scheduler P) (b : Batch P) : Option (Scheduler P × Batch P) := do
  let kept := b.reqs.length - min count (b.reqs.length - 1)
  let indices := sortedIndices s.req b.reqs
  let retracted ← gather b.reqs (indices.drop kept)
  let req := fun r => if r ∈ retracted then (s.req r).resetForRetract else s.req r
  let b ← b.filterIndices req (indices.take kept)
  some ({ s with req := req, waitingQueue := s.waitingQueue ++ retracted.reverse }, b)

def updateRunningBatch (retracted : Nat) (s : Scheduler P) : Option (Scheduler P) := do
  let b ← s.runningBatch.filterBatch s.req []
  if b.reqs.isEmpty then some { s with runningBatch := b }
  else do
    let (s, b) ← if retracted = 0 then some (s, b) else retractDecode retracted s b
    let b ← b.prepareForDecode
    some { s with runningBatch := b }

/-- `get_next_batch_to_run`: the batch whose tokens are sampled next. -/
def getNextBatchToRun : Option (Scheduler P × Option (Batch P)) := do
  let s ← s.mergeLastBatch vocabSize
  let (s, newBatch) ← s.getNewBatchPrefill vocabSize plan
  match newBatch with
  | some b => some (s, some b)
  | none =>
    if s.runningBatch.reqs.isEmpty then some (s, none)
    else do
      let s ← s.updateRunningBatch plan.retracted
      some (s, if s.runningBatch.reqs.isEmpty then none else some s.runningBatch)

/-- A request with its next token appended and its finish conditions checked. -/
def append (fwd : Forward) (r : ReqId) (t : Nat) (q : Req P) : Req P :=
  { q with outputIds := q.outputIds ++ [t], finished := q.finished || fwd.finishes r }

/-- One turn of the loop of `process_batch_result_prefill`, or of `..._decode`. -/
def processReq (mode : ForwardMode) (fwd : Forward) (r : ReqId) (t : Nat) (q : Req P) : Req P :=
  if mode.isExtend then
    if q.finished || q.isRetracted then q
    else if q.isChunked = 0 then append fwd r t q
    else { q with isChunked := q.isChunked - 1 }
  else append fwd r t q

def processBatchResult (mode : ForwardMode) (fwd : Forward) : List (ReqId × Nat) → (ReqId → Req P) → (ReqId → Req P)
  | [], req => req
  | (r, t) :: rest, req => processBatchResult mode fwd rest (upd req r (processReq mode fwd r t (req r)))

/-- `run_batch` and `process_batch_result`. A decode batch is the running batch. -/
def runBatch (fwd : Forward) (s : Scheduler P) (b : Batch P) : Scheduler P :=
  let nextTokenIds := b.reqs.map fwd.nextToken
  let b := { b with outputIds := some nextTokenIds }
  let req := processBatchResult b.forwardMode fwd (b.reqs.zip nextTokenIds) s.req
  { s with req := req, lastBatch := some b, runningBatch := if b.forwardMode.isExtend then s.runningBatch else b }

def exec (s : Scheduler P) : Call P → Option (Scheduler P)
  | .receive samplingParams maxNewTokens originInputLen =>
    let q := { samplingParams := samplingParams, maxNewTokens := maxNewTokens, originInputLen := originInputLen }
    some { s with req := upd s.req s.nextId q, nextId := s.nextId + 1, waitingQueue := s.waitingQueue ++ [s.nextId] }
  | .abort r => some { s with waitingQueue := s.waitingQueue.filter (· ≠ r) }
  | .iterate plan fwd => do
    match ← s.getNextBatchToRun vocabSize plan with
    | (s, none) => some { s with lastBatch := none }
    | (s, some b) => some (s.runBatch fwd b)

end Scheduler

end DynaSpec.Managers.Normal
