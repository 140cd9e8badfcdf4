/-
  DynaSpec.Managers.Scheduler — the non-overlapped scheduler with an EAGLE draft worker:
  `event_loop_normal` and `get_next_batch_to_run` (srt/managers/scheduler.py), the output
  processing of prefill and decode (srt/managers/scheduler_output_processor_mixin.py),
  `forward_draft_extend` and `forward_draft_extend_after_decode`
  (srt/speculative/eagle_worker.py) and the finish checks of `EagleVerifyInput.verify`.

  What the memory budget and the priorities decide is a `Plan`: which requests of the
  queue run, whether the chunked request is truncated again, how many requests are
  retracted. What the models compute is a `Forward`: for each sequence the next token,
  the accepted tokens of its draft tree, the draft model's outputs. A `Call` is one thing
  that happens to the scheduler; `exec` runs it, `none` when an exception ends the loop.
-/

import DynaSpec.Managers.ScheduleBatch

namespace DynaSpec.Managers

open DynaSpec.Lib DynaSpec.Constrained

/-- `computed` is a ghost: the row the draft model computed for a request's sequence in
    the last forward pass the sequence was in. -/
structure Scheduler (σ Row : Type) where
  req : ReqId → Req σ
  waitingQueue : List ReqId := []
  runningBatch : ScheduleBatch Row := { reqs := [] }
  lastBatch : Option (ScheduleBatch Row) := none
  chunkedReq : Option ReqId := none
  computed : ReqId → DraftRow Row

/-- The part of `get_new_batch_prefill` that the budget decides: the requests taken from
    the queue, whether `add_chunked_req` truncates again, and the request that
    `add_one_req` chunks. -/
structure PrefillPlan where
  fromQueue : List ReqId
  truncated : Bool := false
  newChunkedReq : Option ReqId := none

structure Plan where
  prefill : Option PrefillPlan := none
  retracted : Nat := 0

/-- The outputs of the forward passes of one iteration, by sequence. At least the root
    of a draft tree is accepted. -/
structure Forward (Row : Type) where
  nextToken : ReqId → Int
  accepted : ReqId → List Int
  draft : ReqId → DraftRow Row
  accepted_ne_nil : ∀ r, accepted r ≠ []

inductive Call (σ Row : Type) where
  | receive (r : ReqId) (q : Req σ)
  | abort (rid : List Char)
  | iterate (plan : Plan) (forward : Forward Row)

namespace Scheduler
variable {σ Row : Type} (g : GrammarObject σ)

variable (s : Scheduler σ Row)

def setReq (r : ReqId) (q : Req σ) : Scheduler σ Row := { s with req := upd s.req r q }

/-- `abort_request`: `cur` is the batch that ran last or is running. -/
def abortRequest (cur : Option (ScheduleBatch Row)) (rid : List Char) (s : Scheduler σ Row) : Scheduler σ Row :=
  let hit := fun r => rid.isPrefixOf (s.req r).rid
  let reqs := s.runningBatch.reqs ++ (cur.map (·.reqs)).getD []
  { s with
    waitingQueue := s.waitingQueue.filter (!hit ·)
    req := fun r =>
      if r ∈ reqs ∧ !(s.req r).finished ∧ hit r then { s.req r with toFinish := some .abort } else s.req r }

/-! ## Choosing the next batch -/

/-- The requests that `get_next_batch_to_run` keeps out of the running batch. -/
def chunkedReqToExclude (last : ScheduleBatch Row) : List ReqId :=
  (s.chunkedReq.toList ++ last.chunkedReq.toList).dedup

/-- The last prefill batch, filtered, joins the running batch. -/
def mergeLastBatch : Option (Scheduler σ Row) :=
  match s.lastBatch with
  | none => some s
  | some last =>
    if last.forwardMode = .extend then do
      let last ← last.filterBatch s.req (s.chunkedReqToExclude last)
      let s := { s with lastBatch := some last }
      if !last.isEmpty && !last.isPrefillOnly then
        if s.runningBatch.isEmpty then some { s with runningBatch := last }
        else do
          let running ← s.runningBatch.mergeBatch last
          some { s with runningBatch := running }
      else some s
    else some s

def getNewBatchPrefill (plan : PrefillPlan) (s : Scheduler σ Row) : Scheduler σ Row × ScheduleBatch Row :=
  let canRunList := s.chunkedReq.toList ++ plan.fromQueue
  let chunkedReq := match plan.newChunkedReq with
    | some r => some r
    | none => if plan.truncated then s.chunkedReq else none
  let req := fun r =>
    if r ∈ canRunList then
      { s.req r with
        isRetracted := false
        isChunked := if chunkedReq = some r then (s.req r).isChunked + 1 else (s.req r).isChunked }
    else s.req r
  ({ s with req := req, chunkedReq := chunkedReq, waitingQueue := s.waitingQueue.filter fun r => !canRunList.contains r },
    ScheduleBatch.initNew req canRunList chunkedReq)

/-- Requests are retracted from the back of the batch; the last one stays. -/
def retractDecode (count : Nat) (s : Scheduler σ Row) (b : ScheduleBatch Row) :
    Option (Scheduler σ Row × ScheduleBatch Row) := do
  let kept := b.reqs.length - min count (b.reqs.length - 1)
  let sortedIndices := List.range kept
  let retracted := b.reqs.drop kept
  let b ← b.filterIndices sortedIndices true
  some ({ s with req := fun r => if r ∈ retracted then (s.req r).resetForRetract else s.req r,
                 waitingQueue := s.waitingQueue ++ retracted.reverse }, b)

def updateRunningBatch (retracted : Nat) (s : Scheduler σ Row) : Option (Scheduler σ Row) := do
  let b ← s.runningBatch.filterBatch s.req []
  if b.isEmpty then some { s with runningBatch := b }
  else do
    let (s, b) ← if retracted = 0 then some (s, b) else retractDecode retracted s b
    some { s with runningBatch := { b with forwardMode := .decode } }

def getNextBatchToRun (plan : Plan) (s : Scheduler σ Row) : Option (Scheduler σ Row × Option (ScheduleBatch Row)) := do
  let s ← s.mergeLastBatch
  match plan.prefill with
  | some p =>
    let (s, b) := s.getNewBatchPrefill p
    some (s, some b)
  | none =>
    if s.runningBatch.isEmpty then some (s, none)
    else do
      let s ← s.updateRunningBatch plan.retracted
      some (s, if s.runningBatch.isEmpty then none else some s.runningBatch)

/-! ## Prefill -/

def record (rows : List ReqId) (draft : ReqId → DraftRow Row) (s : Scheduler σ Row) : Scheduler σ Row :=
  { s with computed := fun r => if r ∈ rows then draft r else s.computed r }

variable (fwd : Forward Row) (s : Scheduler σ Row)

def forwardDraftExtend (b : ScheduleBatch Row) : Option (ScheduleBatch Row) := do
  let d : EagleDraftInput Row := { verifiedId := b.rows.map fwd.nextToken }
  let d := d.captureForDecode (b.rows.map fwd.draft)
  let unfinishedReqIndex := indicesWhere (fun r => !(s.req r).finished) b.reqs
  let d ← if b.reqs.any fun r => (s.req r).finished then d.filterBatch unfinishedReqIndex false else some d
  some { b with specInfo := some d }

/-- One turn of the loop of `process_batch_result_prefill`: a ValueError of the grammar
    aborts the request, another exception ends the loop. -/
def processPrefillReq (cur : ScheduleBatch Row) (s : Scheduler σ Row) (r : ReqId) (nextTokenId : Int) :
    Option (Scheduler σ Row) :=
  let q := s.req r
  if q.finished || q.isRetracted then some s
  else if q.isChunked ≤ 0 then
    let q := (q.append nextTokenId).checkFinished g
    match q.acceptGrammar g nextTokenId with
    | .ok q => some (s.setReq r q)
    | .error .valueError => some ((s.setReq r q).abortRequest (some cur) q.rid)
    | .error _ => none
  else some (s.setReq r { q with isChunked := q.isChunked - 1 })

def processBatchResultPrefill (cur : ScheduleBatch Row) : List (ReqId × Int) → Scheduler σ Row → Option (Scheduler σ Row)
  | [], s => some s
  | (r, t) :: rest, s => do processBatchResultPrefill cur rest (← s.processPrefillReq g cur r t)

def runPrefill (b : ScheduleBatch Row) : Option (Scheduler σ Row) := do
  let nextTokenIds := b.rows.map fwd.nextToken
  let b ← s.forwardDraftExtend fwd b
  let s := s.record b.rows fwd.draft
  let s ← s.processBatchResultPrefill g b (b.reqs.zip nextTokenIds)
  some { s with lastBatch := some b }

/-! ## Decode -/

/-- The accepted tokens of one request: the tokens kept, up to the one it finishes on. -/
def acceptTokens : List Int → Req σ → Option (Req σ × List Int)
  | [], q => some (q, [])
  | t :: ts, q => do
    let q := (q.append t).checkFinished g
    if q.finished then some (q, [t])
    else do
      let q ← (q.acceptGrammar g t).toOption
      let (q, kept) ← acceptTokens ts q
      some (q, t :: kept)

/-- The loop of `verify` over the requests and their rows of `accept_index`. -/
def verifyReqs : List (ReqId × List Int) → (ReqId → Req σ) → Option ((ReqId → Req σ) × List (List Int))
  | [], req => some (req, [])
  | (r, row) :: rest, req => do
    let (q, kept) ← acceptTokens g row (req r)
    let (req, rows) ← verifyReqs rest (upd req r q)
    some (req, kept :: rows)

/-- The draft input that `verify` returns. -/
def verifyDraftInput (req : ReqId → Req σ) (kept : List (List Int)) (b : ScheduleBatch Row) :
    Option (EagleDraftInput Row) :=
  let acceptLength := kept.map fun row => row.length - 1
  if !b.reqs.any fun r => (req r).finished then
    some { verifiedId := kept.flatten, acceptLength := acceptLength, rowsForDraftExtend := b.rows }
  else
    let unfinishedIndex := indicesWhere (fun r => !(req r).finished) b.reqs
    if unfinishedIndex.isEmpty then some EagleDraftInput.createIdleInput
    else do
      let rows ← gather kept unfinishedIndex
      let acceptLength ← gather acceptLength unfinishedIndex
      let rowsForDraftExtend ← gather b.rows unfinishedIndex
      some { verifiedId := rows.flatten, acceptLength := acceptLength, rowsForDraftExtend := rowsForDraftExtend }

/-- `create_extend_after_decode_spec_info`: the last verified token of each sequence. -/
def createExtendAfterDecodeSpecInfo (verifiedId : List Int) (acceptLens : List Nat) : Option (List Int) :=
  gather verifiedId ((List.range acceptLens.length).map fun pid =>
    offset (fun i => acceptLens.getD i 0) pid + acceptLens.getD pid 0 - 1)

def forwardDraftExtendAfterDecode (fwd : Forward Row) (d : EagleDraftInput Row) : Option (EagleDraftInput Row) := do
  let verifiedId ← createExtendAfterDecodeSpecInfo d.verifiedId (d.acceptLength.map (· + 1))
  some ({ d with verifiedId := verifiedId }.captureForDecode (d.rowsForDraftExtend.map fwd.draft))

/-- Each request is checked once more on its last token. -/
def processBatchResultDecode : List ReqId → (ReqId → Req σ) → (ReqId → Req σ)
  | [], req => req
  | r :: rest, req => processBatchResultDecode rest (upd req r ((req r).checkFinished g))

/-- The end of `forward_batch_generation`: nothing is left to draft for a batch whose
    requests have all finished. -/
def draftUnlessFinished (d : EagleDraftInput Row) :
    Option (Scheduler σ Row × EagleDraftInput Row) :=
  if 0 < d.verifiedId.length then
    (forwardDraftExtendAfterDecode fwd d).map fun d' => (s.record d.rowsForDraftExtend fwd.draft, d')
  else some (s, d)

def runDecode (b : ScheduleBatch Row) : Option (Scheduler σ Row) := do
  let (req, kept) ← verifyReqs g (b.reqs.zip (b.rows.map fwd.accepted)) s.req
  let d ← verifyDraftInput req kept b
  let (s, d) ← draftUnlessFinished fwd { s with req := req } d
  let b := { b with specInfo := some d }
  -- the result is processed for as many requests as there are verified tokens
  let req := processBatchResultDecode g ((b.reqs.zip kept.flatten).map (·.1)) s.req
  some { s with req := req, runningBatch := b, lastBatch := some b }

/-! ## The event loop -/

def runBatch (b : ScheduleBatch Row) : Option (Scheduler σ Row) :=
  match b.forwardMode with
  | .extend => s.runPrefill g fwd b
  | .decode => s.runDecode g fwd b

def exec (s : Scheduler σ Row) : Call σ Row → Option (Scheduler σ Row)
  | .receive r q => some { s.setReq r q with waitingQueue := s.waitingQueue ++ [r] }
  | .abort rid => some (s.abortRequest s.lastBatch rid)
  | .iterate plan fwd => do
    match ← s.getNextBatchToRun plan with
    | (s, none) => some { s with lastBatch := none }
    | (s, some b) => s.runBatch g fwd b

end Scheduler

end DynaSpec.Managers
