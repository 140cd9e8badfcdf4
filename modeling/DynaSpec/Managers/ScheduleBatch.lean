/-
  DynaSpec.Managers.ScheduleBatch — requests and batches (srt/managers/schedule_batch.py)
  and the draft input that travels with a batch (EagleDraftInput of
  srt/speculative/eagle_info.py).

  A request is an object: a batch holds its id, and the scheduler's store says what the
  object holds now. The tensors of a batch (`req_pool_indices`, `seq_lens`, …) are
  gathered and concatenated together; `rows` says whose sequence each of their rows is.
  The rows of the draft input's tensors are of an arbitrary type `Row`. `none` is an
  exception of the source (an index out of range, an assertion).
-/

import DynaSpec.Constrained.Grammar
import DynaSpec.Lib.Gather

namespace DynaSpec.Managers

open DynaSpec.Lib DynaSpec.Constrained

abbrev ReqId := Nat

/-! ## Requests -/

inductive FinishReason where
  | abort
  | length (length : Nat)
  | matchedToken (matched : Int)
  | matchedStr
  | nanHappened
  deriving DecidableEq, Repr

/-- What the finish checks of a request read. `strBasedFinish` is the answer of
    `_check_str_based_finish`, which decodes the output ids with the tokenizer. -/
structure Req (σ : Type) where
  rid : List Char
  maxNewTokens : Nat
  ignoreEos : Bool := false
  stopTokenIds : List Int := []
  eosTokenIds : List Int := []
  tokenizerStopTokenIds : List Int := []
  vocabSize : Int
  strBasedFinish : List Int → Option FinishReason := fun _ => none
  grammar : Option σ := none
  outputIds : List Int := []
  toFinish : Option FinishReason := none
  finishedReason : Option FinishReason := none
  isChunked : Int := 0
  isRetracted : Bool := false

namespace Req
variable {σ : Type}

variable (q : Req σ)

def finished : Bool := q.finishedReason.isSome

def isPrefillOnly : Bool := q.maxNewTokens == 0

def append (t : Int) : Req σ := { q with outputIds := q.outputIds ++ [t] }

def isStopToken (t : Int) : Bool :=
  q.stopTokenIds.contains t || q.eosTokenIds.contains t || q.tokenizerStopTokenIds.contains t

def checkTokenBasedFinish (newAcceptedTokens : List Int) : Option FinishReason :=
  if q.ignoreEos then none else (newAcceptedTokens.find? q.isStopToken).map .matchedToken

/-- Where a token outside of the vocabulary is replaced, and by what. -/
def checkVocabBoundaryFinish (newAcceptedTokens : List Int) : Option (List Int) :=
  (newAcceptedTokens.findIdx? fun t => t > q.vocabSize || t < 0).map fun i =>
    let offset := q.outputIds.length - newAcceptedTokens.length + i
    let ids := match q.stopTokenIds.head? with
      | some t => q.outputIds.set offset t
      | none => q.outputIds
    match q.eosTokenIds.head? with
      | some t => ids.set offset t
      | none => ids

variable (g : GrammarObject σ) (q : Req σ)

def grammarTerminated : Bool := q.grammar.any g.isTerminated

def checkFinished (newAcceptedLen : Nat := 1) : Req σ :=
  let newAcceptedTokens := q.outputIds.drop (q.outputIds.length - newAcceptedLen)
  if q.finished then q
  else if q.toFinish.isSome then { q with finishedReason := q.toFinish, toFinish := none }
  else if q.outputIds.length ≥ q.maxNewTokens then { q with finishedReason := some (.length q.maxNewTokens) }
  else if q.grammarTerminated g then { q with finishedReason := some (.matchedToken (q.outputIds.getLastD 0)) }
  else match q.checkTokenBasedFinish newAcceptedTokens with
    | some why => { q with finishedReason := some why }
    | none =>
      match q.checkVocabBoundaryFinish newAcceptedTokens with
      | some ids => { q with outputIds := ids, finishedReason := some .nanHappened }
      | none => { q with finishedReason := q.strBasedFinish q.outputIds }

def acceptGrammar (t : Int) : Except GrammarError (Req σ) :=
  match q.grammar with
  | none => .ok q
  | some s => (g.acceptToken t.toNat s).map fun s' => { q with grammar := some s' }

def resetForRetract : Req σ := { q with isChunked := 0, isRetracted := true }

/-- None of the tests of `check_finished` succeeds. -/
structure Passes (g : GrammarObject σ) (q : Req σ) (n : Nat) : Prop where
  unfinished : q.finishedReason = none
  noToFinish : q.toFinish = none
  length : q.outputIds.length < q.maxNewTokens
  grammar : q.grammarTerminated g = false
  token : q.checkTokenBasedFinish (q.outputIds.drop (q.outputIds.length - n)) = none
  vocab : q.checkVocabBoundaryFinish (q.outputIds.drop (q.outputIds.length - n)) = none
  str : q.strBasedFinish q.outputIds = none

variable {g : GrammarObject σ} {q : Req σ} {n : Nat}

theorem Passes.checkFinished (h : Passes g q n) : q.checkFinished g n = q := by
  have hlen : ¬ q.outputIds.length ≥ q.maxNewTokens := Nat.not_le.mpr h.length
  have hstr : ({ q with finishedReason := q.strBasedFinish q.outputIds } : Req σ) = q := by
    rw [h.str, ← h.unfinished]
  have hf : q.finished = false := by simp [finished, h.unfinished]
  have hto : q.toFinish.isSome = false := by simp [h.noToFinish]
  simp [Req.checkFinished, hf, hto, hlen, h.grammar, h.token, h.vocab, hstr]

theorem passes_of_unfinished (h : (q.checkFinished g n).finished = false) : Passes g q n := by
  unfold Req.checkFinished at h
  dsimp only at h
  split at h
  · simp_all
  rename_i hf
  split at h
  · simp_all [finished]
  rename_i hto
  split at h
  · cases h
  rename_i hlen
  split at h
  · cases h
  rename_i hg
  split at h
  · cases h
  rename_i htok
  split at h
  · cases h
  rename_i hvoc
  refine ⟨?_, ?_, Nat.lt_of_not_le hlen, by simpa using hg, htok, hvoc, ?_⟩
  · simpa [finished] using hf
  · simpa using hto
  · simpa [finished] using h

end Req

/-! ## The draft input -/

/-- What the draft model's forward pass computes for one sequence. -/
structure DraftRow (Row : Type) where
  topkP : Row
  topkIndex : Row
  hiddenStates : Row

/-- `rowsForDraftExtend` is whose sequences `req_pool_indices_for_draft_extend` lists. -/
structure EagleDraftInput (Row : Type) where
  topkP : List Row := []
  topkIndex : List Row := []
  hiddenStates : Option (List Row) := none
  verifiedId : List Int := []
  acceptLength : List Nat := []
  rowsForDraftExtend : List ReqId := []

namespace EagleDraftInput
variable {Row : Type}

def createIdleInput : EagleDraftInput Row := { hiddenStates := some [] }

def captureForDecode (logitsOutput : List (DraftRow Row)) (d : EagleDraftInput Row) : EagleDraftInput Row :=
  { d with topkP := logitsOutput.map (·.topkP), topkIndex := logitsOutput.map (·.topkIndex),
           hiddenStates := some (logitsOutput.map (·.hiddenStates)) }

def filterBatch (newIndices : List Nat) (hasBeenFiltered : Bool) (d : EagleDraftInput Row) : Option (EagleDraftInput Row) :=
  if hasBeenFiltered then
    some { d with topkP := d.topkP.take newIndices.length, topkIndex := d.topkIndex.take newIndices.length,
                  hiddenStates := d.hiddenStates.map (·.take newIndices.length),
                  verifiedId := d.verifiedId.take newIndices.length }
  else do
    let topkP ← gather d.topkP newIndices
    let topkIndex ← gather d.topkIndex newIndices
    let hiddenStates ← d.hiddenStates.bind (gather · newIndices)
    let verifiedId ← gather d.verifiedId newIndices
    some { d with topkP := topkP, topkIndex := topkIndex, hiddenStates := some hiddenStates, verifiedId := verifiedId }

def mergeBatch (d specInfo : EagleDraftInput Row) : EagleDraftInput Row :=
  match d.hiddenStates, specInfo.hiddenStates with
  | none, _ =>
    { d with hiddenStates := specInfo.hiddenStates, verifiedId := specInfo.verifiedId, topkP := specInfo.topkP,
             topkIndex := specInfo.topkIndex }
  | some _, none => d
  | some hs, some hs' =>
    { d with hiddenStates := some (hs ++ hs'), verifiedId := d.verifiedId ++ specInfo.verifiedId,
             topkP := d.topkP ++ specInfo.topkP, topkIndex := d.topkIndex ++ specInfo.topkIndex }

end EagleDraftInput

/-! ## Batches -/

inductive ForwardMode where
  | extend
  | decode
  deriving DecidableEq, Repr

structure ScheduleBatch (Row : Type) where
  reqs : List ReqId
  rows : List ReqId := []
  forwardMode : ForwardMode := .extend
  chunkedReq : Option ReqId := none
  isPrefillOnly : Bool := false
  specInfo : Option (EagleDraftInput Row) := none

namespace ScheduleBatch
variable {σ Row : Type}

def isEmpty (b : ScheduleBatch Row) : Bool := b.reqs.isEmpty

/-- `init_new` followed by `prepare_for_extend`. -/
def initNew (req : ReqId → Req σ) (reqs : List ReqId) (chunkedReq : Option ReqId) : ScheduleBatch Row :=
  { reqs := reqs, rows := reqs, chunkedReq := chunkedReq, isPrefillOnly := reqs.all fun r => (req r).isPrefillOnly }

variable (req : ReqId → Req σ) (chunkedReqToExclude : List ReqId)

def keepIndices (b : ScheduleBatch Row) : List Nat :=
  indicesWhere (fun r => !(req r).finished && !chunkedReqToExclude.contains r) b.reqs

/-- `filter_batch` once `keep_indices` is known. -/
def filterIndices (keep : List Nat) (hasBeenFiltered : Bool) (b : ScheduleBatch Row) : Option (ScheduleBatch Row) :=
  if keep.isEmpty then some { b with reqs := [] }
  else if keep.length = b.reqs.length then some b
  else do
    let reqs ← gather b.reqs keep
    let rows ← gather b.rows keep
    match b.specInfo with
    | none => some { b with reqs := reqs, rows := rows }
    | some d => do
      let d ← d.filterBatch keep hasBeenFiltered
      some { b with reqs := reqs, rows := rows, specInfo := some d }

/-- The draft input is taken to be filtered already unless some request is excluded. -/
def filterBatch (b : ScheduleBatch Row) :
    Option (ScheduleBatch Row) :=
  b.filterIndices (b.keepIndices req chunkedReqToExclude) chunkedReqToExclude.isEmpty

/-- `self.spec_info.merge_batch(None)` would raise. -/
def mergeBatch (b other : ScheduleBatch Row) : Option (ScheduleBatch Row) :=
  match b.specInfo with
  | none => some { b with reqs := b.reqs ++ other.reqs, rows := b.rows ++ other.rows }
  | some d => do
    let d' ← other.specInfo
    some { b with reqs := b.reqs ++ other.reqs, rows := b.rows ++ other.rows, specInfo := some (d.mergeBatch d') }

end ScheduleBatch

end DynaSpec.Managers
