/-
  DynaSpec.Managers.DraftRows — whose rows a draft input holds.

  `Rows c last owners d`: the tensors of the draft input `d` have one row for each request
  of `owners`, in that order: the row `c` computed for it, and as verified id the token
  `last` names. Gathering, truncating and concatenating the tensors does the same to the
  owners (`Rows.gather`, `Rows.take`, `Rows.merge`), so `filter_batch` is right about a
  draft input exactly when the requests it keeps are the owners it leaves
  (`filterIndices_rows`).
-/

import DynaSpec.Managers.Scheduler

namespace DynaSpec.Managers

open DynaSpec.Lib DynaSpec.Constrained List
open Function (comp_def)
open Option (bind_eq_some_iff)

variable {σ Row : Type} {t : Int}

structure Rows (c : ReqId → DraftRow Row) (last : ReqId → Option Int) (owners : List ReqId) (d : EagleDraftInput Row) : Prop where
  topkP : d.topkP = owners.map fun r => (c r).topkP
  topkIndex : d.topkIndex = owners.map fun r => (c r).topkIndex
  hiddenStates : d.hiddenStates = some (owners.map fun r => (c r).hiddenStates)
  verifiedId : d.verifiedId.map some = owners.map last

namespace Rows
variable {c c' : ReqId → DraftRow Row} {last last' : ReqId → Option Int} {owners owners' : List ReqId}
  {d d' : EagleDraftInput Row}

section
variable (h : Rows c last owners d)
include h

theorem congr (hc : ∀ r ∈ owners, c' r = c r) (hl : ∀ r ∈ owners, last' r = last r) : Rows c' last' owners d := by
  have hmap : ∀ f : DraftRow Row → Row, owners.map (fun r => f (c r)) = owners.map fun r => f (c' r) := by
    intro f
    exact map_congr_left fun r hr => by rw [hc r hr]
  refine ⟨h.topkP.trans (hmap _), h.topkIndex.trans (hmap _), h.hiddenStates.trans (congrArg some (hmap _)), ?_⟩
  exact h.verifiedId.trans (map_congr_left fun r hr => (hl r hr).symm)

theorem take (idx : List Nat) : ∃ d', d.filterBatch idx true = some d' ∧ Rows c last (owners.take idx.length) d' := by
  refine ⟨_, rfl, ?_, ?_, ?_, ?_⟩
  · simp [h.topkP, map_take]
  · simp [h.topkIndex, map_take]
  · simp [h.hiddenStates, map_take]
  · simp [map_take, h.verifiedId]

theorem gather {idx : List Nat} (hg : Lib.gather owners idx = some owners') :
    ∃ d', d.filterBatch idx false = some d' ∧ Rows c last owners' d' := by
  have hmap : ∀ {β : Type} (f : ReqId → β), Lib.gather (owners.map f) idx = some (owners'.map f) := by
    intro β f
    rw [gather_map, hg, Option.map_some]
  obtain ⟨v, hv, hvl⟩ : ∃ v, Lib.gather d.verifiedId idx = some v ∧ v.map some = owners'.map last := by
    have := hmap last
    rw [← h.verifiedId, gather_map] at this
    exact Option.map_eq_some_iff.mp this
  refine ⟨{ d with topkP := _, topkIndex := _, hiddenStates := some _, verifiedId := v }, ?_, rfl, rfl, rfl, hvl⟩
  simp [EagleDraftInput.filterBatch, h.topkP, h.topkIndex, h.hiddenStates, hv, hmap]

theorem merge (h' : Rows c last owners' d') : Rows c last (owners ++ owners') (d.mergeBatch d') := by
  unfold EagleDraftInput.mergeBatch
  rw [h.hiddenStates, h'.hiddenStates]
  refine ⟨?_, ?_, ?_, ?_⟩
  · simp [h.topkP, h'.topkP]
  · simp [h.topkIndex, h'.topkIndex]
  · simp
  · simp [h.verifiedId, h'.verifiedId]

end

theorem capture {v : List Int} (hd : d.verifiedId = v) (hv : v.map some = owners.map last) :
    Rows c last owners (d.captureForDecode (owners.map c)) := by
  refine ⟨?_, ?_, ?_, ?_⟩
  · simp [EagleDraftInput.captureForDecode, comp_def]
  · simp [EagleDraftInput.captureForDecode, comp_def]
  · simp [EagleDraftInput.captureForDecode, comp_def]
  · exact hd ▸ hv

end Rows

/-! ## Batches -/

/-- A batch that is not empty has the rows of its own requests. -/
def Carries (c : ReqId → DraftRow Row) (last : ReqId → Option Int) (owners : List ReqId) (b : ScheduleBatch Row) : Prop :=
  b.reqs ≠ [] → b.rows = b.reqs ∧ ∃ d, b.specInfo = some d ∧ Rows c last owners d

variable {c : ReqId → DraftRow Row} {last : ReqId → Option Int} {owners kept : List ReqId}

theorem filterIndices_rows {b : ScheduleBatch Row} (keep : List Nat) (hasBeenFiltered : Bool) (hb : Carries c last owners b)
    (hg : gather b.reqs keep = some kept) (hsub : kept.Sublist b.reqs)
    (htake : hasBeenFiltered = true → owners.take kept.length = kept) (hidx : hasBeenFiltered = false → owners = b.reqs)
    (hall : kept = b.reqs → owners = b.reqs) :
    ∃ b', b.filterIndices keep hasBeenFiltered = some b' ∧ b'.reqs = kept ∧ Carries c last kept b' := by
  have hlen := gather_length hg
  unfold ScheduleBatch.filterIndices
  by_cases hnil : keep.isEmpty = true
  · obtain rfl : kept = [] := length_eq_zero_iff.mp (by rw [hlen, isEmpty_iff.mp hnil]; rfl)
    rw [if_pos hnil]
    exact ⟨_, rfl, rfl, absurd rfl⟩
  have hne : b.reqs ≠ [] := by
    intro h0
    rw [h0, sublist_nil] at hsub
    rw [hsub] at hlen
    exact hnil (isEmpty_iff.mpr (length_eq_zero_iff.mp hlen.symm))
  obtain ⟨hrows, d, hd, hr⟩ := hb hne
  rw [if_neg hnil]
  by_cases hsame : keep.length = b.reqs.length
  · have hk : kept = b.reqs := hsub.eq_of_length (hlen.trans hsame)
    rw [if_pos hsame]
    refine ⟨b, rfl, hk.symm, fun _ => ⟨hrows, d, hd, ?_⟩⟩
    rw [hk, ← hall hk]
    exact hr
  rw [if_neg hsame, hrows, hg, hd]
  obtain ⟨d', hd', hr'⟩ : ∃ d', d.filterBatch keep hasBeenFiltered = some d' ∧ Rows c last kept d' := by
    cases hasBeenFiltered with
    | true =>
      have h := hr.take keep
      rwa [← hlen, htake rfl] at h
    | false => exact hr.gather (by rw [hidx rfl]; exact hg)
  exact ⟨{ b with reqs := kept, rows := kept, specInfo := some d' }, by simp [hd'], rfl, fun _ => ⟨rfl, d', rfl, hr'⟩⟩

/-- `filter_batch` keeps the unfinished requests that are not excluded. It truncates the
    draft input unless some request is excluded, so the kept ones have to be the first owners. -/
theorem filterBatch_rows {b : ScheduleBatch Row} (req : ReqId → Req σ) (exclude : List ReqId) (hb : Carries c last owners b)
    (hkept : kept = b.reqs.filter fun r => !(req r).finished && !exclude.contains r)
    (htake : exclude = [] → owners.take kept.length = kept) (hidx : exclude ≠ [] → owners = b.reqs)
    (hall : kept = b.reqs → owners = b.reqs) : ∃ b', b.filterBatch req exclude = some b' ∧ b'.reqs = kept ∧
      Carries c last kept b' := by
  apply filterIndices_rows _ _ hb
  · rw [hkept]
    exact gather_indicesWhere _ b.reqs
  · rw [hkept]
    exact filter_sublist
  · exact fun h => htake (isEmpty_iff.mp h)
  · intro h
    apply hidx
    intro h0
    simp [h0] at h
  · exact hall

/-! ## Verification -/

variable {q : Req σ}

namespace Req
variable {g : GrammarObject σ}

@[simp] theorem append_outputIds (q : Req σ) (t : Int) : (q.append t).outputIds = q.outputIds ++ [t] := rfl

theorem acceptGrammar_ok {q' : Req σ} (h : q.acceptGrammar g t = .ok q') : ∃ s, q' = { q with grammar := s } := by
  unfold acceptGrammar at h
  cases hs : q.grammar with
  | none =>
    rw [hs] at h
    cases h
    exact ⟨none, by rw [← hs]⟩
  | some s =>
    simp only [hs] at h
    cases ha : g.acceptToken t.toNat s with
    | error e => simp [ha, Except.map] at h
    | ok s' =>
      rw [ha] at h
      cases h
      exact ⟨some s', rfl⟩

/-- A change of the grammar's state matters to the finish check only if it terminates. -/
theorem Passes.setGrammar {n : Nat} (h : Passes g q n) (s : Option σ)
    (hs : ({ q with grammar := s } : Req σ).grammarTerminated g = false) : Passes g { q with grammar := s } n :=
  ⟨h.unfinished, h.noToFinish, h.length, hs, h.token, h.vocab, h.str⟩

end Req

namespace Scheduler
variable {g : GrammarObject σ}

/-- A request that verification leaves unfinished ends with the last token kept, and is
    found finished by a second check only if its grammar has terminated. -/
theorem acceptTokens_spec {ts kept : List Int} {q q' : Req σ} (hts : ts ≠ [])
    (h : acceptTokens g ts q = some (q', kept)) : kept ≠ [] ∧ (q'.finished = false →
      q'.outputIds.getLast? = kept.getLast? ∧ (q'.grammarTerminated g = false → Req.Passes g q' 1)) := by
  induction ts generalizing q q' kept with
  | nil => exact absurd rfl hts
  | cons t ts ih =>
    simp only [acceptTokens] at h
    split at h
    · rename_i hf
      cases h
      exact ⟨cons_ne_nil t [], fun h => absurd hf (by simp [h])⟩
    rename_i hf
    obtain ⟨q2, hq2, h⟩ := bind_eq_some_iff.mp h
    obtain ⟨⟨q3, kept3⟩, hrest, h⟩ := bind_eq_some_iff.mp h
    cases h
    refine ⟨cons_ne_nil t kept3, ?_⟩
    cases ts with
    | cons t' ts =>
      obtain ⟨hne, hlast⟩ := ih (cons_ne_nil t' ts) hrest
      intro hq
      obtain ⟨hl, hp⟩ := hlast hq
      exact ⟨by rw [hl, getLast?_cons_of_ne_nil hne], hp⟩
    | nil =>
      cases hrest
      intro _
      have hp := Req.passes_of_unfinished (by simpa using hf)
      rw [hp.checkFinished] at hq2
      obtain ⟨s, rfl⟩ : ∃ s, q2 = { q.append t with grammar := s } := by
        cases hacc : (q.append t).acceptGrammar g t with
        | error e => simp [hacc, Except.toOption] at hq2
        | ok q3 =>
          rw [hacc] at hq2
          cases hq2
          exact Req.acceptGrammar_ok hacc
      exact ⟨by simp, hp.setGrammar s⟩

/-- Each request has its own row, so the loop of `verify` treats them one by one. -/
theorem verifyReqs_spec {acc : ReqId → List Int} (hacc : ∀ r, acc r ≠ []) {l : List ReqId} {req req' : ReqId → Req σ}
    {kept : List (List Int)} (hn : l.Nodup) (h : verifyReqs g (l.map fun r => (r, acc r)) req = some (req', kept)) :
    (∀ r ∉ l, req' r = req r) ∧ ∃ k : ReqId → List Int, kept = l.map k ∧ ∀ r ∈ l, k r ≠ [] ∧
        ((req' r).finished = false → (req' r).outputIds.getLast? = (k r).getLast? ∧
          ((req' r).grammarTerminated g = false → Req.Passes g (req' r) 1)) := by
  induction l generalizing req req' kept with
  | nil =>
    cases h
    exact ⟨fun _ _ => rfl, acc, rfl, by simp⟩
  | cons r l ih =>
    obtain ⟨hr, hn⟩ := nodup_cons.mp hn
    simp only [map_cons, verifyReqs] at h
    obtain ⟨⟨q, k0⟩, hq, h⟩ := bind_eq_some_iff.mp h
    obtain ⟨⟨req2, rows⟩, hrest, h⟩ := bind_eq_some_iff.mp h
    cases h
    obtain ⟨hframe, k, rfl, hk⟩ := ih hn hrest
    dsimp only at hframe ⊢
    have hreq : req2 r = q := by rw [hframe r hr, upd_same]
    refine ⟨?_, upd k r k0, ?_, ?_⟩
    · intro r' hr'
      rw [mem_cons, not_or] at hr'
      rw [hframe r' hr'.2, upd_ne _ _ hr'.1]
    · rw [map_cons, upd_same]
      congr 1
      exact map_congr_left fun r' hr' => (upd_ne k k0 fun e : r' = r => hr (e ▸ hr')).symm
    intro r' hr'
    rcases mem_cons.mp hr' with rfl | hr'
    · rw [upd_same, hreq]
      exact acceptTokens_spec (hacc r') hq
    · rw [upd_ne k k0 fun e : r' = r => hr (e ▸ hr')]
      exact hk r' hr'

/-- The draft input after verification is about the unfinished requests, in order. -/
theorem verifyDraftInput_spec (req : ReqId → Req σ) {b : ScheduleBatch Row} (k : ReqId → List Int)
    (hne : b.reqs ≠ []) (hrows : b.rows = b.reqs) : ∃ d, verifyDraftInput req (b.reqs.map k) b = some d ∧
      ((b.reqs.filter (fun r => !(req r).finished) = [] ∧ d = EagleDraftInput.createIdleInput) ∨
        (b.reqs.filter (fun r => !(req r).finished) ≠ [] ∧
        d.verifiedId = ((b.reqs.filter fun r => !(req r).finished).map k).flatten ∧
          d.acceptLength = (b.reqs.filter fun r => !(req r).finished).map (fun r => (k r).length - 1) ∧
          d.rowsForDraftExtend = b.reqs.filter fun r => !(req r).finished)) := by
  unfold verifyDraftInput
  simp only [hrows, map_map, comp_def]
  by_cases hfin : (b.reqs.any fun r => (req r).finished) = true
  · simp only [hfin, Bool.not_true, Bool.false_eq_true, if_false]
    have hgather := gather_indicesWhere (fun r => !(req r).finished) b.reqs
    have hlen := gather_length hgather
    by_cases hnil : (indicesWhere (fun r => !(req r).finished) b.reqs).isEmpty = true
    · rw [if_pos hnil]
      refine ⟨_, rfl, .inl ⟨?_, rfl⟩⟩
      rw [isEmpty_iff.mp hnil] at hlen
      exact length_eq_zero_iff.mp hlen
    rw [if_neg hnil, gather_map, gather_map, hgather]
    refine ⟨_, rfl, .inr ⟨?_, rfl, rfl, rfl⟩⟩
    intro h0
    rw [h0] at hlen
    exact hnil (isEmpty_iff.mpr (length_eq_zero_iff.mp hlen.symm))
  have hself : b.reqs.filter (fun r => !(req r).finished) = b.reqs := by
    apply filter_eq_self.mpr
    intro r hr
    simp only [any_eq_true, not_exists, not_and] at hfin
    simpa using hfin r hr
  simp only [hfin, Bool.not_false, if_true, hself]
  exact ⟨_, rfl, .inr ⟨hne, rfl, rfl, rfl⟩⟩

/-- After a decode step each sequence of the draft extend has the row just computed for
    it and, as verified id, the last token kept. -/
theorem forwardDraftExtendAfterDecode_rows (fwd : Forward Row) {d : EagleDraftInput Row}
    {k : ReqId → List Int} (hk : ∀ r ∈ owners, k r ≠ []) (hd : d.verifiedId = (owners.map k).flatten)
    (ha : d.acceptLength = owners.map fun r => (k r).length - 1) (hr : d.rowsForDraftExtend = owners) :
    ∃ d', forwardDraftExtendAfterDecode fwd d = some d' ∧ Rows fwd.draft (fun r => (k r).getLast?) owners d' := by
  have hlens : d.acceptLength.map (· + 1) = (owners.map k).map length := by
    rw [ha, map_map, map_map]
    apply map_congr_left
    intro r hr
    have := length_pos_iff.mpr (hk r hr)
    simp only [Function.comp_apply]
    omega
  obtain ⟨v, hv, hvl⟩ := gather_lasts (owners.map k) (by simpa using hk)
  refine ⟨_, ?_, Rows.capture (d := { d with verifiedId := v }) rfl ?_⟩
  · simp only [forwardDraftExtendAfterDecode, createExtendAfterDecodeSpecInfo, hlens, hd, length_map] at hv ⊢
    rw [hv, hr]
    rfl
  · rw [hvl, map_map]
    rfl

theorem processBatchResultDecode_eq {req : ReqId → Req σ} (l : List ReqId)
    (h : ∀ r ∈ l, (req r).checkFinished g = req r) : processBatchResultDecode g l req = req := by
  induction l with
  | nil => rfl
  | cons r l ih =>
    rw [processBatchResultDecode, h r mem_cons_self, upd_self]
    exact ih fun r' hr' => h r' (mem_cons_of_mem r hr')

/-! ## Prefill results -/

/-- What an abort leaves of a request. -/
structure Keeps (q q' : Req σ) : Prop where
  outputIds : q'.outputIds = q.outputIds
  finishedReason : q'.finishedReason = q.finishedReason
  isChunked : q'.isChunked = q.isChunked
  isRetracted : q'.isRetracted = q.isRetracted

theorem Keeps.refl (q : Req σ) : Keeps q q := ⟨rfl, rfl, rfl, rfl⟩

theorem Keeps.trans {q' q'' : Req σ} (h : Keeps q q') (h' : Keeps q' q'') : Keeps q q'' :=
  ⟨h'.1.trans h.1, h'.2.trans h.2, h'.3.trans h.3, h'.4.trans h.4⟩

theorem Keeps.finished {q' : Req σ} (h : Keeps q q') : q'.finished = q.finished := by
  rw [Req.finished, h.finishedReason, Req.finished]

/-- What processing a result leaves of the scheduler, the requests apart. -/
structure Frame (s s' : Scheduler σ Row) : Prop where
  waitingQueue : s'.waitingQueue.Sublist s.waitingQueue
  runningBatch : s'.runningBatch = s.runningBatch
  lastBatch : s'.lastBatch = s.lastBatch
  chunkedReq : s'.chunkedReq = s.chunkedReq
  computed : s'.computed = s.computed

theorem Frame.refl (s : Scheduler σ Row) : Frame s s := ⟨List.Sublist.refl _, rfl, rfl, rfl, rfl⟩

theorem Frame.trans {s s' s'' : Scheduler σ Row} (h : Frame s s') (h' : Frame s' s'') : Frame s s'' :=
  ⟨h'.1.trans h.1, h'.2.trans h.2, h'.3.trans h.3, h'.4.trans h.4, h'.5.trans h.5⟩

theorem abortRequest_frame (cur : Option (ScheduleBatch Row)) (rid : List Char) (s : Scheduler σ Row) :
    Frame s (s.abortRequest cur rid) ∧ ∀ r, Keeps (s.req r) ((s.abortRequest cur rid).req r) := by
  refine ⟨⟨filter_sublist, rfl, rfl, rfl, rfl⟩, ?_⟩
  intro r
  simp only [abortRequest]
  split
  · exact ⟨rfl, rfl, rfl, rfl⟩
  · exact Keeps.refl _

/-- What a prefill result makes of a request: a chunked one waits for its next chunk, any
    other one ends with the token or is finished. -/
structure Prefilled (t : Int) (q q' : Req σ) : Prop where
  chunked : 0 < q.isChunked → q'.outputIds = q.outputIds ∧ q'.finishedReason = q.finishedReason ∧ q'.isChunked = q.isChunked - 1
  last : q.isChunked ≤ 0 → q'.finished = false → q'.outputIds.getLast? = some t

theorem Prefilled.keeps {q' q'' : Req σ} (h : Prefilled t q q') (hk : Keeps q' q'') : Prefilled t q q'' := by
  refine ⟨?_, ?_⟩
  · intro hc
    obtain ⟨h1, h2, h3⟩ := h.chunked hc
    exact ⟨hk.outputIds.trans h1, hk.finishedReason.trans h2, hk.isChunked.trans h3⟩
  · intro hc hf
    rw [hk.outputIds]
    exact h.last hc (hk.finished ▸ hf)

theorem Prefilled.of_keeps {q' q'' : Req σ} (hk : Keeps q q') (h : Prefilled t q' q'') : Prefilled t q q'' := by
  refine ⟨?_, ?_⟩
  · intro hc
    obtain ⟨h1, h2, h3⟩ := h.chunked (hk.isChunked ▸ hc)
    exact ⟨h1.trans hk.outputIds, h2.trans hk.finishedReason, by rw [h3, hk.isChunked]⟩
  · exact fun hc => h.last (hk.isChunked ▸ hc)

theorem processPrefillReq_spec {cur : ScheduleBatch Row} {s s' : Scheduler σ Row} {r : ReqId} {t : Int}
    (hf : (s.req r).finished = false) (hret : (s.req r).isRetracted = false) (h : s.processPrefillReq g cur r t = some s') :
    Frame s s' ∧ Prefilled t (s.req r) (s'.req r) ∧ ∀ r' ≠ r, Keeps (s.req r') (s'.req r') := by
  unfold processPrefillReq at h
  simp only [hf, hret, Bool.or_self, Bool.false_eq_true, if_false] at h
  have hframe : ∀ q, Frame s (s.setReq r q) := fun q => ⟨List.Sublist.refl _, rfl, rfl, rfl, rfl⟩
  have hother : ∀ q, ∀ r' ≠ r, Keeps (s.req r') ((s.setReq r q).req r') := by
    intro q r' hr'
    simp only [setReq, upd_ne s.req q hr']
    exact Keeps.refl _
  have hsame : ∀ q, (s.setReq r q).req r = q := upd_same s.req r
  split at h
  · rename_i hc
    have hlast : (((s.req r).append t).checkFinished g).finished = false →
        (((s.req r).append t).checkFinished g).outputIds.getLast? = some t := by
      intro hu
      rw [(Req.passes_of_unfinished hu).checkFinished]
      simp
    split at h
    · rename_i q hq
      cases h
      obtain ⟨gs, rfl⟩ := Req.acceptGrammar_ok hq
      refine ⟨hframe _, ⟨fun hc' => absurd hc' (by omega), fun _ => ?_⟩, hother _⟩
      rw [hsame]
      exact hlast
    · cases h
      obtain ⟨hfr, hk⟩ := abortRequest_frame (some cur) (((s.req r).append t).checkFinished g).rid
        (s.setReq r (((s.req r).append t).checkFinished g))
      refine ⟨(hframe _).trans hfr, ⟨fun hc' => absurd hc' (by omega), fun _ hu => ?_⟩, ?_⟩
      · rw [(hk r).finished, hsame] at hu
        rw [(hk r).outputIds, hsame]
        exact hlast hu
      · intro r' hr'
        exact (hother _ r' hr').trans (hk r')
    · cases h
  · rename_i hc
    cases h
    refine ⟨hframe _, ⟨fun _ => ?_, fun hc' => absurd hc' hc⟩, hother _⟩
    rw [hsame]
    exact ⟨rfl, rfl, rfl⟩

theorem processBatchResultPrefill_spec {cur : ScheduleBatch Row} {tok : ReqId → Int} {l : List ReqId}
    {s s' : Scheduler σ Row} (hn : l.Nodup) (hu : ∀ r ∈ l, (s.req r).finished = false ∧ (s.req r).isRetracted = false)
    (h : s.processBatchResultPrefill g cur (l.map fun r => (r, tok r)) = some s') :
    Frame s s' ∧ (∀ r ∈ l, Prefilled (tok r) (s.req r) (s'.req r)) ∧ ∀ r ∉ l, Keeps (s.req r) (s'.req r) := by
  induction l generalizing s s' with
  | nil =>
    cases h
    exact ⟨Frame.refl s, by simp, fun r _ => Keeps.refl _⟩
  | cons r l ih =>
    obtain ⟨hr, hn⟩ := nodup_cons.mp hn
    obtain ⟨s1, h1, h2⟩ := bind_eq_some_iff.mp h
    obtain ⟨hf1, hp1, hk1⟩ := processPrefillReq_spec (hu r mem_cons_self).1 (hu r mem_cons_self).2 h1
    have hne : ∀ r' ∈ l, r' ≠ r := fun r' hr' e => hr (e ▸ hr')
    obtain ⟨hf2, hp2, hk2⟩ := ih hn (fun r' hr' => by
      have hk := hk1 r' (hne r' hr')
      rw [hk.finished, hk.isRetracted]
      exact hu r' (mem_cons_of_mem r hr')) h2
    refine ⟨hf1.trans hf2, ?_, ?_⟩
    · intro r' hr'
      rcases mem_cons.mp hr' with rfl | hr'
      · exact hp1.keeps (hk2 r' hr)
      · exact (hp2 r' hr').of_keeps (hk1 r' (hne r' hr'))
    · intro r' hr'
      rw [mem_cons, not_or] at hr'
      exact (hk1 r' hr'.1).trans (hk2 r' hr'.2)

end Scheduler

end DynaSpec.Managers
