/-
  DynaSpec.Managers.PenaltyOwn — penalties depend on the request's own output.

  Between two iterations a batch is one token ahead of its penalizers (`Pending`);
  preparing it for decode feeds them that token, and then they tell every request's
  output (`Ready`). Filtering, merging and mixing keep this (`filterBatch_pending`,
  `mergeBatch_pending`, `mixRunning_sampling`). A new batch's penalizers tell that nothing
  has been put out, which is wrong for a request that was retracted: so in a run in which
  no request that uses a penalty is prefilled again with its output kept
  (`Plan.Restarts`), `penalty_own_output`; otherwise not (`retracted_penalty_lost`).
-/

import DynaSpec.Managers.NormalScheduler

namespace DynaSpec.Managers.Normal

open DynaSpec.Lib DynaSpec.Sampling List Option Batch

variable {P : Type} {except : List ReqId} {plan : Plan} {c : Option ReqId}

/-! ## Batches and what their penalizers tell -/

variable (req : ReqId → Req P) (seen : ReqId → List Nat) (reqs : List ReqId)

/-- The requests with the outputs that are told of them. -/
def told : List (SamplingParams P × List Nat) :=
  reqs.map fun r => ((req r).samplingParams, seen r)

theorem told_fst : (told req seen reqs).map Prod.fst = params req reqs := by
  simp [told, params]

theorem told_congr {req req' : ReqId → Req P} {seen seen' : ReqId → List Nat} {reqs : List ReqId}
    (h : ∀ r ∈ reqs, (req r).samplingParams = (req' r).samplingParams ∧ seen r = seen' r) :
    told req seen reqs = told req' seen' reqs := by
  apply map_congr_left
  intro r hr
  rw [(h r hr).1, (h r hr).2]

variable [AddCommGroup P] [DecidableEq P] {vocabSize : Nat}

/-- The penalizers tell what each request has put out. -/
def Ready (vocabSize : Nat) (req : ReqId → Req P) (b : Batch P) : Prop :=
  ∃ o, b.orchestrator = some o ∧ Tracks vocabSize (told req (fun r => (req r).outputIds) b.reqs) o

/-- The penalizers tell what each request had put out before the tokens in `output_ids`;
    the requests in `except` have not put out theirs. -/
def Pending (vocabSize : Nat) (except : List ReqId) (req : ReqId → Req P) (b : Batch P) : Prop :=
  ∃ o ids seen, b.orchestrator = some o ∧ b.outputIds = some ids ∧ Tracks vocabSize (told req seen b.reqs) o ∧
    List.Forall₂ (fun r t => r ∉ except → (req r).outputIds = seen r ++ [t]) b.reqs ids

variable {b : Batch P}

theorem Pending.congr {req req' : ReqId → Req P} (h : Pending vocabSize except req b)
    (hreq : ∀ r ∈ b.reqs, (req' r).samplingParams = (req r).samplingParams ∧ (req' r).outputIds = (req r).outputIds) :
    Pending vocabSize except req' b := by
  obtain ⟨o, ids, seen, ho, hids, ht, hout⟩ := h
  refine ⟨o, ids, seen, ho, hids, ?_, ?_⟩
  · rwa [told_congr fun r hr => ⟨(hreq r hr).1, rfl⟩]
  · rw [forall₂_iff_get] at hout ⊢
    refine ⟨hout.1, fun i h1 h2 hne => ?_⟩
    rw [(hreq _ (get_mem _ ⟨i, h1⟩)).2]
    exact hout.2 i h1 h2 hne

variable {req : ReqId → Req P}

/-- Without exceptions, what was told is the output without its last token. -/
theorem Pending.tracks (h : Pending vocabSize [] req b) : ∃ o ids, b.orchestrator = some o ∧ b.outputIds = some ids ∧
      Tracks vocabSize (told req (fun r => (req r).outputIds.dropLast) b.reqs) o ∧
      List.Forall₂ (fun r t => (req r).outputIds = (req r).outputIds.dropLast ++ [t]) b.reqs ids := by
  obtain ⟨o, ids, seen, ho, hids, ht, hout⟩ := h
  rw [forall₂_iff_get] at hout
  have hdrop : ∀ r ∈ b.reqs, seen r = (req r).outputIds.dropLast := by
    intro r hr
    obtain ⟨i, hi, rfl⟩ := getElem_of_mem hr
    have hr := hout.2 i hi (hout.1 ▸ hi) not_mem_nil
    rw [get_eq_getElem] at hr
    rw [hr, dropLast_concat]
  refine ⟨o, ids, ho, hids, ?_, ?_⟩
  · rwa [told_congr fun r hr => ⟨rfl, hdrop r hr⟩] at ht
  · rw [forall₂_iff_get]
    refine ⟨hout.1, fun i h1 h2 => ?_⟩
    rw [← hdrop _ (get_mem _ ⟨i, h1⟩)]
    exact hout.2 i h1 h2 not_mem_nil

/-- A batch without requests has no penalizers to speak of. -/
def Settled (vocabSize : Nat) (req : ReqId → Req P) (b : Batch P) : Prop := b.reqs = [] ∨ Pending vocabSize [] req b

theorem Settled.congr {req' : ReqId → Req P} (h : Settled vocabSize req b)
    (hreq : ∀ r ∈ b.reqs, (req' r).samplingParams = (req r).samplingParams ∧ (req' r).outputIds = (req r).outputIds) :
    Settled vocabSize req' b :=
  h.imp_right fun hp => hp.congr hreq

/-! ## Filtering and merging -/

theorem filterIndices_pending {req' : ReqId → Req P} (h : Pending vocabSize except req b)
    (hreq : ∀ r, (req' r).samplingParams = (req r).samplingParams) {keep : List Nat} {reqs : List ReqId}
    (hkeep : gather b.reqs keep = some reqs) (hex : ∀ r ∈ reqs, r ∉ except) :
    ∃ b', b.filterIndices req' keep = some b' ∧
      ((keep = [] ∧ b'.reqs = []) ∨ (keep.length = b.reqs.length ∧ b' = b) ∨ (b'.reqs = reqs ∧ Pending vocabSize [] req b')) := by
  obtain ⟨o, ids, seen, ho, hids, ht, hout⟩ := h
  unfold filterIndices
  by_cases hnil : keep = []
  · subst hnil
    exact ⟨_, rfl, .inl ⟨rfl, rfl⟩⟩
  by_cases hall : keep.length = b.reqs.length
  · rw [if_neg (by simpa using hnil), if_pos hall]
    exact ⟨b, rfl, .inr (.inl ⟨hall, rfl⟩)⟩
  rw [if_neg (by simpa using hnil), if_neg hall]
  obtain ⟨ids', hids', hout'⟩ := gather_forall₂ hout hkeep
  have htold : gather (told req seen b.reqs) keep = some (told req seen reqs) := by
    rw [told, gather_map, hkeep]
    rfl
  obtain ⟨o', ho', ht'⟩ := ht.filter hnil htold
  have hparams : (told req seen reqs).map Prod.fst = params req' reqs := by
    rw [told_fst]
    exact map_congr_left fun r _ => (hreq r).symm
  rw [hparams] at ho'
  refine ⟨{ b with reqs := reqs, outputIds := some ids', orchestrator := some o' }, ?_,
    .inr (.inr ⟨rfl, o', ids', seen, rfl, rfl, ht', ?_⟩)⟩
  · simp [hkeep, hids, ho, hids', ho']
  · rw [forall₂_iff_get] at hout' ⊢
    exact ⟨hout'.1, fun i h1 h2 _ => hout'.2 i h1 h2 (hex _ (get_mem _ ⟨i, h1⟩))⟩

theorem filterBatch_pending (exclude : List ReqId) (h : Pending vocabSize except req b) (hsub : except ⊆ exclude) :
    ∃ b', b.filterBatch req exclude = some b' ∧ b'.reqs = b.reqs.filter (fun r => !(req r).finished && !exclude.contains r) ∧
      Settled vocabSize req b' := by
  have hkeep := gather_indicesWhere (fun r => !(req r).finished && !exclude.contains r) b.reqs
  have hex : ∀ r ∈ b.reqs.filter (fun r => !(req r).finished && !exclude.contains r), r ∉ except := by
    intro r hr hm
    have := (mem_filter.mp hr).2
    simp [hsub hm] at this
  have hlen := gather_length hkeep
  obtain ⟨b', hb', hcase⟩ := filterIndices_pending h (fun _ => rfl) hkeep hex
  refine ⟨b', hb', ?_⟩
  rcases hcase with ⟨hnil, hreqs⟩ | ⟨hall, rfl⟩ | ⟨hreqs, hp⟩
  · rw [hnil, length_nil, length_eq_zero_iff] at hlen
    exact ⟨by rw [hreqs, hlen], .inl hreqs⟩
  · -- nothing is filtered out, so no request is excepted
    have hsame : b'.reqs.filter (fun r => !(req r).finished && !exclude.contains r) = b'.reqs :=
      filter_sublist.eq_of_length (by rw [hlen, hall])
    refine ⟨hsame.symm, .inr ?_⟩
    obtain ⟨o, ids, seen, ho, hids, ht, hout⟩ := h
    refine ⟨o, ids, seen, ho, hids, ht, ?_⟩
    rw [hsame] at hex
    rw [forall₂_iff_get] at hout ⊢
    exact ⟨hout.1, fun i h1 h2 _ => hout.2 i h1 h2 (hex _ (get_mem _ ⟨i, h1⟩))⟩
  · exact ⟨hreqs, .inr hp⟩

theorem mergeBatch_pending {b' : Batch P} (h : Pending vocabSize [] req b) (h' : Pending vocabSize [] req b') :
    ∃ b'', b.mergeBatch vocabSize req b' = some b'' ∧ b''.reqs = b.reqs ++ b'.reqs ∧ Pending vocabSize [] req b'' := by
  obtain ⟨o, ids, ho, hids, ht, hout⟩ := h.tracks
  obtain ⟨o', ids', ho', hids', ht', hout'⟩ := h'.tracks
  obtain ⟨o'', hm, ht''⟩ := ht.merge ht'
  rw [told_fst, told_fst] at hm
  refine ⟨{ b with reqs := b.reqs ++ b'.reqs, outputIds := some (ids ++ ids'), orchestrator := some o'' }, ?_, rfl,
    o'', ids ++ ids', fun r => (req r).outputIds.dropLast, rfl, rfl, ?_, ?_⟩
  · simp [mergeBatch, ho, ho', hids, hids', hm]
  · rw [told, map_append]
    exact ht''
  · have happ : List.Forall₂ (fun r t => (req r).outputIds = (req r).outputIds.dropLast ++ [t]) (b.reqs ++ b'.reqs)
        (ids ++ ids') := rel_append hout hout'
    refine List.Forall₂.imp (fun r t hr => ?_) happ
    exact fun _ => hr

theorem prepareForDecode_ready (h : Pending vocabSize [] req b) :
    ∃ b', b.prepareForDecode = some b' ∧ b'.reqs = b.reqs ∧ b'.forwardMode = .decode ∧ Ready vocabSize req b' := by
  obtain ⟨o, ids, ho, hids, ht, hout⟩ := h.tracks
  have hput : putOut (told req (fun r => (req r).outputIds.dropLast) b.reqs) ids =
    told req (fun r => (req r).outputIds) b.reqs := by
    rw [forall₂_iff_get] at hout
    apply ext_getElem
    · simp [putOut, told, ← hout.1]
    · intro i h1 h2
      have hi : i < b.reqs.length := by simpa [told] using h2
      have hr := hout.2 i hi (hout.1 ▸ hi)
      simp only [get_eq_getElem] at hr
      simp [putOut, told, getElem_zipWith, ← hr]
  refine ⟨{ b with forwardMode := .decode, orchestrator := some (if o.isRequired then o.cumulateOutputTokens ids else o),
                   outputIds := none }, ?_, rfl, rfl, _, rfl, ?_⟩
  · simp [prepareForDecode, ho, hids]
  split
  · rw [← hput]
    exact ht.cumulate ids
  rename_i hreq
  refine ht.of_not_required (Bool.eq_false_iff.mpr hreq) ?_
  rw [told_fst, told_fst]

theorem mergeBatch_ready {b' : Batch P} (h : Ready vocabSize req b) (hnone : b.outputIds = none) (h' : Ready vocabSize req b') :
    ∃ b'', b.mergeBatch vocabSize req b' = some b'' ∧ b''.reqs = b.reqs ++ b'.reqs ∧ b''.forwardMode = b.forwardMode ∧
      b''.chunkedReq = b.chunkedReq ∧ Ready vocabSize req b'' := by
  obtain ⟨o, ho, ht⟩ := h
  obtain ⟨o', ho', ht'⟩ := h'
  obtain ⟨o'', hm, ht''⟩ := ht.merge ht'
  rw [told_fst, told_fst] at hm
  refine ⟨{ b with reqs := b.reqs ++ b'.reqs, outputIds := none, orchestrator := some o'' }, ?_, rfl, rfl, rfl, o'', rfl, ?_⟩
  · simp [mergeBatch, ho, ho', hnone, hm]
  · rw [told, map_append]
    exact ht''

/-- A new batch tells that nothing has been put out. -/
theorem initNew_ready {reqs : List ReqId} (chunkedReq : Option ReqId)
    (h : ∀ r ∈ reqs, (req r).outputIds = [] ∨ ∀ k, (penalizerClass P k).required (req r).samplingParams = false) :
    Ready vocabSize req (initNew vocabSize req reqs chunkedReq) := by
  refine ⟨_, rfl, ?_⟩
  have ht : Tracks vocabSize (told req (fun r => (req r).outputIds) reqs)
      (Orchestrator.new vocabSize ((told req (fun r => (req r).outputIds) reqs).map Prod.fst)) := by
    apply tracks_new
    intro x hx
    obtain ⟨r, hr, rfl⟩ := mem_map.mp hx
    exact h r hr
  rwa [told_fst] at ht

/-! ## The states of a run -/

variable {ob : Option (Batch P)}

namespace Scheduler

/-- The requests of the last batch if it still has to join the running batch. -/
def lastReqs (s : Scheduler P) : List ReqId :=
  match s.lastBatch with
  | some b => if b.forwardMode.isExtend then b.reqs else []
  | none => []

/-- Every request is at one place, and is one of those received. -/
structure Placed (nextId : ReqId) (reqs : List ReqId) : Prop where
  nodup : reqs.Nodup
  lt : ∀ r ∈ reqs, r < nextId

theorem Placed.subperm {nextId : ReqId} {l l' : List ReqId} (h : Placed nextId l) (hsub : l'.Subperm l) : Placed nextId l' :=
  ⟨nodup_of_subperm h.nodup hsub, fun r hr => h.lt r (hsub.subset hr)⟩

theorem Placed.concat {nextId : ReqId} {l : List ReqId} (h : Placed nextId l) : Placed (nextId + 1) (l ++ [nextId]) := by
  refine ⟨nodup_append.mpr ⟨h.nodup, nodup_singleton _, ?_⟩, forall_mem_append.mpr ⟨?_, by simp⟩⟩
  · intro a ha b hb e
    exact absurd (h.lt a ha) (by simp [e, mem_singleton.mp hb])
  · exact fun r hr => Nat.lt_succ_of_lt (h.lt r hr)

/-- What is true between two calls. -/
structure Inv (vocabSize : Nat) (s : Scheduler P) : Prop where
  running : Settled vocabSize s.req s.runningBatch
  last : ∀ b, s.lastBatch = some b → b.forwardMode.isExtend = true →
    Pending vocabSize s.chunkedReq.toList s.req b ∧ b.chunkedReq = s.chunkedReq
  chunked : ∀ r, s.chunkedReq = some r → r ∈ s.lastReqs
  placed : Placed s.nextId (s.runningBatch.reqs ++ s.lastReqs ++ s.waitingQueue)
  unfinished : ∀ r ∈ s.chunkedReq.toList ++ s.waitingQueue, (s.req r).finished = false
  live : ∀ r ∈ s.runningBatch.reqs ++ s.lastReqs, (s.req r).isRetracted = false
  unchunked : ∀ r, (s.req r).isChunked = 0

/-- What is true once the last batch has joined the running batch. -/
structure Merged (vocabSize : Nat) (s : Scheduler P) : Prop where
  running : Settled vocabSize s.req s.runningBatch
  placed : Placed s.nextId (s.runningBatch.reqs ++ s.chunkedReq.toList ++ s.waitingQueue)
  unfinished : ∀ r ∈ s.chunkedReq.toList ++ s.waitingQueue, (s.req r).finished = false
  live : ∀ r ∈ s.runningBatch.reqs, (s.req r).isRetracted = false
  unchunked : ∀ r, (s.req r).isChunked = 0

/-- The running batch waits beside a new batch; otherwise it is the one that runs. -/
def beside (s : Scheduler P) (b : Batch P) : List ReqId := if b.forwardMode.isExtend then s.runningBatch.reqs else []

/-- The batch `b` is about to run: either it is the running batch, or a new batch beside
    the running batch. -/
structure Sampling (vocabSize : Nat) (s : Scheduler P) (b : Batch P) : Prop where
  ready : Ready vocabSize s.req b
  active : ∀ r ∈ b.reqs, (s.req r).finished = false ∧ (s.req r).isRetracted = false ∧
    (s.req r).isChunked = if s.chunkedReq = some r then 1 else 0
  unchunked : ∀ r, s.chunkedReq ≠ some r → (s.req r).isChunked = 0
  waiting : ∀ r ∈ s.waitingQueue, (s.req r).finished = false
  placed : Placed s.nextId (s.beside b ++ b.reqs ++ s.waitingQueue)
  live : ∀ r ∈ s.beside b, (s.req r).isRetracted = false
  chunked : ∀ r, s.chunkedReq = some r → b.forwardMode.isExtend = true ∧ r ∈ b.reqs
  extend : b.forwardMode.isExtend = true → Settled vocabSize s.req s.runningBatch ∧ b.chunkedReq = s.chunkedReq

variable {s s' : Scheduler P}

/-- The last batch without its finished requests and without the chunked one. -/
theorem mergeLastBatch_merged (h : Inv vocabSize s) :
    ∃ s', s.mergeLastBatch vocabSize = some s' ∧ Merged vocabSize s' := by
  have hC : s.chunkedReq.toList.Nodup := by cases s.chunkedReq <;> simp
  -- whatever subset of the last batch joins
  have hmerged : ∀ (running : Batch P) (last : Option (Batch P)) (p : ReqId → Bool),
      Settled vocabSize s.req running →
      running.reqs = s.runningBatch.reqs ++ s.lastReqs.filter p → (∀ r, s.chunkedReq = some r → p r = false) →
      Merged vocabSize { s with runningBatch := running, lastBatch := last } := by
    intro running last p hrun hreqs hp
    refine ⟨hrun, ?_, h.unfinished, fun r hr => ?_, h.unchunked⟩
    · refine h.placed.subperm (Subperm.append ?_ (Subperm.refl _))
      rw [hreqs, append_assoc]
      exact (Subperm.refl _).append (filter_append_subperm hC fun c hc =>
        ⟨h.chunked c (by simpa using hc), hp c (by simpa using hc)⟩)
    · rw [hreqs] at hr
      exact h.live r ((filter_sublist.append_left _).subset hr)
  have hstay := fun last => hmerged s.runningBatch last (fun _ => false) h.running (by simp) fun _ _ => rfl
  unfold mergeLastBatch
  rcases hlast : s.lastBatch with _ | last
  · exact ⟨s, rfl, hstay s.lastBatch⟩
  by_cases hext : last.forwardMode.isExtend = true
  · obtain ⟨hpend, hchunk⟩ := h.last last hlast hext
    obtain ⟨last', hf, hreqs, hcase⟩ := filterBatch_pending (s.chunkedReq.toList ++ last.chunkedReq.toList)
      hpend (subset_append_left _ _)
    have hlr : s.lastReqs = last.reqs := by rw [lastReqs, hlast]; exact if_pos hext
    have hp : ∀ r, s.chunkedReq = some r →
        (!(s.req r).finished && !(s.chunkedReq.toList ++ last.chunkedReq.toList).contains r) = false := by
      intro r hr
      simp [hr]
    simp only [hext, if_true, hf, bind_eq_bind, bind_some]
    split
    · rename_i hjoin
      have hne : last'.reqs ≠ [] := by
        intro e
        simp [e] at hjoin
      have hlp := hcase.resolve_left hne
      split
      · rename_i hempty
        have hempty : s.runningBatch.reqs = [] := by simpa using hempty
        refine ⟨_, rfl, hmerged last' (some last') _ (.inr hlp) ?_ hp⟩
        rw [hempty, hlr, hreqs]
        rfl
      rename_i hempty
      have hrp := h.running.resolve_left (by simpa using hempty)
      obtain ⟨b, hb, hbreqs, hbp⟩ := mergeBatch_pending hrp hlp
      simp only [hb]
      refine ⟨_, rfl, hmerged b (some last') _ (.inr hbp) ?_ hp⟩
      rw [hbreqs, hlr, hreqs]
    · exact ⟨_, rfl, hstay _⟩
  · dsimp only
    rw [if_neg hext]
    exact ⟨s, rfl, hstay s.lastBatch⟩

/-- No request that uses a penalty is prefilled with an output kept from before. -/
def Plan.Restarts (plan : Plan) (s : Scheduler P) : Prop :=
  ∀ r ∈ s.canRunList plan, (s.req r).outputIds = [] ∨ ∀ k, (penalizerClass P k).required (s.req r).samplingParams = false

theorem nextChunkedReq_mem (h : s.nextChunkedReq plan = some c) {r : ReqId} (hr : c = some r) : r ∈ s.canRunList plan := by
  subst hr
  unfold nextChunkedReq at h
  dsimp only at h
  split at h
  · cases h
  · rename_i r' hnew _
    cases h
    split at hnew
    · exact mem_append_right _ (mem_of_getLast? hnew)
    · cases hnew
  rename_i hold
  split at h
  · rename_i htr
    have hc : s.chunkedReq = some r := by simpa [htr] using h
    exact mem_append_left _ (by simp [hc])
  · simp_all

/-- The running batch, one token further, joins the new batch. -/
theorem mixRunning_sampling (h : Sampling vocabSize s b) (hext : b.forwardMode.isExtend = true)
    (hnone : b.outputIds = none) (hne : s.runningBatch.reqs ≠ []) :
    ∃ s' b', mixRunning vocabSize s b = some (s', b') ∧ b'.forwardMode.isExtend = true ∧ Sampling vocabSize s' b' := by
  obtain ⟨hrun, hchunk⟩ := h.extend hext
  obtain ⟨running, hf, hreqs, hcase⟩ := filterBatch_pending [] (hrun.resolve_left hne) (List.Subset.refl _)
  have hbeside : s.beside b = s.runningBatch.reqs := if_pos hext
  have hplaced : ∀ k : List ReqId, k.Sublist s.runningBatch.reqs → Placed s.nextId (b.reqs ++ k ++ s.waitingQueue) := by
    intro k hk
    refine h.placed.subperm (Subperm.append ?_ (Subperm.refl _))
    rw [hbeside]
    exact perm_append_comm.subperm.trans (hk.append_right _).subperm
  unfold mixRunning
  simp only [hf, bind_eq_bind, bind_some]
  rcases hrs : running.reqs with _ | ⟨r0, rs⟩
  · refine ⟨{ s with runningBatch := { reqs := [] } }, b, by simp, hext, h.ready, h.active, h.unchunked, h.waiting, ?_, ?_,
      h.chunked, fun _ => ⟨.inl rfl, hchunk⟩⟩
    · simpa [beside] using hplaced [] (nil_sublist _)
    · simp [beside]
  have hrne : running.reqs ≠ [] := by simp [hrs]
  obtain ⟨run', hprep, hr', hmode', hready'⟩ := prepareForDecode_ready (hcase.resolve_left hrne)
  have hready : Ready vocabSize s.req { b with forwardMode := .mixed } := h.ready
  obtain ⟨b2, hm, hb2, hmode2, hch2, hready2⟩ := mergeBatch_ready hready hnone hready'
  have hsub : ∀ r ∈ run'.reqs, r ∈ s.runningBatch.reqs ∧ (s.req r).finished = false := by
    intro r hr
    rw [hr', hreqs, mem_filter] at hr
    exact ⟨hr.1, by simpa using hr.2⟩
  have hfresh : ∀ r ∈ s.runningBatch.reqs, s.chunkedReq ≠ some r := fun r hr hc =>
    (nodup_append.mp (nodup_append.mp h.placed.nodup).1).2.2 r (hbeside ▸ hr) r (h.chunked r hc).2 rfl
  have hext2 : b2.forwardMode.isExtend = true := by rw [hmode2]; rfl
  refine ⟨{ s with runningBatch := { reqs := [] } }, { b2 with isPrefillOnly := false },
    by simp [hprep, mixWithRunning, hm], hext2,
    hready2, ?_, h.unchunked, h.waiting, ?_, ?_, fun r hr => ⟨hext2, ?_⟩, fun _ => ⟨.inl rfl, hch2.trans hchunk⟩⟩
  · intro r hr
    rcases mem_append.mp (hb2 ▸ hr) with hr | hr
    · exact h.active r hr
    obtain ⟨hrun, hfin⟩ := hsub r hr
    refine ⟨hfin, h.live r (hbeside ▸ hrun), ?_⟩
    rw [if_neg (hfresh r hrun)]
    exact h.unchunked r (hfresh r hrun)
  · have hk : run'.reqs.Sublist s.runningBatch.reqs := by
      rw [hr', hreqs]
      exact filter_sublist
    simpa [beside, hb2] using hplaced _ hk
  · simp [beside]
  · show r ∈ b2.reqs
    rw [hb2]
    exact mem_append_left _ (h.chunked r hr).2

/-- The requests of a new batch, with what admission changes of them. -/
theorem initNew_sampling (h : Merged vocabSize s) (hplan : Plan.Restarts plan s) (hc : s.nextChunkedReq plan = some c)
    (hreq : req = fun r =>
      if r ∈ s.canRunList plan then
        { s.req r with isRetracted := false, isChunked := if c = some r then (s.req r).isChunked + 1 else (s.req r).isChunked }
      else s.req r) : Sampling vocabSize
      { s with req := req, chunkedReq := c, waitingQueue := s.waitingQueue.filter fun r => !(s.canRunList plan).contains r }
      (initNew vocabSize req (s.canRunList plan) c) := by
  have hqueue : ∀ r ∈ plan.fromQueue.dedup.filter (· ∈ s.waitingQueue), r ∈ s.waitingQueue := by
    intro r hr
    simpa using (mem_filter.mp hr).2
  have hcm : ∀ r ∈ s.canRunList plan, r ∈ s.chunkedReq.toList ++ s.waitingQueue :=
    forall_mem_append.mpr ⟨fun r hr => mem_append_left _ hr, fun r hr => mem_append_right _ (hqueue r hr)⟩
  have hsame : ∀ r, (req r).samplingParams = (s.req r).samplingParams ∧ (req r).outputIds = (s.req r).outputIds ∧
      (req r).finished = (s.req r).finished := by
    intro r
    rw [hreq]
    dsimp only
    split <;> exact ⟨rfl, rfl, rfl⟩
  have hin : ∀ r ∈ s.canRunList plan, (req r).isRetracted = false ∧ (req r).isChunked = if c = some r then 1 else 0 := by
    intro r hr
    rw [hreq]
    dsimp only
    rw [if_pos hr, h.unchunked r]
    exact ⟨rfl, rfl⟩
  refine ⟨initNew_ready c ?_, ?_, ?_, ?_, ?_, ?_, fun r hr => ⟨rfl, nextChunkedReq_mem hc hr⟩,
    fun _ => ⟨h.running.congr fun r _ => ⟨(hsame r).1, (hsame r).2.1⟩, rfl⟩⟩
  · intro r hr
    rw [(hsame r).1, (hsame r).2.1]
    exact hplan r hr
  · intro r hr
    exact ⟨by rw [(hsame r).2.2]; exact h.unfinished r (hcm r hr), (hin r hr).1, (hin r hr).2⟩
  · intro r hr
    by_cases hm : r ∈ s.canRunList plan
    · rw [(hin r hm).2, if_neg hr]
    rw [hreq]
    dsimp only
    rw [if_neg hm, h.unchunked r]
  · intro r hr
    rw [(hsame r).2.2]
    exact h.unfinished r (mem_append_right _ (mem_filter.mp hr).1)
  · have hk : (s.waitingQueue.filter (fun r => !(s.canRunList plan).contains r) ++
        plan.fromQueue.dedup.filter (· ∈ s.waitingQueue)).Subperm s.waitingQueue := by
      refine filter_append_subperm ((nodup_dedup _).filter _) fun r hr => ⟨hqueue r hr, ?_⟩
      have hr : r ∈ s.canRunList plan := mem_append_right _ hr
      simpa using hr
    refine h.placed.subperm ?_
    show (s.runningBatch.reqs ++ (s.chunkedReq.toList ++ _) ++ _).Subperm _
    rw [← append_assoc, append_assoc]
    exact (Subperm.refl _).append (perm_append_comm.subperm.trans hk)
  · intro r hr
    by_cases hm : r ∈ s.canRunList plan
    · exact (hin r hm).1
    rw [hreq]
    dsimp only
    rw [if_neg hm]
    exact h.live r hr

theorem getNewBatchPrefill_sampling (h : Merged vocabSize s) (hplan : Plan.Restarts plan s)
    (hs : s.getNewBatchPrefill vocabSize plan = some (s', ob)) :
    (ob = none ∧ s' = s ∧ s.chunkedReq = none) ∨ ∃ b, ob = some b ∧ b.forwardMode.isExtend = true ∧ Sampling vocabSize s' b := by
  unfold getNewBatchPrefill at hs
  dsimp only at hs
  split at hs
  · rename_i hempty
    have hnil : s.canRunList plan = [] := by simpa using hempty
    have hc : s.chunkedReq = none := by
      have := (append_eq_nil_iff.mp hnil).1
      simpa using this
    cases hs
    exact .inl ⟨rfl, rfl, hc⟩
  obtain ⟨c, hc, hs⟩ := bind_eq_some_iff.mp hs
  have hsamp := initNew_sampling h hplan hc rfl
  right
  split at hs
  · rename_i hmix
    have hne : s.runningBatch.reqs ≠ [] := by
      intro e
      simp [e] at hmix
    obtain ⟨s2, b2, hm, hext, hsamp2⟩ := mixRunning_sampling hsamp rfl rfl hne
    rw [hm] at hs
    cases hs
    exact ⟨b2, rfl, hext, hsamp2⟩
  · cases hs
    exact ⟨_, rfl, rfl, hsamp⟩

omit [AddCommGroup P] [DecidableEq P] in
/-- The requests that stay and those that are retracted. -/
theorem retract_split (req : ReqId → Req P) (reqs : List ReqId) (kept : Nat) :
    ∃ stay gone, gather reqs ((sortedIndices req reqs).take kept) = some stay ∧
      gather reqs ((sortedIndices req reqs).drop kept) = some gone ∧ (stay ++ gone).Perm reqs := by
  have hperm : (sortedIndices req reqs).Perm (range reqs.length) := perm_insertionSort _ _
  have hlt : ∀ i ∈ sortedIndices req reqs, i < reqs.length := fun i hi => mem_range.mp (hperm.mem_iff.mp hi)
  refine ⟨_, _, gather_eq_gatherD 0 reqs fun i hi => hlt i (mem_of_mem_take hi),
    gather_eq_gatherD 0 reqs fun i hi => hlt i (mem_of_mem_drop hi), ?_⟩
  rw [← map_append, take_append_drop]
  have hm := hperm.map fun i => reqs.getD i 0
  rwa [← gatherD, ← gatherD, gatherD_range] at hm

/-- What retraction leaves: the batch goes on with the requests that stay. -/
theorem retractDecode_pending (hb : Pending vocabSize [] s.req b) (hne : b.reqs ≠ []) {count : Nat}
    {b' : Batch P} (h : retractDecode count s b = some (s', b')) :
    ∃ gone, (b'.reqs ++ gone).Perm b.reqs ∧ b'.reqs ≠ [] ∧ Pending vocabSize [] s'.req b' ∧
      s' = { s with req := fun r => if r ∈ gone then (s.req r).resetForRetract else s.req r,
                    waitingQueue := s.waitingQueue ++ gone.reverse } := by
  unfold retractDecode at h
  obtain ⟨stay, gone, hstay, hgone, hperm⟩ := retract_split s.req b.reqs (b.reqs.length - min count (b.reqs.length - 1))
  simp only [hgone, bind_eq_bind, bind_some] at h
  obtain ⟨b1, hb1, h⟩ := bind_eq_some_iff.mp h
  cases h
  have hlen := length_pos_iff.mpr hne
  have hkeep : ((sortedIndices s.req b.reqs).take (b.reqs.length - min count (b.reqs.length - 1))).length ≠ 0 := by
    have : (sortedIndices s.req b.reqs).length = b.reqs.length := by
      rw [sortedIndices, length_insertionSort, length_range]
    rw [length_take]
    omega
  have hsame : ∀ r, (if r ∈ gone then (s.req r).resetForRetract else s.req r).samplingParams = (s.req r).samplingParams ∧
      (if r ∈ gone then (s.req r).resetForRetract else s.req r).outputIds = (s.req r).outputIds := by
    intro r
    split <;> exact ⟨rfl, rfl⟩
  obtain ⟨b2, hb2, hcase⟩ := filterIndices_pending hb (fun r => (hsame r).1) hstay (fun r _ => not_mem_nil)
  obtain rfl : b' = b2 := some.inj (hb1.symm.trans hb2)
  have hcongr : ∀ {x : Batch P}, Pending vocabSize [] s.req x →
      Pending vocabSize [] (fun r => if r ∈ gone then (s.req r).resetForRetract else s.req r) x :=
    fun hx => hx.congr fun r _ => hsame r
  have hstaylen := gather_length hstay
  rcases hcase with ⟨hnil, -⟩ | ⟨hall, rfl⟩ | ⟨hreqs, hp⟩
  · exact absurd (by rw [hnil]; rfl) hkeep
  · -- nothing is retracted
    have hgl := hperm.length_eq
    rw [length_append, hstaylen, hall] at hgl
    obtain rfl : gone = [] := length_eq_zero_iff.mp (by omega)
    exact ⟨[], by rw [append_nil], hne, hcongr hb, rfl⟩
  refine ⟨gone, by rw [hreqs]; exact hperm, ?_, hcongr hp, rfl⟩
  intro e
  rw [← hreqs, e] at hstaylen
  exact hkeep hstaylen.symm

theorem updateRunningBatch_sampling (h : Merged vocabSize s) (hc : s.chunkedReq = none) (hne : s.runningBatch.reqs ≠ [])
    {retracted : Nat} (hs : s.updateRunningBatch retracted = some s') :
    (s'.runningBatch.reqs = [] ∧ s' = { s with runningBatch := s'.runningBatch }) ∨
      (s'.runningBatch.reqs ≠ [] ∧ s'.runningBatch.forwardMode = .decode ∧ Sampling vocabSize s' s'.runningBatch) := by
  obtain ⟨b, hf, hreqs, hcase⟩ := filterBatch_pending [] (h.running.resolve_left hne) (List.Subset.refl _)
  have hbmem : ∀ r ∈ b.reqs, r ∈ s.runningBatch.reqs ∧ (s.req r).finished = false := by
    intro r hr
    rw [hreqs, mem_filter] at hr
    exact ⟨hr.1, by simpa using hr.2⟩
  unfold updateRunningBatch at hs
  simp only [hf, bind_eq_bind, bind_some] at hs
  split at hs
  · rename_i hempty
    cases hs
    exact .inl ⟨by simpa using hempty, rfl⟩
  rename_i hempty
  have hbne : b.reqs ≠ [] := by simpa using hempty
  have hbp := hcase.resolve_left hbne
  right
  -- with or without retraction, `gone` requests go back to the queue
  have hgone : ∃ s1 b1 gone, (b1.prepareForDecode.bind fun a => some { s1 with runningBatch := a }) = some s' ∧
      (b1.reqs ++ gone).Perm b.reqs ∧ b1.reqs ≠ [] ∧ Pending vocabSize [] s1.req b1 ∧
      s1 = { s with req := fun r => if r ∈ gone then (s.req r).resetForRetract else s.req r,
                    waitingQueue := s.waitingQueue ++ gone.reverse } := by
    split at hs
    · exact ⟨s, b, [], hs, by rw [append_nil], hbne, hbp, by simp⟩
    obtain ⟨⟨s1, b1⟩, h1, hs⟩ := bind_eq_some_iff.mp hs
    obtain ⟨gone, hg⟩ := retractDecode_pending hbp hbne h1
    exact ⟨s1, b1, gone, hs, hg⟩
  obtain ⟨s1, b1, gone, hs, hperm, hb1ne, hb1p, rfl⟩ := hgone
  obtain ⟨b2, hprep, hb2, hmode, hready⟩ := prepareForDecode_ready hb1p
  rw [hprep] at hs
  cases hs
  have hplaced : Placed s.nextId (b2.reqs ++ (s.waitingQueue ++ gone.reverse)) := by
    have hback : (s.waitingQueue ++ gone.reverse).Perm (gone ++ s.waitingQueue) :=
      perm_append_comm.trans ((reverse_perm gone).append_right _)
    refine h.placed.subperm ((hback.append_left _).subperm.trans ?_)
    rw [← append_assoc, hb2, hc, toList_none, append_nil]
    refine Subperm.append (hperm.subperm.trans ?_) (Subperm.refl _)
    rw [hreqs]
    exact filter_sublist.subperm
  have hbeside : ∀ s : Scheduler P, s.beside b2 = [] := fun s => if_neg (by rw [hmode]; decide)
  have hdisj : ∀ r ∈ b2.reqs, r ∉ gone := fun r hr hg =>
    (nodup_append.mp hplaced.nodup).2.2 r hr r (mem_append_right _ (mem_reverse.mpr hg)) rfl
  have hb2mem : ∀ r ∈ b2.reqs, (r ∈ s.runningBatch.reqs ∧ (s.req r).finished = false) ∧ r ∉ gone := fun r hr =>
    ⟨hbmem r (hperm.mem_iff.mp (mem_append_left _ (hb2 ▸ hr))), hdisj r hr⟩
  have hgmem : ∀ r ∈ gone, r ∈ s.runningBatch.reqs ∧ (s.req r).finished = false := fun r hr =>
    hbmem r (hperm.mem_iff.mp (mem_append_right _ hr))
  have hfin : ∀ r, (if r ∈ gone then (s.req r).resetForRetract else s.req r).finished = (s.req r).finished := by
    intro r
    split <;> rfl
  have hunch : ∀ r, (if r ∈ gone then (s.req r).resetForRetract else s.req r).isChunked = 0 := by
    intro r
    split
    · rfl
    · exact h.unchunked r
  have hlive : ∀ r ∈ b2.reqs, (if r ∈ gone then (s.req r).resetForRetract else s.req r).isRetracted = false := by
    intro r hr
    obtain ⟨hrb, hrg⟩ := hb2mem r hr
    rw [if_neg hrg]
    exact h.live r hrb.1
  refine ⟨by rwa [hb2], hmode, hready, ?_, fun r _ => hunch r, ?_, by simpa [hbeside] using hplaced, by simp [hbeside], ?_, ?_⟩
  · intro r hr
    refine ⟨(hfin r).trans (hb2mem r hr).1.2, hlive r hr, ?_⟩
    rw [if_neg (by rw [hc]; simp)]
    exact hunch r
  · intro r hr
    refine (hfin r).trans ?_
    rcases mem_append.mp hr with hr | hr
    · exact h.unfinished r (mem_append_right _ hr)
    · exact (hgmem r (mem_reverse.mp hr)).2
  · intro r hr
    exact nomatch hc.symm.trans hr
  · intro he
    rw [hmode] at he
    cases he

/-! ## Running a batch -/

omit [AddCommGroup P] [DecidableEq P] in
theorem processBatchResult_eq (mode : ForwardMode) (fwd : Forward) {reqs : List ReqId} (hn : reqs.Nodup) (f : ReqId → Nat)
    (req : ReqId → Req P) : processBatchResult mode fwd (reqs.zip (reqs.map f)) req =
      fun r => if r ∈ reqs then processReq mode fwd r (f r) (req r) else req r := by
  induction reqs generalizing req with
  | nil => rfl
  | cons r reqs ih =>
    obtain ⟨hr, hn⟩ := nodup_cons.mp hn
    rw [map_cons, zip_cons_cons, processBatchResult, ih hn]
    funext r'
    by_cases h : r' = r
    · subst h
      rw [if_neg hr, upd_same, if_pos mem_cons_self]
    · rw [upd_ne _ _ h]
      simp [h]

omit [AddCommGroup P] [DecidableEq P] in
theorem processReq_params (mode : ForwardMode) (fwd : Forward) (r : ReqId) (t : Nat) (q : Req P) :
    (processReq mode fwd r t q).samplingParams = q.samplingParams ∧ (processReq mode fwd r t q).isRetracted = q.isRetracted := by
  unfold processReq append
  split_ifs <;> exact ⟨rfl, rfl⟩

omit [AddCommGroup P] [DecidableEq P] in
/-- A request that runs puts out its token, unless its prefill is not finished. -/
theorem processReq_active {mode : ForwardMode} (fwd : Forward) (r : ReqId) (t : Nat) {q : Req P} (hf : q.finished = false)
    (hr : q.isRetracted = false) (hc : q.isChunked = 0) : processReq mode fwd r t q = append fwd r t q := by
  unfold processReq
  split
  · rw [hf, hr, if_neg (by simp)]
  · rfl

/-- What a batch that runs does to the requests: the chunked one puts out nothing, every other
    one of the batch its token, and the batch is one token ahead of its penalizers. -/
structure Ran (vocabSize : Nat) (s : Scheduler P) (b ran : Batch P) (req : ReqId → Req P) : Prop where
  outside : ∀ r ∉ b.reqs, req r = s.req r
  retracted : ∀ r, (req r).isRetracted = (s.req r).isRetracted
  unchunked : ∀ r, (req r).isChunked = 0
  unfinished : ∀ r ∈ s.chunkedReq.toList ++ s.waitingQueue, (req r).finished = false
  pending : ∀ except : List ReqId, (∀ r, s.chunkedReq = some r → r ∈ except) → Pending vocabSize except req ran

section
variable (h : Sampling vocabSize s b)
include h

theorem Sampling.ran (fwd : Forward) : Ran vocabSize s b { b with outputIds := some (b.reqs.map fwd.nextToken) }
    (processBatchResult b.forwardMode fwd (b.reqs.zip (b.reqs.map fwd.nextToken)) s.req) := by
  obtain ⟨hbn, -, hbW⟩ := nodup_append.mp (append_assoc .. ▸ h.placed.nodup).of_append_right
  rw [processBatchResult_eq _ _ hbn]
  have hchunked : ∀ r, s.chunkedReq = some r → (processReq b.forwardMode fwd r (fwd.nextToken r) (s.req r)).finished = false ∧
      (processReq b.forwardMode fwd r (fwd.nextToken r) (s.req r)).isChunked = 0 := by
    intro r hc
    obtain ⟨hm, hr⟩ := h.chunked r hc
    obtain ⟨hf, hret, hch⟩ := h.active r hr
    rw [if_pos hc] at hch
    rw [processReq, if_pos hm, if_neg (by simp [hf, hret]), if_neg (by omega), hch]
    exact ⟨hf, rfl⟩
  have hput : ∀ r ∈ b.reqs, s.chunkedReq ≠ some r →
      processReq b.forwardMode fwd r (fwd.nextToken r) (s.req r) = append fwd r (fwd.nextToken r) (s.req r) := by
    intro r hr hc
    obtain ⟨hf, hret, -⟩ := h.active r hr
    exact processReq_active fwd _ _ hf hret (h.unchunked r hc)
  refine ⟨fun r hr => if_neg hr, fun r => ?_, fun r => ?_, forall_mem_append.mpr ⟨fun r hr => ?_, fun r hr => ?_⟩,
    fun except hex => ?_⟩
  · split
    · exact (processReq_params _ _ _ _ _).2
    · rfl
  · by_cases hc : s.chunkedReq = some r
    · rw [if_pos (h.chunked r hc).2]
      exact (hchunked r hc).2
    split
    · rename_i hr
      rw [hput r hr hc]
      exact h.unchunked r hc
    · exact h.unchunked r hc
  · have hc : s.chunkedReq = some r := by simpa using hr
    rw [if_pos (h.chunked r hc).2]
    exact (hchunked r hc).1
  · rw [if_neg fun hb => hbW r hb r hr rfl]
    exact h.waiting r hr
  · obtain ⟨o, ho, ht⟩ := h.ready
    refine ⟨o, _, fun r => (s.req r).outputIds, ho, rfl, ?_, ?_⟩
    · refine (congrArg (Tracks vocabSize · o) (told_congr fun r hr => ⟨?_, rfl⟩)).mpr ht
      rw [if_pos hr, (processReq_params _ _ _ _ _).1]
    rw [forall₂_iff_get]
    refine ⟨by simp, fun i h1 h2 hne => ?_⟩
    simp only [get_eq_getElem, getElem_map]
    rw [if_pos (getElem_mem h1), hput _ (getElem_mem h1) fun hc => hne (hex _ hc)]
    rfl

variable (fwd : Forward)

theorem runBatch_inv : Inv vocabSize (s.runBatch fwd b) := by
  have hran := h.ran fwd
  have hreqs : (s.runBatch fwd b).runningBatch.reqs ++ (s.runBatch fwd b).lastReqs = s.beside b ++ b.reqs := by
    simp only [runBatch, lastReqs, beside]
    split <;> simp
  refine ⟨?_, fun x hx hext => ?_, fun r hr => ?_, ?_, hran.unfinished, fun r hr => ?_, hran.unchunked⟩
  · simp only [runBatch]
    split
    · rename_i hm
      refine (h.extend hm).1.congr fun r hr => ?_
      have hr : r ∈ s.beside b := by simpa [beside, hm] using hr
      have hkeep := hran.outside r fun hb => (nodup_append.mp (nodup_append.mp h.placed.nodup).1).2.2 r hr r hb rfl
      exact ⟨congrArg _ hkeep, congrArg _ hkeep⟩
    · rename_i hm
      exact .inr (hran.pending [] fun r hr => absurd (h.chunked r hr).1 hm)
  · cases hx
    exact ⟨hran.pending _ fun r (hc : s.chunkedReq = some r) => by simp [runBatch, hc], (h.extend hext).2⟩
  · obtain ⟨hm, hmem⟩ := h.chunked r hr
    simpa [lastReqs, runBatch, hm] using hmem
  · rw [hreqs]
    exact h.placed
  · rw [hreqs] at hr
    exact (hran.retracted r).trans ((mem_append.mp hr).elim (h.live r) fun hr => (h.active r hr).2.1)

end

/-! ## Runs -/

/-- The state in which the next batch is chosen once the last batch has joined. -/
theorem getNextBatchToRun_sampling (h : Inv vocabSize s)
    (hplan : ∀ s1, s.mergeLastBatch vocabSize = some s1 → Plan.Restarts plan s1)
    (hs : s.getNextBatchToRun vocabSize plan = some (s', ob)) :
    (ob = none ∧ Inv vocabSize { s' with lastBatch := none }) ∨ ∃ b, ob = some b ∧ Sampling vocabSize s' b := by
  obtain ⟨s1, h1, hm⟩ := mergeLastBatch_merged h
  have hidle : ∀ {running : Batch P}, s1.chunkedReq = none → running.reqs = [] →
      Inv vocabSize { s1 with runningBatch := running, lastBatch := none } := by
    intro running hc hr
    refine ⟨.inl hr, nofun, by simp [hc], ?_, hm.unfinished, by simp [lastReqs, hr], hm.unchunked⟩
    show Placed _ (running.reqs ++ [] ++ s1.waitingQueue)
    rw [hr]
    exact hm.placed.subperm (sublist_append_right _ _).subperm
  unfold getNextBatchToRun at hs
  simp only [h1, bind_eq_bind, bind_some] at hs
  obtain ⟨⟨s2, nb⟩, h2, hb⟩ := bind_eq_some_iff.mp hs
  rcases getNewBatchPrefill_sampling hm (hplan s1 h1) h2 with ⟨rfl, rfl, hc⟩ | ⟨b, rfl, -, hsamp⟩
  · dsimp only at hb
    split at hb
    · rename_i hempty
      cases hb
      exact .inl ⟨rfl, hidle hc (by simpa using hempty)⟩
    rename_i hempty
    obtain ⟨s3, h3, hb⟩ := bind_eq_some_iff.mp hb
    rcases updateRunningBatch_sampling hm hc (by simpa using hempty) h3 with ⟨hnil, he⟩ | ⟨hne, -, hsamp⟩
    · rw [if_pos (by simpa using hnil)] at hb
      cases hb
      refine .inl ⟨rfl, ?_⟩
      rw [he]
      exact hidle hc hnil
    · rw [if_neg (by simpa using hne)] at hb
      cases hb
      exact .inr ⟨_, rfl, hsamp⟩
  · cases hb
    exact .inr ⟨b, rfl, hsamp⟩

/-- In a call no request that uses a penalty is prefilled with an output kept from before. -/
def Meets (vocabSize : Nat) (s : Scheduler P) : Call P → Prop
  | .iterate plan _ => ∀ s1, s.mergeLastBatch vocabSize = some s1 → Plan.Restarts plan s1
  | _ => True

/-- The states a scheduler reaches by calls that all meet the condition. -/
inductive Run (vocabSize : Nat) : Scheduler P → Prop
  | init (req : ReqId → Req P) (h : ∀ r, (req r).isChunked = 0) : Run vocabSize { req := req }
  | call {s s' : Scheduler P} (c : Call P) : Run vocabSize s → Meets vocabSize s c → s.exec vocabSize c = some s' →
    Run vocabSize s'

theorem exec_inv (h : Inv vocabSize s) {c : Call P} (hc : Meets vocabSize s c) (hs : s.exec vocabSize c = some s') :
    Inv vocabSize s' := by
  cases c with
  | receive samplingParams maxNewTokens originInputLen =>
    cases hs
    obtain ⟨q, hq⟩ : ∃ q : Req P, q =
      { samplingParams := samplingParams, maxNewTokens := maxNewTokens, originInputLen := originInputLen } := ⟨_, rfl⟩
    have hold : ∀ r ∈ s.runningBatch.reqs ++ s.lastReqs ++ s.waitingQueue, upd s.req s.nextId q r = s.req r := fun r hr =>
      upd_ne _ _ (ne_of_lt (h.placed.lt r hr))
    have hlive : ∀ r ∈ s.runningBatch.reqs ++ s.lastReqs, upd s.req s.nextId q r = s.req r := fun r hr =>
      hold r (mem_append_left _ hr)
    rw [← hq]
    refine ⟨?_, ?_, h.chunked, ?_, ?_, ?_, ?_⟩
    · refine h.running.congr fun r hrm => ?_
      have hkeep := hlive r (mem_append_left _ hrm)
      exact ⟨congrArg _ hkeep, congrArg _ hkeep⟩
    · intro b hb hext
      obtain ⟨hp, hcb⟩ := h.last b hb hext
      refine ⟨hp.congr fun r hrm => ?_, hcb⟩
      have hl : s.lastReqs = b.reqs := by rw [lastReqs, hb]; exact if_pos hext
      have hkeep := hlive r (mem_append_right _ (hl ▸ hrm))
      exact ⟨congrArg _ hkeep, congrArg _ hkeep⟩
    · show Placed _ (s.runningBatch.reqs ++ s.lastReqs ++ (s.waitingQueue ++ [s.nextId]))
      rw [← append_assoc]
      exact h.placed.concat
    · intro r hr
      show (upd s.req s.nextId q r).finished = false
      by_cases he : r = s.nextId
      · rw [he, upd_same, hq]
      rw [upd_ne _ _ he]
      apply h.unfinished
      rw [← append_assoc] at hr
      exact (mem_append.mp hr).resolve_right fun hn => he (mem_singleton.mp hn)
    · intro r hr
      show (upd s.req s.nextId q r).isRetracted = false
      rw [hlive r hr]
      exact h.live r hr
    · intro r
      show (upd s.req s.nextId q r).isChunked = 0
      by_cases he : r = s.nextId
      · rw [he, upd_same, hq]
      · rw [upd_ne _ _ he]
        exact h.unchunked r
  | abort r =>
    cases hs
    have hsub : (s.runningBatch.reqs ++ s.lastReqs ++ s.waitingQueue.filter (· ≠ r)).Sublist
        (s.runningBatch.reqs ++ s.lastReqs ++ s.waitingQueue) := List.Sublist.append_left filter_sublist _
    refine ⟨h.running, h.last, h.chunked, h.placed.subperm hsub.subperm, fun x hx => ?_, h.live, h.unchunked⟩
    exact h.unfinished x ((List.Sublist.append_left filter_sublist _).subset hx)
  | iterate plan fwd =>
    obtain ⟨⟨s1, ob⟩, h1, hs⟩ := bind_eq_some_iff.mp hs
    rcases getNextBatchToRun_sampling h hc h1 with ⟨rfl, hidle⟩ | ⟨b, rfl, hsamp⟩
    · cases hs
      exact hidle
    · cases hs
      exact runBatch_inv hsamp fwd

theorem Run.inv (h : Run vocabSize s) : Inv vocabSize s := by
  induction h with
  | init req hreq =>
    have hnone : ∀ {Q : ReqId → Prop}, ∀ r ∈ ([] : List ReqId), Q r := fun r hr => absurd hr not_mem_nil
    exact ⟨.inl rfl, nofun, nofun, ⟨nodup_nil, hnone⟩, hnone, hnone, hreq⟩
  | call c _ hc hs ih => exact exec_inv ih hc hs

/-- Whenever a batch is sampled, what the penalizers add to a request's row is what the
    request's own output asks for. -/
theorem penalty_own_output (h : Run vocabSize s) (plan : Plan) (fwd : Forward)
    (hplan : Meets vocabSize s (.iterate plan fwd)) {b : Batch P} (hs : s.getNextBatchToRun vocabSize plan = some (s', some b)) :
    ∃ o, b.orchestrator = some o ∧
      List.Forall₂ (fun r row => ∀ t < vocabSize, row t = expectedPenalty (s'.req r).samplingParams (s'.req r).outputIds t)
        b.reqs (o.adjustments b.reqs.length) := by
  rcases getNextBatchToRun_sampling h.inv hplan hs with ⟨hn, -⟩ | ⟨b', hb', hsamp⟩
  · cases hn
  cases hb'
  obtain ⟨o, ho, ht⟩ := hsamp.ready
  have hadj := ht.adjustments
  rw [told, length_map, forall₂_map_left_iff] at hadj
  exact ⟨o, ho, hadj⟩

def idle : Scheduler Int :=
  { req := fun _ => { samplingParams := { frequencyPenalty := 0, presencePenalty := 0, eosTokenId := 7 } } }

/-- A frequency penalty of one. -/
def penalized : SamplingParams Int := { frequencyPenalty := 1, presencePenalty := 0, eosTokenId := 7 }

def alwaysFive : Forward := ⟨fun _ => 5, fun _ => false⟩

/-- A penalized request decodes its second token: the first one counts. -/
theorem penalty_own_output_decode : ∃ (s s' : Scheduler Int) (b : Batch Int) (o : Orchestrator Int),
    Run 8 s ∧ s.getNextBatchToRun 8 {} = some (s', some b) ∧ b.orchestrator = some o ∧
      (s'.req 0).outputIds = [5] ∧ List.Forall₂ (fun r row => ∀ t < 8, row t =
        expectedPenalty (s'.req r).samplingParams (s'.req r).outputIds t) b.reqs (o.adjustments b.reqs.length) := by
  have h0 : Run 8 idle := Run.init _ fun _ => rfl
  have h1 := Run.call (.receive penalized 128 1) h0 trivial rfl
  have h2 := Run.call (.iterate { fromQueue := [0] } alwaysFive) h1
    (fun s1 hs1 r hr => by cases hs1; cases mem_singleton.mp hr; exact .inl rfl) rfl
  obtain ⟨o, ho, hrows⟩ := penalty_own_output h2 {} alwaysFive
    (fun s1 hs1 r hr => by cases hs1; cases hr) rfl
  exact ⟨_, _, _, o, h2, rfl, ho, rfl, hrows⟩

/-- Two such requests; every token sampled is 5. -/
def twoPenalized : List (Call Int) :=
  [.receive penalized 128 1, .receive penalized 128 1, .iterate { fromQueue := [0, 1] } alwaysFive,
    .iterate { retracted := 1 } alwaysFive]

/-- The second of them is retracted after its first token 5; when it is prefilled again,
    nothing is subtracted from the logit of 5. -/
theorem retracted_penalty_lost : ∃ (s s' : Scheduler Int) (b : Batch Int) (o : Orchestrator Int) (row : Nat → WithBot Int),
    twoPenalized.foldlM (fun s c => exec 8 s c) idle = some s ∧
    s.getNextBatchToRun 8 { fromQueue := [1] } = some (s', some b) ∧ b.orchestrator = some o ∧ b.reqs = [1] ∧
    o.adjustments 1 = [row] ∧ row 5 = 0 ∧ expectedPenalty (s'.req 1).samplingParams (s'.req 1).outputIds 5 =
    ((-1 : Int) : WithBot Int) :=
  ⟨_, _, _, _, _, rfl, rfl, rfl, rfl, rfl, rfl, rfl⟩

end Scheduler

end DynaSpec.Managers.Normal
