/-
  DynaSpec.Managers.DraftAlignment — over every run of the scheduler, whose rows the
  draft input of the next decode batch holds.

  `Aligned s b`: the draft input of batch `b` has one row for each of its requests, the
  row computed last for that request, and as verified id the request's last output token.
  It holds at the start of every decode step of a run (`draftInput_aligned`) in which
  - a prefill batch that is filtered without an excluded request has its finished requests
    behind the unfinished ones (`InOrder`), since the filter then truncates a draft input
    that nothing has filtered yet, and
  - no request that verification leaves unfinished has a terminated grammar (`Quiet`),
    since the check of the decode result would finish it after its row was computed.
  Without the first the rows of other requests are used (`first_token_finish_misaligned`),
  without the second as well (`terminated_grammar_misaligned`).
-/

import DynaSpec.Managers.DraftRows

namespace DynaSpec.Managers

open DynaSpec.Lib DynaSpec.Constrained List Bool ScheduleBatch
open Option (bind_eq_bind bind_eq_some_iff bind_some)

namespace Scheduler
variable {σ Row : Type}

variable (s : Scheduler σ Row)

/-- The requests of the last batch while it is a prefill batch. -/
def pending : List ReqId :=
  match s.lastBatch with
  | some b => if b.forwardMode = .extend then b.reqs else []
  | none => []

def lastToken (r : ReqId) : Option Int := (s.req r).outputIds.getLast?

def unfinished (r : ReqId) : Bool := !(s.req r).finished

/-! ## Runs -/

/-- What the scheduling policy respects: only queued requests join, each once, and the
    chunked request always goes on. -/
structure Admits (s : Scheduler σ Row) (plan : Plan) : Prop where
  chunked : plan.prefill = none → s.chunkedReq = none
  queued : ∀ p, plan.prefill = some p → p.fromQueue.Nodup ∧ ∀ r ∈ p.fromQueue, r ∈ s.waitingQueue
  nonempty : ∀ p, plan.prefill = some p → s.chunkedReq.toList ++ p.fromQueue ≠ []
  newChunked : ∀ p r, plan.prefill = some p → p.newChunkedReq = some r → r ∈ p.fromQueue ∧
    (s.chunkedReq = none ∨ p.truncated = false)

/-- A new request object; a request that failed validation is already marked to finish. -/
structure Fresh (s : Scheduler σ Row) (r : ReqId) (q : Req σ) : Prop where
  running : r ∉ s.runningBatch.reqs
  pending : r ∉ s.pending
  waiting : r ∉ s.waitingQueue
  unfinished : q.finishedReason = none
  isChunked : q.isChunked = 0

def Valid : Call σ Row → Prop
  | .receive r q => s.Fresh r q
  | .abort _ => True
  | .iterate plan _ => s.Admits plan

/-- A prefill batch that is about to be filtered with no request excluded has its
    finished requests last. -/
def InOrder : Prop :=
  ∀ b, s.lastBatch = some b → b.forwardMode = .extend → s.chunkedReqToExclude b = [] → b.reqs.filter s.unfinished <+: b.reqs

variable (g : GrammarObject σ) (s : Scheduler σ Row)

/-- No request that verification leaves unfinished has a terminated grammar. -/
def Quiet (plan : Plan) (fwd : Forward Row) : Prop :=
  ∀ s' b req kept, s.getNextBatchToRun plan = some (s', some b) → b.forwardMode = .decode →
    verifyReqs g (b.reqs.zip (b.rows.map fwd.accepted)) s'.req = some (req, kept) →
    ∀ r ∈ b.reqs, (req r).finished = false → (req r).grammarTerminated g = false

def Meets : Call σ Row → Prop
  | .receive _ _ => True
  | .abort _ => True
  | .iterate plan fwd => s.InOrder ∧ s.Quiet g plan fwd

/-- The states between the calls of a run that all satisfy `P`. -/
inductive Run (g : GrammarObject σ) (P : Scheduler σ Row → Call σ Row → Prop) : Scheduler σ Row → Prop
  | init (req : ReqId → Req σ) (computed : ReqId → DraftRow Row) : Run g P { req := req, computed := computed }
  | step {s s' : Scheduler σ Row} (call : Call σ Row) : Run g P s → s.Valid call → P s call → s.exec g call = some s' →
      Run g P s'

/-- The draft input of `b` is about the requests of `b`. -/
def Aligned (b : ScheduleBatch Row) : Prop :=
  ∃ d, b.specInfo = some d ∧ Rows s.computed s.lastToken b.reqs d

/-! ## The invariant -/

/-- The running batch's draft input has the rows of its unfinished requests. -/
def RunOk : Prop :=
  Carries s.computed s.lastToken (s.runningBatch.reqs.filter s.unfinished) s.runningBatch

/-- No request is in two places. -/
def Apart (running pending waiting : List ReqId) : Prop := (running ++ pending ++ waiting).Nodup

namespace Apart

variable {running pending waiting : List ReqId} {r : ReqId} (h : Apart running pending waiting)
include h

theorem nodup_running : running.Nodup := h.of_append_left.of_append_left

theorem nodup_pending : pending.Nodup := h.of_append_left.of_append_right

theorem running_pending (hr : r ∈ running) : r ∉ pending := disjoint_of_nodup_append h.of_append_left hr

theorem running_waiting (hr : r ∈ running) : r ∉ waiting := disjoint_of_nodup_append h (mem_append_left _ hr)

theorem pending_waiting (hr : r ∈ pending) : r ∉ waiting := disjoint_of_nodup_append h (mem_append_right _ hr)

theorem sublist {waiting' : List ReqId} (hsub : waiting'.Sublist waiting) : Apart running pending waiting' :=
  List.Nodup.sublist (hsub.append_left _) h

end Apart

/-- A request that has not begun to decode. -/
def Idle (r : ReqId) : Prop := (s.req r).finished = false ∧ (s.req r).isChunked = 0

structure LastOk (s : Scheduler σ Row) (b : ScheduleBatch Row) : Prop where
  rows : b.rows = b.reqs
  chunkedReq : b.chunkedReq = s.chunkedReq
  spec : ∃ d last, b.specInfo = some d ∧ Rows s.computed last b.reqs d ∧
    ∀ r ∈ b.reqs, s.unfinished r = true → s.chunkedReq ≠ some r → s.lastToken r = last r

structure Inv (s : Scheduler σ Row) : Prop where
  run : RunOk s
  last : ∀ b, s.lastBatch = some b → b.forwardMode = .extend → LastOk s b
  apart : Apart s.runningBatch.reqs s.pending s.waitingQueue
  chunked : ∀ r, s.chunkedReq = some r → r ∈ s.pending ∧ Idle s r
  waiting : ∀ r ∈ s.waitingQueue, Idle s r

/-- The scheduler once the last prefill batch has joined the running batch. -/
structure Ready (s : Scheduler σ Row) : Prop where
  run : RunOk s
  apart : Apart s.runningBatch.reqs s.chunkedReq.toList s.waitingQueue
  idle : ∀ r ∈ s.chunkedReq.toList ++ s.waitingQueue, Idle s r

/-- Requests that keep their outputs keep their rows. -/
theorem RunOk.frame {s s' : Scheduler σ Row} (h : RunOk s) (hrun : s'.runningBatch = s.runningBatch)
    (hc : ∀ r ∈ s.runningBatch.reqs, s'.computed r = s.computed r)
    (hk : ∀ r ∈ s.runningBatch.reqs, Keeps (s.req r) (s'.req r)) : RunOk s' := by
  have hfil : s'.runningBatch.reqs.filter s'.unfinished = s.runningBatch.reqs.filter s.unfinished := by
    rw [hrun]
    apply filter_congr
    intro r hr
    rw [unfinished, (hk r hr).finished, unfinished]
  intro hne
  rw [hrun] at hne ⊢
  obtain ⟨hrows, d, hd, hr⟩ := h hne
  refine ⟨hrows, d, hd, ?_⟩
  rw [← hrun, hfil]
  apply hr.congr
  · exact fun r hr => hc r (mem_filter.mp hr).1
  · intro r hr
    rw [lastToken, (hk r (mem_filter.mp hr).1).outputIds, lastToken]

/-! ## Merging the last prefill batch -/

variable {s : Scheduler σ Row} {b : ScheduleBatch Row} {g : GrammarObject σ} {fwd : Forward Row}

theorem chunkedReqToExclude_eq (h : b.chunkedReq = s.chunkedReq) : s.chunkedReqToExclude b = s.chunkedReq.toList := by
  rw [chunkedReqToExclude, h]
  cases s.chunkedReq <;> simp

/-- The requests of a prefill batch that go on to decode. -/
def survivors (s : Scheduler σ Row) (b : ScheduleBatch Row) : List ReqId :=
  b.reqs.filter fun r => !(s.req r).finished && !s.chunkedReq.toList.contains r

theorem mem_survivors {r : ReqId} (h : r ∈ s.survivors b) : r ∈ b.reqs ∧ s.unfinished r = true ∧ s.chunkedReq ≠ some r := by
  simp only [survivors, mem_filter, and_eq_true, not_eq_true', contains_eq_mem, decide_eq_false_iff_not, Option.mem_toList] at h
  exact ⟨h.1, by simp [unfinished, h.2.1], h.2.2⟩

theorem filter_survivors (s : Scheduler σ Row) (b : ScheduleBatch Row) : (s.survivors b).filter s.unfinished = s.survivors b :=
  filter_eq_self.mpr fun _ hr => (mem_survivors hr).2.1

/-- The filter of a prefill batch leaves the rows of the requests that go on. -/
theorem filterLast_rows (hl : LastOk s b) (hord : s.chunkedReqToExclude b = [] → b.reqs.filter s.unfinished <+: b.reqs) :
    ∃ b', b.filterBatch s.req (s.chunkedReqToExclude b) = some b' ∧ b'.reqs = s.survivors b ∧
      Carries s.computed s.lastToken (s.survivors b) b' := by
  obtain ⟨d, last, hd, hr, hlast⟩ := hl.spec
  have hex := chunkedReqToExclude_eq hl.chunkedReq
  have hb : Carries s.computed last b.reqs b := fun _ => ⟨hl.rows, d, hd, hr⟩
  obtain ⟨b', hb', hreqs, hc⟩ := filterBatch_rows s.req (s.chunkedReqToExclude b) hb rfl
    (by
      intro h0
      have hpre := hord h0
      simp only [h0, contains_nil, Bool.not_false, Bool.and_true]
      exact (prefix_iff_eq_take.mp hpre).symm)
    (fun _ => rfl) (fun _ => rfl)
  rw [hex] at hreqs hc
  refine ⟨b', hb', hreqs, fun hne => ?_⟩
  obtain ⟨hrows, d', hd', hr'⟩ := hc hne
  refine ⟨hrows, d', hd', hr'.congr (fun _ _ => rfl) fun r hr => ?_⟩
  obtain ⟨hm, hu, hch⟩ := mem_survivors hr
  exact hlast r hm hu hch

theorem mergeLastBatch_ready (hi : Inv s) (hord : s.InOrder) :
    ∃ s', s.mergeLastBatch = some s' ∧ Ready s' ∧ s'.chunkedReq = s.chunkedReq ∧ s'.waitingQueue = s.waitingQueue := by
  have hidle : ∀ r ∈ s.chunkedReq.toList ++ s.waitingQueue, Idle s r :=
    forall_mem_append.mpr ⟨fun r hr => (hi.chunked r (by simpa using hr)).2, hi.waiting⟩
  -- whatever part of the pending requests joins
  have hapart : ∀ p : ReqId → Bool, (∀ r, s.chunkedReq = some r → p r = false) →
      Apart (s.runningBatch.reqs ++ s.pending.filter p) s.chunkedReq.toList s.waitingQueue := by
    intro p hp
    refine nodup_of_subperm hi.apart (Subperm.append ?_ (Subperm.refl _))
    rw [append_assoc]
    refine (Subperm.refl _).append (filter_append_subperm (by cases s.chunkedReq <;> simp) fun r hr => ?_)
    have hr : s.chunkedReq = some r := by simpa using hr
    exact ⟨(hi.chunked r hr).1, hp r hr⟩
  have hstay : Apart s.runningBatch.reqs s.chunkedReq.toList s.waitingQueue := by
    simpa using hapart (fun _ => false) fun _ _ => rfl
  unfold mergeLastBatch
  cases hlast : s.lastBatch with
  | none => exact ⟨s, rfl, ⟨hi.run, hstay, hidle⟩, rfl, rfl⟩
  | some b =>
    by_cases hmode : b.forwardMode = .extend
    · have hpend : s.pending = b.reqs := by simp [pending, hlast, hmode]
      obtain ⟨b', hb', hreqs, hc⟩ := filterLast_rows (hi.last b hlast hmode) (hord b hlast hmode)
      have hjoin : Apart (s.runningBatch.reqs ++ b'.reqs) s.chunkedReq.toList s.waitingQueue := by
        rw [hreqs, survivors, ← hpend]
        exact hapart _ fun r hr => by simp [hr]
      simp only [hmode, if_true, hb', bind_eq_bind, bind_some]
      by_cases hmerge : (!b'.isEmpty && !b'.isPrefillOnly) = true
      · have hne : b'.reqs ≠ [] := by
          intro h0
          simp [ScheduleBatch.isEmpty, h0] at hmerge
        rw [if_pos hmerge]
        by_cases hempty : s.runningBatch.reqs = []
        · rw [if_pos (by simp [ScheduleBatch.isEmpty, hempty])]
          refine ⟨_, rfl, ⟨?_, by simpa [hempty] using hjoin, hidle⟩, rfl, rfl⟩
          show Carries s.computed s.lastToken (b'.reqs.filter s.unfinished) b'
          rw [hreqs, filter_survivors]
          exact hc
        obtain ⟨hrows, d, hd, hr⟩ := hi.run hempty
        obtain ⟨hrows', d', hd', hr'⟩ := hc hne
        rw [if_neg (by simpa [ScheduleBatch.isEmpty] using hempty)]
        simp only [mergeBatch, hd, hd', bind_eq_bind, bind_some]
        refine ⟨_, rfl, ⟨?_, hjoin, hidle⟩, rfl, rfl⟩
        show Carries s.computed s.lastToken ((s.runningBatch.reqs ++ b'.reqs).filter s.unfinished) _
        intro _
        refine ⟨by rw [hrows, hrows'], _, rfl, ?_⟩
        rw [filter_append, hreqs, filter_survivors]
        exact hr.merge hr'
      · rw [if_neg hmerge]
        exact ⟨_, rfl, ⟨hi.run, hstay, hidle⟩, rfl, rfl⟩
    · simp only [hmode, if_false]
      exact ⟨s, rfl, ⟨hi.run, hstay, hidle⟩, rfl, rfl⟩

/-! ## Prefill -/

/-- The batch that `get_new_batch_prefill` makes, and the requests it leaves. -/
theorem getNewBatchPrefill_spec (h : Ready s) {p : PrefillPlan} (hq : p.fromQueue.Nodup)
    (hw : ∀ r ∈ p.fromQueue, r ∈ s.waitingQueue) (hnew : ∀ r, p.newChunkedReq = some r → r ∈ p.fromQueue)
    {s' : Scheduler σ Row} (he : s.getNewBatchPrefill p = (s', b)) :
    RunOk s' ∧ Apart s'.runningBatch.reqs b.reqs s'.waitingQueue ∧ (∀ r ∈ s'.waitingQueue, Idle s' r) ∧
      b.rows = b.reqs ∧ b.forwardMode = .extend ∧ b.chunkedReq = s'.chunkedReq ∧ (∀ r, s'.chunkedReq = some r → r ∈ b.reqs) ∧
      ∀ r ∈ b.reqs, (s'.req r).finished = false ∧ (s'.req r).isRetracted = false ∧
        (s'.req r).isChunked = if s'.chunkedReq = some r then 1 else 0 := by
  cases he
  have hmem : ∀ r ∈ s.chunkedReq.toList ++ p.fromQueue, r ∈ s.chunkedReq.toList ++ s.waitingQueue :=
    forall_mem_append.mpr ⟨fun r hr => mem_append_left _ hr, fun r hr => mem_append_right _ (hw r hr)⟩
  have hrun : ∀ r ∈ s.runningBatch.reqs, r ∉ s.chunkedReq.toList ++ p.fromQueue := by
    intro r hr hm
    rcases mem_append.mp (hmem r hm) with hm | hm
    · exact h.apart.running_pending hr hm
    · exact h.apart.running_waiting hr hm
  have hwait : ∀ r ∈ s.waitingQueue.filter (fun r => !(s.chunkedReq.toList ++ p.fromQueue).contains r),
      r ∈ s.waitingQueue ∧ r ∉ s.chunkedReq.toList ++ p.fromQueue := by
    intro r hr
    obtain ⟨hr, hn⟩ := mem_filter.mp hr
    exact ⟨hr, by simpa using hn⟩
  refine ⟨?_, ?_, ?_, rfl, rfl, rfl, ?_, ?_⟩
  · refine RunOk.frame h.run rfl (fun _ _ => rfl) fun r hr => ?_
    simp only [hrun r hr, if_false]
    exact Keeps.refl _
  · have hk : (s.waitingQueue.filter (fun r => !(s.chunkedReq.toList ++ p.fromQueue).contains r) ++ p.fromQueue).Subperm
      s.waitingQueue :=
      filter_append_subperm hq fun r hr => ⟨hw r hr, by simp [hr]⟩
    refine nodup_of_subperm h.apart ?_
    show (s.runningBatch.reqs ++ (s.chunkedReq.toList ++ p.fromQueue) ++ _).Subperm _
    rw [← append_assoc, append_assoc]
    exact (Subperm.refl _).append (perm_append_comm.subperm.trans hk)
  · intro r hr
    obtain ⟨hr, hn⟩ := hwait r hr
    simp only [Idle, hn, if_false]
    exact h.idle r (mem_append_right _ hr)
  · intro r hr
    split at hr
    · rename_i r' hr'
      cases hr
      exact mem_append_right _ (hnew r hr')
    split at hr
    · exact mem_append_left _ (by simpa using hr)
    · cases hr
  · intro r hr
    have hr : r ∈ s.chunkedReq.toList ++ p.fromQueue := hr
    obtain ⟨hf, hc⟩ := h.idle r (hmem r hr)
    simp only [hr, if_true, hc]
    refine ⟨hf, trivial, ?_⟩
    split <;> rfl

/-- No request of a prefill batch is finished yet when its draft input is made, so the
    worker filters nothing. -/
theorem forwardDraftExtend_rows (fwd : Forward Row) (hrows : b.rows = b.reqs) (hf : ∀ r ∈ b.reqs, (s.req r).finished = false) :
    ∃ d, s.forwardDraftExtend fwd b = some { b with specInfo := some d } ∧
    Rows fwd.draft (fun r => some (fwd.nextToken r)) b.reqs d := by
  have hnone : (b.reqs.any fun r => (s.req r).finished) = false := by
    rw [any_eq_false]
    intro r hr
    simp [hf r hr]
  refine ⟨_, by simp only [forwardDraftExtend, hnone, false_eq_true, if_false, bind_eq_bind,
    bind_some]; rfl, ?_⟩
  rw [hrows]
  exact Rows.capture rfl (by simp)

variable {s s' : Scheduler σ Row}

theorem runPrefill_inv (hrun : RunOk s) (hap : Apart s.runningBatch.reqs b.reqs s.waitingQueue)
    (hw : ∀ r ∈ s.waitingQueue, Idle s r)
    (hrows : b.rows = b.reqs) (hmode : b.forwardMode = .extend) (hch : b.chunkedReq = s.chunkedReq)
    (hmem : ∀ r, s.chunkedReq = some r → r ∈ b.reqs) (hreq : ∀ r ∈ b.reqs, (s.req r).finished = false ∧
    (s.req r).isRetracted = false ∧
      (s.req r).isChunked = if s.chunkedReq = some r then 1 else 0) (he : s.runPrefill g fwd b = some s') : Inv s' := by
  obtain ⟨d, hd, hdrows⟩ := forwardDraftExtend_rows fwd hrows fun r hr => (hreq r hr).1
  unfold runPrefill at he
  rw [hd] at he
  simp only [bind_eq_bind, bind_some] at he
  obtain ⟨s1, h1, he⟩ := bind_eq_some_iff.mp he
  rw [hrows, ← map_prod_left_eq_zip] at h1
  have hstart : ∀ r ∈ b.reqs, ((s.record b.reqs fwd.draft).req r).finished = false ∧
      ((s.record b.reqs fwd.draft).req r).isRetracted = false := fun r hr => ⟨(hreq r hr).1, (hreq r hr).2.1⟩
  obtain ⟨hfr, hpre, hkeep⟩ := processBatchResultPrefill_spec hap.nodup_pending hstart h1
  cases he
  have hcomp : s1.computed = fun r => if r ∈ b.reqs then fwd.draft r else s.computed r := hfr.computed
  have hsub : s1.waitingQueue.Sublist s.waitingQueue := hfr.waitingQueue
  have hrb : s1.runningBatch = s.runningBatch := hfr.runningBatch
  have hcq : s1.chunkedReq = s.chunkedReq := hfr.chunkedReq
  have hkeep : ∀ r ∉ b.reqs, Keeps (s.req r) (s1.req r) := hkeep
  have hpend : pending { s1 with lastBatch := some { b with specInfo := some d } } = b.reqs := by
    simp [pending, hmode]
  have hidle : ∀ r ∉ b.reqs, Idle s r → Idle s1 r := by
    intro r hr hi
    rw [Idle, (hkeep r hr).finished, (hkeep r hr).isChunked]
    exact hi
  refine ⟨?_, ?_, ?_, ?_, ?_⟩
  · refine RunOk.frame hrun hrb (fun r hr => ?_) fun r hr => hkeep r (hap.running_pending hr)
    rw [hcomp]
    exact if_neg (hap.running_pending hr)
  · intro b' hb' _
    cases hb'
    refine ⟨hrows, hch.trans hcq.symm, d, fun r => some (fwd.nextToken r), rfl, ?_, ?_⟩
    · refine hdrows.congr (fun r hr => ?_) fun _ _ => rfl
      rw [hcomp]
      exact if_pos hr
    · intro r hr hu hne
      have hc : (s.req r).isChunked ≤ 0 := by
        rw [(hreq r hr).2.2, if_neg (fun e => hne (hcq.trans e))]
      exact (hpre r hr).last hc (by simpa [unfinished] using hu)
  · rw [hpend, hrb]
    exact hap.sublist hsub
  · intro r hr
    rw [hpend]
    have hr : s.chunkedReq = some r := hcq.symm.trans hr
    refine ⟨hmem r hr, ?_⟩
    obtain ⟨hf, -, hone⟩ := hreq r (hmem r hr)
    rw [if_pos hr] at hone
    obtain ⟨-, h2, h3⟩ := (hpre r (hmem r hr)).chunked (show 0 < (s.req r).isChunked by rw [hone]; decide)
    refine ⟨?_, ?_⟩
    · show (s1.req r).finishedReason.isSome = false
      rw [h2]
      exact hf
    · show (s1.req r).isChunked = 0
      rw [h3]
      show (s.req r).isChunked - 1 = 0
      rw [hone]
      rfl
  · intro r hr
    have hr := hsub.subset hr
    exact hidle r (fun hm => hap.pending_waiting hm hr) (hw r hr)

/-! ## Decode -/

/-- The state in which a decode step starts. -/
structure Decoding (s : Scheduler σ Row) : Prop where
  aligned : s.runningBatch.reqs ≠ [] → s.runningBatch.forwardMode = .decode ∧ s.runningBatch.rows = s.runningBatch.reqs ∧
    Aligned s s.runningBatch
  apart : Apart s.runningBatch.reqs [] s.waitingQueue
  chunked : s.chunkedReq = none
  waiting : ∀ r ∈ s.waitingQueue, Idle s r

/-- Retraction takes requests from the back, so truncating the draft input is right. -/
theorem retractDecode_spec (count : Nat)
    (hb : Carries s.computed s.lastToken b.reqs b) (hne : b.reqs ≠ []) (hap : Apart b.reqs [] s.waitingQueue)
    (hu : ∀ r ∈ b.reqs, (s.req r).finished = false) (hw : ∀ r ∈ s.waitingQueue, Idle s r) :
    ∃ s' b', s.retractDecode count b = some (s', b') ∧ b'.reqs ≠ [] ∧
      Carries s'.computed s'.lastToken b'.reqs b' ∧ Apart b'.reqs [] s'.waitingQueue ∧ (∀ r ∈ s'.waitingQueue, Idle s' r) ∧
      s'.chunkedReq = s.chunkedReq := by
  have hpos := length_pos_iff.mpr hne
  obtain ⟨m, hm⟩ : ∃ m, m = b.reqs.length - min count (b.reqs.length - 1) := ⟨_, rfl⟩
  have hmle : m ≤ b.reqs.length := by omega
  obtain ⟨b', hb', hreqs, hc⟩ := filterIndices_rows (range m) true hb
    (gather_range b.reqs m hmle) (take_sublist m b.reqs) (fun _ => by simp) nofun (fun _ => rfl)
  have hlast : ∀ r, (if r ∈ b.reqs.drop m then (s.req r).resetForRetract else s.req r).outputIds = (s.req r).outputIds := by
    intro r
    split <;> rfl
  refine ⟨{ s with req := fun r => if r ∈ b.reqs.drop m then (s.req r).resetForRetract else s.req r,
                   waitingQueue := s.waitingQueue ++ (b.reqs.drop m).reverse }, b',
    by simp [retractDecode, ← hm, hb'], ?_, ?_, ?_, ?_, rfl⟩
  · rw [hreqs]
    intro h0
    have := congrArg length h0
    simp only [length_take, length_nil] at this
    omega
  · intro hne'
    obtain ⟨hrows, d, hd, hr⟩ := hc hne'
    refine ⟨hrows, d, hd, ?_⟩
    rw [hreqs]
    refine hr.congr (fun _ _ => rfl) fun r _ => ?_
    simp [lastToken, hlast]
  · rw [hreqs]
    refine nodup_of_subperm hap ?_
    have hback : (s.waitingQueue ++ (b.reqs.drop m).reverse).Perm (b.reqs.drop m ++ s.waitingQueue) :=
      perm_append_comm.trans ((reverse_perm _).append_right _)
    rw [append_nil, append_nil]
    refine (hback.append_left _).subperm.trans ?_
    rw [← append_assoc, take_append_drop]
  · intro r hr
    simp only [Idle]
    rcases mem_append.mp hr with hr | hr
    · have hn : r ∉ b.reqs.drop m := fun h => hap.running_waiting (mem_of_mem_drop h) hr
      rw [if_neg hn]
      exact hw r hr
    have hd := mem_reverse.mp hr
    rw [if_pos hd]
    exact ⟨hu r (mem_of_mem_drop hd), rfl⟩

theorem updateRunningBatch_spec (h : Ready s) (hch : s.chunkedReq = none) (retracted : Nat) :
    ∃ s', s.updateRunningBatch retracted = some s' ∧ Decoding s' := by
  have hkept : s.runningBatch.reqs.filter s.unfinished =
      s.runningBatch.reqs.filter fun r => !(s.req r).finished && !([] : List ReqId).contains r :=
    filter_congr fun r _ => by simp [unfinished]
  obtain ⟨b, hb, hreqs, hc⟩ := filterBatch_rows s.req [] h.run hkept (fun _ => take_length) (absurd rfl) id
  rw [← hreqs] at hc
  have hsub : b.reqs.Sublist s.runningBatch.reqs := hreqs ▸ filter_sublist
  have hap : Apart b.reqs [] s.waitingQueue := by
    refine List.Nodup.sublist ?_ h.apart
    exact (hsub.append (nil_sublist _)).append_right _
  have hw : ∀ r ∈ s.waitingQueue, Idle s r := fun r hr => h.idle r (mem_append_right _ hr)
  unfold updateRunningBatch
  simp only [hb, bind_eq_bind, bind_some]
  by_cases hempty : b.reqs = []
  · rw [if_pos (by simp [ScheduleBatch.isEmpty, hempty])]
    exact ⟨_, rfl, absurd hempty, hap, hch, hw⟩
  rw [if_neg (by simpa [ScheduleBatch.isEmpty] using hempty)]
  by_cases h0 : retracted = 0
  · rw [if_pos h0]
    obtain ⟨hrows, hal⟩ := hc hempty
    exact ⟨_, rfl, fun _ => ⟨rfl, hrows, hal⟩, hap, hch, hw⟩
  have hu : ∀ r ∈ b.reqs, (s.req r).finished = false := by
    intro r hr
    rw [hreqs] at hr
    simpa [unfinished] using (mem_filter.mp hr).2
  obtain ⟨s', b', hs', hne', hc', hap', hw', hch'⟩ := retractDecode_spec retracted hc hempty hap hu hw
  rw [if_neg h0, hs']
  obtain ⟨hrows, hal⟩ := hc' hne'
  exact ⟨_, rfl, fun _ => ⟨rfl, hrows, hal⟩, hap', hch'.trans hch, hw'⟩

/-- After a decode step the draft input has the rows of the requests that verification
    left unfinished. -/
theorem draftUnlessFinished_rows {d : EagleDraftInput Row}
    {k : ReqId → List Int} (hne : b.reqs ≠ []) (hrows : b.rows = b.reqs) (hk : ∀ r ∈ b.reqs, k r ≠ [])
    (hd : verifyDraftInput s.req (b.reqs.map k) b = some d) :
    ∃ s' d', draftUnlessFinished fwd s d = some (s', d') ∧ (∃ c, s' = { s with computed := c }) ∧
      Rows s'.computed (fun r => (k r).getLast?) (b.reqs.filter s.unfinished) d' := by
  obtain ⟨d0, hd0, hcases⟩ := verifyDraftInput_spec s.req k hne hrows
  rw [hd] at hd0
  cases hd0
  have hk' : ∀ r ∈ b.reqs.filter s.unfinished, k r ≠ [] := fun r hr => hk r (mem_filter.mp hr).1
  unfold draftUnlessFinished
  rcases hcases with ⟨hnil, rfl⟩ | ⟨hown, hver, hacc, hfor⟩
  · have hnil : b.reqs.filter s.unfinished = [] := hnil
    rw [if_neg (by simp [EagleDraftInput.createIdleInput]), hnil]
    exact ⟨s, _, rfl, ⟨s.computed, rfl⟩, rfl, rfl, rfl, rfl⟩
  obtain ⟨d', hd', hr⟩ := forwardDraftExtendAfterDecode_rows fwd hk' hver hacc hfor
  have hpos : 0 < d.verifiedId.length := by
    obtain ⟨r, hr⟩ := exists_mem_of_ne_nil _ hown
    rw [hver, length_pos_iff]
    intro h0
    exact hk' r hr (flatten_eq_nil_iff.mp h0 (k r) (mem_map_of_mem hr))
  rw [if_pos hpos, hd', hfor]
  refine ⟨_, d', rfl, ⟨_, rfl⟩, hr.congr (fun r hr => ?_) fun _ _ => rfl⟩
  exact if_pos hr

theorem length_le_length_flatten {α : Type} (ls : List (List α)) (h : ∀ l ∈ ls, l ≠ []) : ls.length ≤ ls.flatten.length := by
  have hle := length_le_sum_of_one_le (ls.map length) (by simpa [Nat.one_le_iff_ne_zero] using h)
  rwa [length_map, ← length_flatten] at hle

theorem runDecode_inv (h : Decoding s) (hne : s.runningBatch.reqs ≠ [])
    (hquiet : ∀ req kept, verifyReqs g (s.runningBatch.reqs.zip (s.runningBatch.rows.map fwd.accepted)) s.req =
      some (req, kept) → ∀ r ∈ s.runningBatch.reqs, (req r).finished = false → (req r).grammarTerminated g = false)
    (he : s.runDecode g fwd s.runningBatch = some s') : Inv s' := by
  obtain ⟨hmode, hrows, -⟩ := h.aligned hne
  obtain ⟨⟨req, kept⟩, hv, he⟩ := bind_eq_some_iff.mp he
  obtain ⟨d, hd, he⟩ := bind_eq_some_iff.mp he
  have hquiet := hquiet req kept hv
  rw [hrows, ← map_prod_left_eq_zip] at hv
  obtain ⟨hframe, k, rfl, hk⟩ := verifyReqs_spec fwd.accepted_ne_nil h.apart.nodup_running hv
  obtain ⟨s1, d1, hs1, ⟨c, hc⟩, hr⟩ := draftUnlessFinished_rows (s := { s with req := req }) hne hrows
    (fun r hr => (hk r hr).1) hd
  rw [hs1] at he
  rw [hc] at hr he
  -- the check of the result finds nothing that verification has not found
  have hcheck : processBatchResultDecode g ((s.runningBatch.reqs.zip (s.runningBatch.reqs.map k).flatten).map (·.1)) req =
    req := by
    have hlen : s.runningBatch.reqs.length ≤ (s.runningBatch.reqs.map k).flatten.length := by
      have := length_le_length_flatten (s.runningBatch.reqs.map k) (by simpa using fun r hr => (hk r hr).1)
      rwa [length_map] at this
    rw [map_fst_zip hlen]
    apply processBatchResultDecode_eq
    intro r hr
    by_cases hf : (req r).finished = true
    · simp [Req.checkFinished, hf]
    · have hf : (req r).finished = false := by simpa using hf
      exact (((hk r hr).2 hf).2 (hquiet r hr hf)).checkFinished
  cases he
  refine ⟨?_, ?_, ?_, ?_, ?_⟩
  · intro _
    refine ⟨hrows, d1, rfl, ?_⟩
    show Rows c (fun r => ((processBatchResultDecode g _ req) r).outputIds.getLast?)
      (s.runningBatch.reqs.filter fun r => !((processBatchResultDecode g _ req) r).finished) d1
    rw [hcheck]
    refine hr.congr (fun _ _ => rfl) fun r hr => ?_
    obtain ⟨hm, hu⟩ := mem_filter.mp hr
    exact ((hk r hm).2 (by simpa [unfinished] using hu)).1
  · intro b hb hext
    cases hb
    rw [hmode] at hext
    cases hext
  · simpa [pending, hmode] using h.apart
  · intro r hr
    have hr : s.chunkedReq = some r := hr
    rw [h.chunked] at hr
    cases hr
  · intro r hr
    have hr : r ∈ s.waitingQueue := hr
    have hn : r ∉ s.runningBatch.reqs := fun hm => h.apart.running_waiting hm hr
    show ((processBatchResultDecode g _ req) r).finished = false ∧ ((processBatchResultDecode g _ req) r).isChunked = 0
    rw [hcheck, hframe r hn]
    exact h.waiting r hr

/-! ## Every run -/

theorem getNextBatchToRun_spec (hi : Inv s) (hord : s.InOrder) {plan : Plan} (ha : s.Admits plan) :
    ∃ s' b, s.getNextBatchToRun plan = some (s', b) ∧
      ((plan.prefill = none ∧ Decoding s' ∧ b = if s'.runningBatch.isEmpty then none else some s'.runningBatch) ∨
        ∃ s1 p b', plan.prefill = some p ∧ Ready s1 ∧ s1.chunkedReq = s.chunkedReq ∧ s1.waitingQueue = s.waitingQueue ∧
          s1.getNewBatchPrefill p = (s', b') ∧ b = some b') := by
  obtain ⟨s1, hs1, hready, hch, hw⟩ := mergeLastBatch_ready hi hord
  simp only [getNextBatchToRun, hs1, bind_eq_bind, bind_some]
  cases hp : plan.prefill with
  | some p => exact ⟨_, _, rfl, .inr ⟨s1, p, _, rfl, hready, hch, hw, rfl, rfl⟩⟩
  | none =>
    have hch0 : s1.chunkedReq = none := hch.trans (ha.chunked hp)
    by_cases hempty : s1.runningBatch.reqs = []
    · have hapart := hready.apart
      rw [hch0] at hapart
      rw [if_pos (by simp [ScheduleBatch.isEmpty, hempty])]
      refine ⟨s1, none, rfl, .inl ⟨rfl, ⟨absurd hempty, hapart, hch0, ?_⟩, ?_⟩⟩
      · exact fun r hr => hready.idle r (mem_append_right _ hr)
      · rw [if_pos (by simp [ScheduleBatch.isEmpty, hempty])]
    rw [if_neg (by simpa [ScheduleBatch.isEmpty] using hempty)]
    obtain ⟨s2, hs2, hdec⟩ := updateRunningBatch_spec hready hch0 plan.retracted
    rw [hs2]
    exact ⟨s2, _, rfl, .inl ⟨rfl, hdec, rfl⟩⟩

theorem Decoding.inv_idle (h : Decoding s) (hempty : s.runningBatch.isEmpty = true) : Inv { s with lastBatch := none } := by
  have h0 : s.runningBatch.reqs = [] := by simpa [ScheduleBatch.isEmpty] using hempty
  refine ⟨absurd h0, nofun, h.apart, ?_, h.waiting⟩
  intro r hr
  have hr : s.chunkedReq = some r := hr
  rw [h.chunked] at hr
  cases hr

/-- What happens outside of the iterations leaves the batches and their requests. -/
theorem Inv.frame (hi : Inv s) (hrun : s'.runningBatch = s.runningBatch)
    (hlast : s'.lastBatch = s.lastBatch) (hch : s'.chunkedReq = s.chunkedReq) (hcomp : s'.computed = s.computed)
    (hk : ∀ r, r ∈ s.runningBatch.reqs ∨ r ∈ s.pending → Keeps (s.req r) (s'.req r))
    (hap : Apart s.runningBatch.reqs s.pending s'.waitingQueue) (hw : ∀ r ∈ s'.waitingQueue, Idle s' r) : Inv s' := by
  have hpend : s'.pending = s.pending := by simp [pending, hlast]
  refine ⟨?_, ?_, by rw [hrun, hpend]; exact hap, ?_, hw⟩
  · exact RunOk.frame hi.run hrun (fun r _ => by rw [hcomp]) fun r hr => hk r (.inl hr)
  · intro b hb hmode
    have hbs : s.lastBatch = some b := hlast ▸ hb
    have hl := hi.last b hbs hmode
    obtain ⟨d, last, hd, hr, hlt⟩ := hl.spec
    refine ⟨hl.rows, hl.chunkedReq.trans hch.symm, d, last, hd, hcomp ▸ hr, ?_⟩
    intro r hr hu hne
    have hkr := hk r (.inr (by simpa [pending, hbs, hmode] using hr))
    rw [lastToken, hkr.outputIds]
    exact hlt r hr (by rw [unfinished, ← hkr.finished]; exact hu) (hch ▸ hne)
  · intro r hr
    obtain ⟨hm, hidle⟩ := hi.chunked r (hch ▸ hr)
    have hkr := hk r (.inr hm)
    exact ⟨hpend ▸ hm, by rw [Idle, hkr.finished, hkr.isChunked]; exact hidle⟩

theorem exec_inv {call : Call σ Row} (hi : Inv s) (hv : s.Valid call) (hm : s.Meets g call) (he : s.exec g call = some s') :
    Inv s' := by
  cases call with
  | receive r q =>
    have hf : s.Fresh r q := hv
    cases he
    have hne : ∀ r', r' ∈ s.runningBatch.reqs ∨ r' ∈ s.pending ∨ r' ∈ s.waitingQueue → r' ≠ r := by
      intro r' hr' e
      rcases hr' with h | h | h
      · exact hf.running (e ▸ h)
      · exact hf.pending (e ▸ h)
      · exact hf.waiting (e ▸ h)
    refine Inv.frame hi rfl rfl rfl rfl ?_ ?_ ?_
    · intro r' hr'
      simp only [setReq, upd_ne s.req q (hne r' (hr'.imp_right .inl))]
      exact Keeps.refl _
    · show (_ ++ (s.waitingQueue ++ [r])).Nodup
      rw [← append_assoc, nodup_append]
      refine ⟨hi.apart, nodup_singleton r, fun a ha b hb e => hne a ?_ (e.trans (mem_singleton.mp hb))⟩
      simpa using ha
    · intro a ha
      rcases mem_append.mp ha with ha | ha
      · simp only [Idle, setReq, upd_ne s.req q (hne a (.inr (.inr ha)))]
        exact hi.waiting a ha
      rw [mem_singleton.mp ha]
      simp only [Idle, setReq, upd_same, Req.finished, hf.unfinished, hf.isChunked]
      exact ⟨rfl, trivial⟩
  | abort rid =>
    cases he
    obtain ⟨hfr, hk⟩ := abortRequest_frame s.lastBatch rid s
    refine Inv.frame hi hfr.runningBatch hfr.lastBatch hfr.chunkedReq hfr.computed (fun r _ => hk r) ?_ ?_
    · exact hi.apart.sublist hfr.waitingQueue
    · intro r hr
      rw [Idle, (hk r).finished, (hk r).isChunked]
      exact hi.waiting r (hfr.waitingQueue.subset hr)
  | iterate plan fwd =>
    obtain ⟨hord, hquiet⟩ := hm
    have ha : s.Admits plan := hv
    obtain ⟨s1, b, hnext, hcases⟩ := getNextBatchToRun_spec hi hord ha
    simp only [exec, hnext, bind_eq_bind, bind_some] at he
    rcases hcases with ⟨-, hdec, hb⟩ | ⟨s0, p, b', hp, hready, hch, hw, hnew, rfl⟩
    · by_cases hempty : s1.runningBatch.isEmpty = true
      · rw [if_pos hempty] at hb
        subst hb
        cases he
        exact hdec.inv_idle hempty
      rw [if_neg hempty] at hb
      subst hb
      have hne : s1.runningBatch.reqs ≠ [] := by simpa [ScheduleBatch.isEmpty] using hempty
      obtain ⟨hmode, -, -⟩ := hdec.aligned hne
      simp only [runBatch, hmode] at he
      exact runDecode_inv hdec hne (fun req kept => hquiet s1 s1.runningBatch req kept hnext hmode) he
    · obtain ⟨hq, hqw⟩ := ha.queued p hp
      obtain ⟨h1, h2, h3, h4, h5, h6, h7, h8⟩ := getNewBatchPrefill_spec hready hq (by rwa [hw])
        (fun r hr => (ha.newChunked p r hp hr).1) hnew
      simp only [runBatch, h5] at he
      exact runPrefill_inv h1 h2 h3 h4 h5 h6 h7 h8 he

theorem run_inv (h : Run g (Meets g) s) : Inv s := by
  induction h with
  | init req computed =>
    exact ⟨absurd rfl, nofun, nodup_nil, nofun, by simp⟩
  | step call _ hv hm he ih => exact exec_inv ih hv hm he

/-- In a run whose calls all meet the conditions, choosing the next batch raises nothing,
    and a decode batch that is chosen has one row of the draft input for each of its
    requests, the one computed for it, with its last output token as verified id. -/
theorem draftInput_aligned (g : GrammarObject σ) (s : Scheduler σ Row) (h : Run g (Meets g) s) (plan : Plan)
    (ha : s.Admits plan) (hord : s.InOrder) :
    ∃ s' b, s.getNextBatchToRun plan = some (s', b) ∧ ∀ b', b = some b' → b'.forwardMode = .decode → Aligned s' b' := by
  obtain ⟨s1, b, hnext, hcases⟩ := getNextBatchToRun_spec (run_inv h) hord ha
  refine ⟨s1, b, hnext, ?_⟩
  intro b' hb' hmode
  rcases hcases with ⟨-, hdec, hb⟩ | ⟨s0, p, b0, -, -, -, -, hnew, hb⟩
  · by_cases hempty : s1.runningBatch.isEmpty = true
    · rw [hb', if_pos hempty] at hb
      cases hb
    rw [hb', if_neg hempty] at hb
    cases hb
    exact (hdec.aligned (by simpa [ScheduleBatch.isEmpty] using hempty)).2.2
  rw [hb'] at hb
  cases hb
  cases hnew
  cases hmode

/-! Two requests prefilled together: request 0 or 1 gets the token 5 or 6, and a row that
    names it. The grammar terminates on the token 7. -/

def sevenGrammar : GrammarObject Bool where
  acceptToken := fun t _ => .ok (t == 7)
  rollback := fun _ s => .ok s
  isTerminated := fun s => s
  fillVocabMask := fun mask _ _ => .ok mask

def newReq (maxNewTokens : Nat) (grammar : Option Bool) : Req Bool :=
  { rid := [], maxNewTokens := maxNewTokens, ignoreEos := true, vocabSize := 100, grammar := grammar }

def twoForward (accepted : ReqId → Int) : Forward Nat where
  nextToken := fun r => r + 5
  accepted := fun r => [accepted r]
  draft := fun r => ⟨r, r, r⟩
  accepted_ne_nil := fun _ => List.cons_ne_nil _ _

def start : Scheduler Bool Nat := { req := fun _ => newReq 8 none, computed := fun _ => ⟨9, 9, 9⟩ }

/-- Both requests arrive and are prefilled in the order of `fromQueue`. -/
def prefilled (q0 q1 : Req Bool) (fromQueue : List ReqId) : Option (Scheduler Bool Nat) := do
  let s ← start.exec sevenGrammar (.receive 0 q0)
  let s ← s.exec sevenGrammar (.receive 1 q1)
  s.exec sevenGrammar (.iterate { prefill := some { fromQueue := fromQueue } } (twoForward fun r => r + 10))

theorem quiet_of_prefill {plan : Plan} {p : PrefillPlan} (hp : plan.prefill = some p) : s.Quiet g plan fwd := by
  intro s' b req kept hnext hmode
  simp only [getNextBatchToRun, hp] at hnext
  obtain ⟨s1, -, hnext⟩ := bind_eq_some_iff.mp hnext
  cases hnext
  cases hmode

theorem Run.mono {P Q : Scheduler σ Row → Call σ Row → Prop} (hPQ : ∀ s call, P s call → Q s call) (h : Run g P s) :
    Run g Q s := by
  induction h with
  | init req computed => exact .init req computed
  | step call _ hv hp he ih => exact .step call ih hv (hPQ _ _ hp) he

theorem run_prefilled {n0 n1 : Nat} {g0 g1 : Option Bool} {fromQueue : List ReqId} (hq : fromQueue.Perm [0, 1])
    {s : Scheduler Bool Nat} (h : prefilled (newReq n0 g0) (newReq n1 g1) fromQueue = some s) :
    Run sevenGrammar (Meets sevenGrammar) s := by
  have h0 : Run sevenGrammar (Meets sevenGrammar) start := .init _ _
  have h1 := h0.step (.receive 0 (newReq n0 g0)) ⟨by decide, by decide, by decide, rfl, rfl⟩ trivial rfl
  have h2 := h1.step (.receive 1 (newReq n1 g1)) ⟨show 1 ∉ ([] : List ReqId) by decide,
    show 1 ∉ ([] : List ReqId) by decide, show 1 ∉ [0] by decide, rfl, rfl⟩ trivial rfl
  refine h2.step (.iterate { prefill := some { fromQueue := fromQueue } } (twoForward fun r => r + 10)) ?_
    ⟨nofun, quiet_of_prefill rfl⟩ h
  refine ⟨nofun, ?_, ?_, ?_⟩
  · intro p hp
    cases hp
    refine ⟨hq.nodup_iff.mpr (by decide), fun r hr => ?_⟩
    exact hq.mem_iff.mp hr
  · intro p hp h0
    cases hp
    have hnil : fromQueue = [] := (append_eq_nil_iff.mp h0).2
    rw [hnil] at hq
    exact absurd hq.length_eq (by decide)
  · intro p r hp hr
    cases hp
    cases hr

/-- Request 0 finishes on its first token and stands before request 1: the decode batch
    that follows consists of request 1, with the rows of request 0. -/
theorem first_token_finish_misaligned :
    ∃ s s' b d, Run sevenGrammar (fun _ _ => True) s ∧ s.Admits {} ∧ s.getNextBatchToRun {} = some (s', some b) ∧
      b.forwardMode = .decode ∧ b.reqs = [1] ∧ b.specInfo = some d ∧ d.topkP = [0] ∧ d.verifiedId = [5] ∧
      s'.lastToken 1 = some 6 ∧ ¬ Aligned s' b := by
  obtain ⟨s, hs, s', b, d, hnext, hmode, hreqs, hd, hp, hv, hl, hch⟩ : ∃ s,
    prefilled (newReq 1 none) (newReq 8 none) [0, 1] = some s ∧
      ∃ s' b d, s.getNextBatchToRun {} = some (s', some b) ∧ b.forwardMode = .decode ∧ b.reqs = [1] ∧
        b.specInfo = some d ∧ d.topkP = [0] ∧ d.verifiedId = [5] ∧ s'.lastToken 1 = some 6 ∧ s.chunkedReq = none :=
    ⟨_, rfl, _, _, _, rfl, rfl, rfl, rfl, rfl, rfl, rfl, rfl⟩
  refine ⟨s, s', b, d, (run_prefilled (List.Perm.refl _) hs).mono fun _ _ _ => trivial,
    ⟨fun _ => hch, nofun, nofun, nofun⟩,
    hnext, hmode, hreqs, hd, hp, hv, hl, ?_⟩
  intro hal
  obtain ⟨d', hd', hr⟩ := hal
  cases hd.symm.trans hd'
  have := hr.verifiedId
  rw [hv, hreqs, map_singleton, map_singleton, hl] at this
  cases this

/-- Request 0 ignores the end token, and its grammar terminates on the one token that
    verification accepts: the check of the result finishes it after its row was
    computed, and the next decode batch consists of request 1 with the rows of request 0. -/
theorem terminated_grammar_misaligned :
    ∃ s s' b d, Run sevenGrammar (fun _ _ => True) s ∧ s.InOrder ∧ s.getNextBatchToRun {} = some (s', some b) ∧
      b.forwardMode = .decode ∧ b.reqs = [1] ∧ b.specInfo = some d ∧ d.topkP = [0] ∧ d.verifiedId = [7] ∧
      s'.lastToken 1 = some 11 := by
  obtain ⟨s, hs, hch, s1, h1, last, hlast, hdec, hrest⟩ : ∃ s, prefilled (newReq 8 (some false)) (newReq 8 none) [0, 1] = some s ∧
      s.chunkedReq = none ∧ ∃ s1, s.exec sevenGrammar (.iterate {} (twoForward fun r => if r = 0 then 7 else r + 10)) = some s1 ∧
      ∃ last, s1.lastBatch = some last ∧ last.forwardMode = .decode ∧ ∃ s' b d, s1.getNextBatchToRun {} = some (s', some b) ∧
        b.forwardMode = .decode ∧ b.reqs = [1] ∧ b.specInfo = some d ∧ d.topkP = [0] ∧ d.verifiedId = [7] ∧
        s'.lastToken 1 = some 11 :=
    ⟨_, rfl, rfl, _, rfl, _, rfl, rfl, _, _, _, rfl, rfl, rfl, rfl, rfl, rfl, rfl⟩
  obtain ⟨s', b, d, hrest⟩ := hrest
  refine ⟨s1, s', b, d, ?_, ?_, hrest⟩
  · refine ((run_prefilled (List.Perm.refl _) hs).mono fun _ _ _ => trivial).step _ ?_ trivial h1
    exact ⟨fun _ => hch, nofun, nofun, nofun⟩
  · intro b0 hb0 hext
    rw [hlast] at hb0
    cases hb0
    rw [hdec] at hext
    cases hext

/-- With the requests in the other order the decode batch has its own rows. -/
theorem draftInput_aligned_first_token :
    ∃ s s' b, prefilled (newReq 1 none) (newReq 8 none) [1, 0] = some s ∧ s.getNextBatchToRun {} = some (s', some b) ∧
      b.reqs = [1] ∧ Aligned s' b := by
  obtain ⟨s, hs, s', b, hnext, hmode, hreqs, hch, last, hlast, hlr, hfil⟩ : ∃ s,
    prefilled (newReq 1 none) (newReq 8 none) [1, 0] = some s ∧
      ∃ s' b, s.getNextBatchToRun {} = some (s', some b) ∧ b.forwardMode = .decode ∧ b.reqs = [1] ∧ s.chunkedReq = none ∧
      ∃ last, s.lastBatch = some last ∧ last.reqs = [1, 0] ∧ [1, 0].filter s.unfinished = [1] :=
    ⟨_, rfl, _, _, rfl, rfl, rfl, rfl, _, rfl, rfl, rfl⟩
  have hord : s.InOrder := by
    intro b0 hb0 _ _
    rw [hlast] at hb0
    cases hb0
    rw [hlr, hfil]
    exact ⟨[0], rfl⟩
  obtain ⟨s'', b'', hnext', hal⟩ := draftInput_aligned sevenGrammar s (run_prefilled (List.Perm.swap _ _ _) hs) {}
    ⟨fun _ => hch, nofun, nofun, nofun⟩ hord
  rw [hnext] at hnext'
  cases hnext'
  exact ⟨s, s', b, hs, hnext, hreqs, hal b rfl hmode⟩

end Scheduler

end DynaSpec.Managers
