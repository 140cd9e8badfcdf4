/-
  DynaSpec.Speculative.VerifyKvCommit — what a verification step commits.

  Each of the three ways of `verify` frees some of the new slots and keeps others in the
  rows, such that no kept slot is on a page with a freed one and every new page has a
  freed or a kept slot (`Retains`); `verify_outcome` says which. From this follow
  `verify_commits_accepted` (the rows hold the KV of the accepted tokens, no page of
  theirs is free and none is lost), `verifyStep_pageConsistent` (the pages are laid
  out after the step as they were before it), and for a whole run `run_keeps`.
-/

import DynaSpec.Speculative.VerifyKvKernels

namespace DynaSpec.Speculative.VerifyKv

open DynaSpec.Lib DynaSpec.MemCache List Allocator Nat

variable {K : Type} {q : Nat}

/-! ## Kept and freed slots of one request -/

/-- Of the `draftTokenNum` slots behind the first `seqLen` of a row, those with `F` are
    freed and `σ k` is kept at the row's `k`-th new position. -/
structure Retains (pageSize seqLen draftTokenNum n : Nat) (F : Nat → Prop) (σ : Nat → Nat) : Prop where
  lt : ∀ k < n, σ k < draftTokenNum
  apart : ∀ p, (p < seqLen ∨ ∃ k < n, p = seqLen + σ k) → ∀ j < draftTokenNum, F j → p / pageSize ≠ (seqLen + j) / pageSize
  cover : ∀ q, pageCount pageSize seqLen ≤ q → q < pageCount pageSize (seqLen + draftTokenNum) →
    (∃ j < draftTokenNum, F j ∧ (seqLen + j) / pageSize = q) ∨ ∃ k < n, (seqLen + σ k) / pageSize = q

/-- Pages of one slot: the tokens that are not kept are freed. -/
theorem retains_slots {seqLen draftTokenNum : Nat} {kept : List Nat} (hlt : ∀ t ∈ kept, t < draftTokenNum) :
    Retains 1 seqLen draftTokenNum kept.length (fun j => j ∉ kept) fun k => kept.getD k 0 := by
  have hmem : ∀ k < kept.length, kept.getD k 0 ∈ kept := by
    intro k hk
    rw [getD_eq_getElem _ _ hk]
    exact getElem_mem hk
  refine ⟨fun k hk => hlt _ (hmem k hk), ?_, ?_⟩
  · intro p hp j _ hj he
    rw [Nat.div_one, Nat.div_one] at he
    rcases hp with hp | ⟨k, hk, rfl⟩
    · omega
    · exact hj (add_left_cancel he ▸ hmem k hk)
  intro q hlo hhi
  simp only [pageCount] at hlo hhi ⊢
  by_cases hq : q - seqLen ∈ kept
  · obtain ⟨k, hk, he⟩ := getElem_of_mem hq
    exact .inr ⟨k, hk, by rw [getD_eq_getElem _ _ hk, he]; omega⟩
  · exact .inl ⟨q - seqLen, by omega, hq, by omega⟩

/-- The first tokens are kept and the pages behind them are freed. -/
theorem retains_pages {pageSize seqLen draftTokenNum n : Nat} {σ : Nat → Nat} (hps : 0 < pageSize) (hn : n ≤ draftTokenNum)
    (hσ : ∀ k < n, σ k = k) :
    Retains pageSize seqLen draftTokenNum n (fun j => pageCount pageSize (seqLen + n) * pageSize ≤ seqLen + j) σ := by
  refine ⟨fun k hk => by rw [hσ k hk]; omega, ?_, ?_⟩
  · intro p hp j _ hj he
    have hp : p < seqLen + n := by
      rcases hp with hp | ⟨k, hk, rfl⟩
      · omega
      · rw [hσ k hk]
        omega
    have hlt := div_lt_pageCount hps hp
    have hge := (le_div_iff_mul_le hps).mpr hj
    omega
  intro q hlo hhi
  have hge := le_pageCount_mul hps seqLen
  have hmul := mul_le_mul_right pageSize hlo
  rw [lt_pageCount hps] at hhi
  rcases lt_or_ge q (pageCount pageSize (seqLen + n)) with hq | hq
  · rw [lt_pageCount hps] at hq
    refine .inr ⟨q * pageSize - seqLen, by omega, ?_⟩
    rw [hσ _ (by omega), Nat.add_sub_cancel' (by omega), Nat.mul_div_cancel _ hps]
  have hmul' := mul_le_mul_right pageSize hq
  refine .inl ⟨q * pageSize - seqLen, by omega, by omega, ?_⟩
  rw [Nat.add_sub_cancel' (by omega), Nat.mul_div_cancel _ hps]

/-! ## The outcome of the three ways -/

/-- The batch `b'` after a step from `b`: each row goes on with the slots of the tokens
    `σ i k`, which hold the KV of the kept tokens, and the slots with `F` were freed. -/
structure Outcome (draftTokenNum : Nat) (draftKv : Nat → K) (b : Batch K) (a : Allocator) (pg : Nat → Nat → Nat)
    (kept : Nat → List Nat) (F : Nat → Nat → Prop) (σ : Nat → Nat → Nat) (b' : Batch K) : Prop where
  bs : b'.bs = b.bs
  reqPoolIndices : b'.reqPoolIndices = b.reqPoolIndices
  rowNew : ∀ i < b.bs, ∀ k < (kept i).length, b'.reqToToken (b.reqPoolIndices i, b.seqLens i + k) =
    slotAt b.allocator.pageSize pg i (b.seqLens i + σ i k)
  rowOld : ∀ i < b.bs, ∀ p < b.seqLens i, b'.reqToToken (b.reqPoolIndices i, p) = b.reqToToken (b.reqPoolIndices i, p)
  kvNew : ∀ i < b.bs, ∀ k < (kept i).length, b'.kv (slotAt b.allocator.pageSize pg i (b.seqLens i + σ i k)) =
    draftKv (i * draftTokenNum + (kept i).getD k 0)
  kvOld : ∀ i < b.bs, ∀ p < b.seqLens i, b'.kv (slotAt b.allocator.pageSize pg i p) = b.kv (slotAt b.allocator.pageSize pg i p)
  freed : ∃ l, b'.allocator = a.free l ∧ SlotsOf draftTokenNum b pg F l ∧ (b.allocator.pageSize = 1 → l.Nodup)
  retains : ∀ i < b.bs, Retains b.allocator.pageSize (b.seqLens i) draftTokenNum (kept i).length (F i) (σ i)

section
variable {draftTokenNum : Nat} {draftKv : Nat → K} {b b' : Batch K} {a : Allocator} {loc : List Nat} {pg : Nat → Nat → Nat}
  {kept : Nat → List Nat} {F : Nat → Nat → Prop} {σ : Nat → Nat → Nat}

section
variable (h : Outcome draftTokenNum draftKv b a pg kept F σ b') (he : Extends draftTokenNum b a loc pg)
include h he

/-- Every position of a row below the new length is a position of the page table. -/
theorem Outcome.row {i p : Nat} (hi : i < b.bs) (hp : p < b.seqLens i + (kept i).length) :
    ∃ p', p' < b.seqLens i + draftTokenNum ∧ (p' < b.seqLens i ∨ ∃ k < (kept i).length, p' = b.seqLens i + σ i k) ∧
      b'.reqToToken (b.reqPoolIndices i, p) = slotAt b.allocator.pageSize pg i p' := by
  rcases lt_or_ge p (b.seqLens i) with hlt | hge
  · exact ⟨p, by omega, .inl hlt, by rw [h.rowOld i hi p hlt, he.row i hi p hlt]⟩
  obtain ⟨k, rfl⟩ := Nat.exists_eq_add_of_le hge
  have hk : k < (kept i).length := by omega
  have hσ := (h.retains i hi).lt k hk
  exact ⟨b.seqLens i + σ i k, by omega, .inr ⟨k, hk, rfl⟩, h.rowNew i hi k hk⟩

section
variable (hps : 0 < b.allocator.pageSize)
include hps

theorem Outcome.mem_allFree : q ∈ b'.allocator.allFree ↔ q ∈ a.allFree ∨
      ∃ i < b.bs, ∃ j < draftTokenNum, F i j ∧ pg i ((b.seqLens i + j) / b.allocator.pageSize) = q := by
  obtain ⟨l, hl, hs, -⟩ := h.freed
  rw [hl, (free_perm he.isNotInFreeGroup l).mem_iff, mem_append, mem_pagesOf, he.pageSize, or_comm]
  apply or_congr Iff.rfl
  constructor
  · intro ⟨s, hm, hq⟩
    obtain ⟨i, hi, j, hj, hF, rfl⟩ := (hs s).mp hm
    rw [slotAt_div hps] at hq
    exact ⟨i, hi, j, hj, hF, hq⟩
  · intro ⟨i, hi, j, hj, hF, hq⟩
    exact ⟨_, (hs _).mpr ⟨i, hi, j, hj, hF, rfl⟩, by rw [slotAt_div hps, hq]⟩

/-- No page of a row below its new length is free. -/
theorem Outcome.used {i p : Nat} (hi : i < b.bs) (hp : p < b.seqLens i + (kept i).length) :
    b'.reqToToken (b.reqPoolIndices i, p) / b.allocator.pageSize ∉ b'.allocator.allFree := by
  obtain ⟨p', hlt, hkept, hrow⟩ := h.row he hi hp
  rw [hrow, slotAt_div hps, h.mem_allFree he hps]
  intro hm
  rcases hm with hm | ⟨j, hj, t, ht, hF, hq⟩
  · exact he.used i hi _ (div_lt_pageCount hps hlt) hm
  · obtain ⟨rfl, hpage⟩ := he.owned.page hps hj hi (Nat.le_add_right _ t) (Nat.add_lt_add_left ht _) hlt hq
    exact (h.retains _ hi).apart p' hkept t ht hF hpage.symm

/-- A page that was free is free again or has a position below the new length. -/
theorem Outcome.conserved (hq : q ∈ b.allocator.allFree) :
    q ∈ b'.allocator.allFree ∨ ∃ i < b.bs, ∃ p < b.seqLens i + (kept i).length,
      b'.reqToToken (b.reqPoolIndices i, p) / b.allocator.pageSize = q := by
  rw [h.mem_allFree he hps]
  rcases he.taken q hq with hm | ⟨i, hi, k, hlo, hhi, rfl⟩
  · exact .inl (.inl hm)
  rcases (h.retains i hi).cover k hlo hhi with ⟨j, hj, hF, rfl⟩ | ⟨m, hm, rfl⟩
  · exact .inl (.inr ⟨i, hi, j, hj, hF, rfl⟩)
  · exact .inr ⟨i, hi, b.seqLens i + m, Nat.add_lt_add_left hm _, by rw [h.rowNew i hi m hm, slotAt_div hps]⟩

theorem Outcome.nodup : b'.allocator.allFree.Nodup := by
  obtain ⟨l, hl, hs, hnodup⟩ := h.freed
  rw [hl, (free_perm he.isNotInFreeGroup l).nodup_iff, he.pageSize, nodup_append]
  refine ⟨?_, he.nodup, ?_⟩
  · by_cases h1 : b.allocator.pageSize = 1
    · rw [pagesOf, if_pos h1]
      exact hnodup h1
    · rw [pagesOf, if_neg h1]
      exact unique_nodup _
  · intro q hq q' hq' heq
    obtain ⟨s, hm, rfl⟩ := mem_pagesOf.mp hq
    obtain ⟨i, hi, j, hj, -, rfl⟩ := (hs s).mp hm
    rw [slotAt_div hps] at heq
    exact he.used i hi _ (div_lt_pageCount hps (Nat.add_lt_add_left hj _)) (heq ▸ hq')

end

end

end

/-! ## What `verify` leaves -/

section
variable (sched : Schedule) (topk draftTokenNum : Nat) (c : Checked) (tgtCacheLoc : List Nat) (b : Batch K)

/-- The rows after `verify`: with slots kept in place they are written again. -/
def committedRows (inPlace : Prop) [Decidable inPlace] : Nat × Nat → Nat :=
  if inPlace then assignReqToTokenPool sched b.bs b.reqPoolIndices b.reqToToken b.seqLens
    (fun i => b.seqLens i + c.acceptLength i + 1) (select b.outCacheLoc (flatAcceptIndex b.bs c.acceptIndex))
  else b.reqToToken

variable {b' : Batch K}

theorem commitAccepted_frame (h : commitAccepted sched topk draftTokenNum c tgtCacheLoc b = b') : b'.bs = b.bs ∧
    b'.reqPoolIndices = b.reqPoolIndices ∧ b'.allocator = b.allocator ∧ b'.kv = b.kv ∧ b'.kvCommittedLen = b.kvCommittedLen ∧
    b'.reqToToken = committedRows sched c b (b.allocator.pageSize = 1 ∨ topk = 1) := by
  subst h
  unfold commitAccepted committedRows
  dsimp only
  split_ifs <;> exact ⟨rfl, rfl, rfl, rfl, rfl, rfl⟩

/-- The lengths grow, except where no request goes on and the tokens were moved. -/
theorem commitAccepted_seqLens (h : commitAccepted sched topk draftTokenNum c tgtCacheLoc b = b') :
    (b'.seqLens = b.seqLens ∧ c.unfinishedIndex = []) ∨
      ∀ i, b'.seqLens i = b.seqLens i + (c.acceptLength i + 1) ∧ b'.seqLensCpu i = b.seqLensCpu i + (c.acceptLength i + 1) := by
  subst h
  unfold commitAccepted
  dsimp only
  split_ifs <;> simp_all

theorem verify_eq (acc : Accepted) : commitAccepted sched topk draftTokenNum (checkAccepted b.bs acc)
    (freeUnaccepted sched topk draftTokenNum (checkAccepted b.bs acc) b).2
    (freeUnaccepted sched topk draftTokenNum (checkAccepted b.bs acc) b).1 = verify sched topk draftTokenNum acc b := rfl

theorem freeUnaccepted_frame (h : (freeUnaccepted sched topk draftTokenNum c b).1 = b') : b'.bs = b.bs ∧
    b'.reqPoolIndices = b.reqPoolIndices ∧ b'.seqLens = b.seqLens ∧ b'.seqLensCpu = b.seqLensCpu ∧
    b'.reqToToken = b.reqToToken ∧ b'.outCacheLoc = b.outCacheLoc ∧ b'.allocator.pageSize = b.allocator.pageSize := by
  subst h
  unfold freeUnaccepted
  dsimp only
  split_ifs <;> simp

theorem freeUnaccepted_kvCommittedLen (h : b.allocator.pageSize = 1 ∨ topk = 1) (i : Nat) :
    (freeUnaccepted sched topk draftTokenNum c b).1.kvCommittedLen i = b.kvCommittedLen i + (c.acceptLength i + 1) := by
  unfold freeUnaccepted
  dsimp only
  split_ifs
  · rfl
  · rfl
  · omega

end

/-- The batch `b1` that is verified: the rows have the slots of the draft tokens, and
    these hold their KV. -/
structure Prepared (draftTokenNum : Nat) (draftKv : Nat → K) (b : Batch K) (a : Allocator) (loc : List Nat) (pg : Nat → Nat → Nat)
    (b1 : Batch K) : Prop where
  bs : b1.bs = b.bs
  reqPoolIndices : b1.reqPoolIndices = b.reqPoolIndices
  seqLens : b1.seqLens = b.seqLens
  seqLensCpu : b1.seqLensCpu = b.seqLensCpu
  kvCommittedLen : b1.kvCommittedLen = b.kvCommittedLen
  allocator : b1.allocator = a
  outCacheLoc : b1.outCacheLoc = loc
  row : ∀ i < b.bs, ∀ p < b.seqLens i + draftTokenNum, b1.reqToToken (b.reqPoolIndices i, p) = slotAt b.allocator.pageSize pg i p
  kvNew : ∀ i < b.bs, ∀ j < draftTokenNum, b1.kv (slotAt b.allocator.pageSize pg i (b.seqLens i + j)) =
    draftKv (i * draftTokenNum + j)
  kvOld : ∀ i < b.bs, ∀ p < b.seqLens i, b1.kv (slotAt b.allocator.pageSize pg i p) = b.kv (slotAt b.allocator.pageSize pg i p)

section
variable {sched : Schedule} {topk draftTokenNum : Nat} {draftKv : Nat → K} {b b1 b' : Batch K} {a : Allocator} {loc : List Nat}
  {pg : Nat → Nat → Nat} {c : Checked} {kept : Nat → List Nat}

theorem prepareForVerify_prepared (draftKv : Nat → K) (hb : PageConsistent b)
    (h : prepareForVerify sched draftTokenNum b = some b1) :
    ∃ a loc pg, Extends draftTokenNum b a loc pg ∧
    Prepared draftTokenNum draftKv b a loc pg (forwardTargetVerify draftKv b1) := by
  unfold prepareForVerify at h
  rcases hal : allocForVerify sched draftTokenNum b with ⟨a, _ | loc⟩
  · rw [hal] at h
    cases h
  rw [hal] at h
  cases h
  obtain ⟨pg, he⟩ := allocForVerify_extends hb hal
  obtain ⟨hnew, hold⟩ := forward_spec hb.pageSize he draftKv rfl
  refine ⟨a, loc, pg, he, rfl, rfl, rfl, rfl, rfl, rfl, rfl, ?_, hnew, hold⟩
  intro i hi p hp
  rcases lt_or_ge p (b.seqLens i) with hlt | hge
  · exact (assign_frame hb.pool hi (.inl hlt)).trans (he.row i hi p hlt)
  obtain ⟨j, rfl⟩ := Nat.exists_eq_add_of_le hge
  have hj : j < draftTokenNum := by omega
  refine (assign_row hb.pool hi (by rwa [Nat.add_sub_cancel_left])).trans ?_
  simp only [Nat.add_sub_cancel_left, offset_const]
  exact he.loc i hi j hj

/-- The rows written again with the slots of the kept tokens. -/
theorem committedRows_inPlace (sched : Schedule) (hb : PageConsistent b) (he : Extends draftTokenNum b a loc pg)
    (hk : Kept topk draftTokenNum b.bs c kept) {b2 : Batch K} (hbs : b2.bs = b.bs) (hpool : b2.reqPoolIndices = b.reqPoolIndices)
    (hlens : b2.seqLens = b.seqLens) (hloc : b2.outCacheLoc = loc) {i : Nat} (hi : i < b.bs) :
    (∀ k < (kept i).length, committedRows sched c b2 True (b.reqPoolIndices i, b.seqLens i + k) =
      slotAt b.allocator.pageSize pg i (b.seqLens i + (kept i).getD k 0)) ∧
    ∀ p < b.seqLens i, committedRows sched c b2 True (b.reqPoolIndices i, p) = b2.reqToToken (b.reqPoolIndices i, p) := by
  have hsize : ∀ j < b.bs, b.seqLens j + c.acceptLength j + 1 - b.seqLens j = (kept j).length := by
    intro j hj
    have := hk.length j hj
    omega
  unfold committedRows
  rw [if_pos trivial, hbs, hpool, hlens, hloc]
  refine ⟨fun k hlt => ?_, fun p hp => assign_frame hb.pool hi (.inl hp)⟩
  rw [assign_row hb.pool hi (by rwa [hsize i hi]), offset_congr fun j hj => hsize j (lt_trans hj hi),
    getD_select_flat hk he hi hlt]

variable {acc : Accepted}

section
variable (hb : PageConsistent b) (he : Extends draftTokenNum b a loc pg) (hp : Prepared draftTokenNum draftKv b a loc pg b1)
include hb he hp

/-- Where the slots are kept in place, it remains to say which of them are freed. -/
theorem verify_inPlace
    (hk : Kept topk draftTokenNum b.bs (checkAccepted b1.bs acc) kept) (hin : b.allocator.pageSize = 1 ∨ topk = 1)
    (mask : Nat → Bool) (F : Nat → Nat → Prop)
    (hall : (freeUnaccepted sched topk draftTokenNum (checkAccepted b1.bs acc) b1).1.allocator = a.free (selectMask loc mask))
    (hkv : (freeUnaccepted sched topk draftTokenNum (checkAccepted b1.bs acc) b1).1.kv = b1.kv)
    (hmask : ∀ i < b.bs, ∀ j < draftTokenNum, mask (i * draftTokenNum + j) = true ↔ F i j)
    (hr : ∀ i < b.bs, Retains b.allocator.pageSize (b.seqLens i) draftTokenNum (kept i).length (F i) fun k => (kept i).getD k 0) :
    Outcome draftTokenNum draftKv b a pg kept F (fun i k => (kept i).getD k 0) (verify sched topk draftTokenNum acc b1) := by
  obtain ⟨cbs, cpool, call, ckv, -, crow⟩ := commitAccepted_frame _ _ _ _ _ _ (verify_eq sched topk draftTokenNum b1 acc)
  obtain ⟨fbs, fpool, flens, -, frow, floc, fps⟩ := freeUnaccepted_frame sched topk draftTokenNum (checkAccepted b1.bs acc) b1 rfl
  have hkv' : (verify sched topk draftTokenNum acc b1).kv = b1.kv := ckv.trans hkv
  have hrows : (verify sched topk draftTokenNum acc b1).reqToToken =
      committedRows sched (checkAccepted b1.bs acc) (freeUnaccepted sched topk draftTokenNum (checkAccepted b1.bs acc) b1).1
      True := by
    refine crow.trans ?_
    rw [fps, hp.allocator, he.pageSize]
    unfold committedRows
    rw [if_pos hin, if_pos trivial]
  have hnew := fun i hi => committedRows_inPlace sched hb he hk (fbs.trans hp.bs) (fpool.trans hp.reqPoolIndices)
    (flens.trans hp.seqLens) (floc.trans hp.outCacheLoc) (i := i) hi
  refine ⟨cbs.trans (fbs.trans hp.bs), cpool.trans (fpool.trans hp.reqPoolIndices), ?_, ?_, ?_, ?_,
    ⟨_, call.trans hall, selectMask_slots he hmask, fun _ => selectMask_nodup he hb.pageSize mask⟩, hr⟩
  · intro i hi k hlt
    rw [hrows, (hnew i hi).1 k hlt]
  · intro i hi p hlt
    rw [hrows, (hnew i hi).2 p hlt, frow, hp.row i hi p (by omega), he.row i hi p hlt]
  · intro i hi k hlt
    rw [hkv', hp.kvNew i hi _ (kept_getD_lt hk hi hlt)]
  · intro i hi p hlt
    rw [hkv', hp.kvOld i hi p hlt]

/-- Where the accepted tokens are moved, the rows stay as they were prepared. -/
theorem verify_moved
    (hk : Kept topk draftTokenNum b.bs (checkAccepted b1.bs acc) kept) (h1 : b.allocator.pageSize ≠ 1) (htop : topk ≠ 1) :
    Outcome draftTokenNum draftKv b a pg kept
      (fun i j => pageCount b.allocator.pageSize (b.seqLens i + (kept i).length) * b.allocator.pageSize ≤ b.seqLens i + j)
      (fun _ k => k) (verify sched topk draftTokenNum acc b1) := by
  obtain ⟨cbs, cpool, call, ckv, -, crow⟩ := commitAccepted_frame _ _ _ _ _ _ (verify_eq sched topk draftTokenNum b1 acc)
  obtain ⟨fbs, fpool, -, -, frow, -, fps⟩ := freeUnaccepted_frame sched topk draftTokenNum (checkAccepted b1.bs acc) b1 rfl
  have hps : b1.allocator.pageSize = b.allocator.pageSize := by rw [hp.allocator, he.pageSize]
  have hrows : (verify sched topk draftTokenNum acc b1).reqToToken = b1.reqToToken := by
    refine crow.trans ?_
    rw [fps, hps]
    unfold committedRows
    rw [if_neg (fun h => h.elim h1 htop), frow]
  unfold freeUnaccepted at call ckv
  dsimp only at call ckv
  rw [hps, if_neg h1, if_neg htop, hp.bs, hp.outCacheLoc, hp.seqLens] at call ckv
  rw [hp.allocator] at call
  rw [hp.bs] at hk
  obtain ⟨hmove, hstay⟩ := moveKvCache_spec hb.pageSize he hk _ b1.kv ckv
  have hlt : ∀ {i k : Nat}, i < b.bs → k < (kept i).length → k < draftTokenNum :=
    fun hi hlt => lt_of_lt_of_le hlt (kept_length_le hk hi)
  refine ⟨cbs.trans (fbs.trans hp.bs), cpool.trans (fpool.trans hp.reqPoolIndices), ?_, ?_, ?_, ?_,
    ⟨_, call, toFree_slotsOf hb.pageSize he hk, fun h => absurd h h1⟩, ?_⟩
  · intro i hi k hki
    rw [hrows, hp.row i hi _ (Nat.add_lt_add_left (hlt hi hki) _)]
  · intro i hi p hlt
    rw [hrows, hp.row i hi p (by omega), he.row i hi p hlt]
  · intro i hi k hki
    rw [← hp.kvNew i hi _ (kept_getD_lt hk hi hki)]
    exact hmove i hi k hki
  · intro i hi p hlt
    rw [← hp.kvOld i hi p hlt]
    exact hstay i hi p hlt
  · intro i hi
    exact retains_pages hb.pageSize (kept_length_le hk hi) fun _ _ => rfl

theorem verify_outcome (sched : Schedule) (hk : Kept topk draftTokenNum b.bs (checkAccepted b1.bs acc) kept) :
    ∃ F σ, Outcome draftTokenNum draftKv b a pg kept F σ (verify sched topk draftTokenNum acc b1) ∧
      (b.allocator.pageSize ≠ 1 → ∀ i < b.bs, ∀ k < (kept i).length, σ i k = k) := by
  have hps : b1.allocator.pageSize = b.allocator.pageSize := by rw [hp.allocator, he.pageSize]
  obtain ⟨mask, hmaskDef⟩ : ∃ mask : Nat → Bool, mask = fun f =>
      !(flatAcceptIndex b.bs (checkAccepted b1.bs acc).acceptIndex).contains f := ⟨_, rfl⟩
  have hmask : ∀ i < b.bs, ∀ j < draftTokenNum, mask (i * draftTokenNum + j) = true ↔ j ∉ kept i := by
    intro i hi j hj
    rw [hmaskDef, Bool.not_eq_true', ← Bool.not_eq_true, contains_iff_mem, mem_flat hk hi hj]
  by_cases h1 : b.allocator.pageSize = 1
  · refine ⟨_, _, verify_inPlace hb he hp hk (.inl h1) mask (fun i j => j ∉ kept i) ?_ ?_ hmask ?_, absurd h1⟩
    · unfold freeUnaccepted
      rw [if_pos (hps.trans h1), hmaskDef, ← hp.bs, ← hp.outCacheLoc, ← hp.allocator]
    · unfold freeUnaccepted
      rw [if_pos (hps.trans h1)]
    · intro i hi
      rw [h1]
      exact retains_slots (hk.lt i hi)
  by_cases htop : topk = 1
  · -- a chain keeps its first tokens in place
    have hchain : ∀ i < b.bs, ∀ j < draftTokenNum, mask (i * draftTokenNum + j) = decide ((kept i).length ≤ j) := by
      intro i hi j hj
      rw [Bool.eq_iff_iff, hmask i hi j hj, decide_eq_true_eq, hk.chain htop i hi, mem_range, length_range]
      omega
    have hn : ∀ i < b.bs, 0 < (kept i).length ∧ (kept i).length ≤ draftTokenNum := by
      intro i hi
      exact ⟨by have := hk.length i hi; omega, kept_length_le hk hi⟩
    have hfirst : ∀ i < b.bs, ∀ k < (kept i).length, (kept i).getD k 0 = k := by
      intro i hi k hlt
      rw [hk.chain htop i hi, getD_eq_getElem _ _ (by rwa [length_range]), getElem_range]
    refine ⟨_, _, verify_inPlace hb he hp hk (.inr htop) _ _ ?_ ?_
      (fun i hi j hj => align_mask sched hb.pageSize b.seqLens mask hn hchain hi hj) ?_, fun _ => hfirst⟩
    · unfold freeUnaccepted
      rw [if_neg (by rwa [hps]), if_pos htop, hps, hmaskDef, ← hp.bs, ← hp.outCacheLoc, ← hp.allocator, ← hp.seqLens]
    · unfold freeUnaccepted
      rw [if_neg (by rwa [hps]), if_pos htop]
    · intro i hi
      exact retains_pages hb.pageSize (hn i hi).2 (hfirst i hi)
  · exact ⟨_, _, verify_moved hb he hp hk h1 htop, fun _ _ _ _ _ => rfl⟩

end

end

/-! ## The results -/

/-- What is true after a step in which the requests' paths were accepted. -/
structure Commits (topk draftTokenNum : Nat) (draftKv : Nat → K) (acc : Accepted) (path : Nat → List Nat) (b b' : Batch K) :
    Prop where
  acceptLength : ∀ i < b.bs, (checkAccepted b.bs acc).acceptLength i + 1 = (acc.kept path i).length
  /-- The new positions hold the KV of the accepted path, in order. -/
  accepted : ∀ i < b.bs, ∀ k < (acc.kept path i).length,
    b'.kv (b'.reqToToken (b.reqPoolIndices i, b.seqLens i + k)) = draftKv (i * draftTokenNum + (acc.kept path i).getD k 0)
  unchanged : ∀ i < b.bs, ∀ p < b.seqLens i, b'.reqToToken (b.reqPoolIndices i, p) = b.reqToToken (b.reqPoolIndices i, p) ∧
    b'.kv (b'.reqToToken (b.reqPoolIndices i, p)) = b.kv (b.reqToToken (b.reqPoolIndices i, p))
  /-- No free page has a position below a new length. -/
  used : ∀ i < b.bs, ∀ p < b.seqLens i + (acc.kept path i).length,
    b'.reqToToken (b.reqPoolIndices i, p) / b.allocator.pageSize ∉ b'.allocator.allFree
  /-- A page that was free before is free or has a position below a new length. -/
  conserved : ∀ q ∈ b.allocator.allFree, q ∈ b'.allocator.allFree ∨ ∃ i < b.bs, ∃ p < b.seqLens i + (acc.kept path i).length,
    b'.reqToToken (b.reqPoolIndices i, p) / b.allocator.pageSize = q
  committed : b.allocator.pageSize = 1 ∨ topk = 1 → ∀ i < b.bs,
    b'.kvCommittedLen i = b.kvCommittedLen i + (acc.kept path i).length
  grown : ∀ i < b.bs, acc.finished path i = false → b'.seqLens i = b.seqLens i + (acc.kept path i).length ∧
    b'.seqLensCpu i = b.seqLensCpu i + (acc.kept path i).length

section
variable {sched : Schedule} {topk draftTokenNum : Nat} {draftKv : Nat → K} {b b' : Batch K} {acc : Accepted}
  {path : Nat → List Nat}

theorem verify_kvCommittedLen {b1 : Batch K} (h : b1.allocator.pageSize = 1 ∨ topk = 1) (i : Nat) :
    (verify sched topk draftTokenNum acc b1).kvCommittedLen i = b1.kvCommittedLen i +
    ((checkAccepted b1.bs acc).acceptLength i + 1) := by
  obtain ⟨-, -, -, -, hc, -⟩ := commitAccepted_frame _ _ _ _ _ _ (verify_eq sched topk draftTokenNum b1 acc)
  exact (congrFun hc i).trans (freeUnaccepted_kvCommittedLen sched topk draftTokenNum _ b1 h i)

/-- A length grows by the accepted tokens, or no request is left that goes on. -/
theorem verify_seqLens (sched : Schedule) (topk draftTokenNum : Nat) (acc : Accepted) (b1 : Batch K) :
    ((verify sched topk draftTokenNum acc b1).seqLens = b1.seqLens ∧ (checkAccepted b1.bs acc).unfinishedIndex = []) ∨
    ∀ i, (verify sched topk draftTokenNum acc b1).seqLens i = b1.seqLens i + ((checkAccepted b1.bs acc).acceptLength i + 1) ∧
      (verify sched topk draftTokenNum acc b1).seqLensCpu i = b1.seqLensCpu i +
      ((checkAccepted b1.bs acc).acceptLength i + 1) := by
  obtain ⟨-, -, flens, fcpu, -, -, -⟩ := freeUnaccepted_frame sched topk draftTokenNum (checkAccepted b1.bs acc) b1 rfl
  have hlens := commitAccepted_seqLens _ _ _ _ _ _ (verify_eq sched topk draftTokenNum b1 acc)
  rwa [flens, fcpu] at hlens

variable (hb : PageConsistent b) (hacc : Accepts topk draftTokenNum b.bs acc path)
  (h : verifyStep sched topk draftTokenNum draftKv acc b = some b')
include hb hacc h

/-- A step that does not run out of memory. -/
theorem verifyStep_outcome : ∃ a loc pg b1 F σ, Extends draftTokenNum b a loc pg ∧ Prepared draftTokenNum draftKv b a loc pg b1 ∧
      b' = verify sched topk draftTokenNum acc b1 ∧ Outcome draftTokenNum draftKv b a pg (acc.kept path) F σ b' ∧
      (b.allocator.pageSize ≠ 1 → ∀ i < b.bs, ∀ k < (acc.kept path i).length, σ i k = k) := by
  obtain ⟨b0, h0, rfl⟩ := Option.map_eq_some_iff.mp h
  obtain ⟨a, loc, pg, he, hp⟩ := prepareForVerify_prepared draftKv hb h0
  have hk : Kept topk draftTokenNum b.bs (checkAccepted (forwardTargetVerify draftKv b0).bs acc) (acc.kept path) := by
    rw [hp.bs]
    exact checkAccepted_kept hacc
  obtain ⟨F, σ, ho, hσ⟩ := verify_outcome hb he hp sched hk
  exact ⟨a, loc, pg, _, F, σ, he, hp, rfl, ho, hσ⟩

theorem verify_commits_accepted : Commits topk draftTokenNum draftKv acc path b b' := by
  obtain ⟨a, loc, pg, b1, F, σ, he, hp, hb', ho, -⟩ := verifyStep_outcome hb hacc h
  have hlen := (checkAccepted_kept hacc).length
  refine ⟨hlen, ?_, ?_, fun i hi p hlt => ho.used he hb.pageSize hi hlt, fun q hq => ho.conserved he hb.pageSize hq, ?_, ?_⟩
  · intro i hi k hlt
    rw [ho.rowNew i hi k hlt, ho.kvNew i hi k hlt]
  · intro i hi p hlt
    refine ⟨ho.rowOld i hi p hlt, ?_⟩
    rw [ho.rowOld i hi p hlt, he.row i hi p hlt, ho.kvOld i hi p hlt]
  · intro hin i hi
    rw [hb', verify_kvCommittedLen (by rwa [hp.allocator, he.pageSize]), hp.bs, hlen i hi, hp.kvCommittedLen]
  intro i hi hun
  rcases verify_seqLens sched topk draftTokenNum acc b1 with ⟨-, hnil⟩ | hgrow
  · have hm := (mem_unfinishedIndex hacc hi).mpr hun
    rw [hp.bs] at hnil
    rw [hnil] at hm
    cases hm
  · have hi' := hgrow i
    rw [hp.bs, hlen i hi, hp.seqLens, hp.seqLensCpu, ← hb'] at hi'
    exact hi'

theorem verifyStep_seqLens {i : Nat} (hi : i < b.bs) :
    b.seqLens i ≤ b'.seqLens i ∧ b'.seqLens i ≤ b.seqLens i + (acc.kept path i).length := by
  obtain ⟨a, loc, pg, b1, F, σ, he, hp, hb', -⟩ := verifyStep_outcome hb hacc h
  have hlen := (checkAccepted_kept hacc).length i hi
  rcases verify_seqLens sched topk draftTokenNum acc b1 with ⟨hs, -⟩ | hs
  · rw [hb', hs, hp.seqLens]
    omega
  · rw [hb', (hs i).1, hp.bs, hp.seqLens]
    omega

/-- The pages are laid out after the step as they were before it. -/
theorem verifyStep_pageConsistent : PageConsistent b' := by
  obtain ⟨a, loc, pg, b1, F, σ, he, -, -, ho, hσ⟩ := verifyStep_outcome hb hacc h
  have hps := hb.pageSize
  have hlens := fun i (hi : i < b.bs) => verifyStep_seqLens hb hacc h hi
  have hps' : b'.allocator.pageSize = b.allocator.pageSize ∧ b'.allocator.isNotInFreeGroup = true := by
    obtain ⟨l, hl, -⟩ := ho.freed
    rw [hl, free_pageSize, free_isNotInFreeGroup]
    exact ⟨he.pageSize, he.isNotInFreeGroup⟩
  have hrowPage : ∀ i k, b'.rowPage i k =
    b'.reqToToken (b.reqPoolIndices i, k * b.allocator.pageSize) / b.allocator.pageSize := by
    intro i k
    rw [Batch.rowPage, ho.reqPoolIndices, hps'.1]
  -- with pages of more than one slot, the kept tokens are the first ones
  have htable : b.allocator.pageSize ≠ 1 → ∀ i < b.bs, ∀ p < b.seqLens i + (acc.kept path i).length,
      b'.reqToToken (b.reqPoolIndices i, p) = slotAt b.allocator.pageSize pg i p := by
    intro h1 i hi p hlt
    rcases lt_or_ge p (b.seqLens i) with hp | hp
    · rw [ho.rowOld i hi p hp, he.row i hi p hp]
    · obtain ⟨k, rfl⟩ := Nat.exists_eq_add_of_le hp
      rw [ho.rowNew i hi k (by omega), hσ h1 i hi k (by omega)]
  have hpage : b.allocator.pageSize ≠ 1 → ∀ i < b.bs, ∀ k < pageCount b.allocator.pageSize (b'.seqLens i),
    b'.rowPage i k = pg i k := by
    intro h1 i hi k hlt
    rw [lt_pageCount hps] at hlt
    have := hlens i hi
    rw [hrowPage, htable h1 i hi _ (by omega), slotAt_div hps, Nat.mul_div_cancel _ hps]
  refine ⟨?_, ?_, ?_, ?_, ?_, ho.nodup he hps, hps'.2⟩
  · rw [hps'.1]
    exact hps
  · rw [ho.bs, ho.reqPoolIndices]
    exact hb.pool
  · rw [ho.bs, ho.reqPoolIndices, hps'.1]
    intro i hi p hlt
    have := hlens i hi
    by_cases h1 : b.allocator.pageSize = 1
    · rw [h1, slotAt, hrowPage, h1, Nat.div_one, mul_one, Nat.div_one, mul_one, mod_one, add_zero]
    · rw [htable h1 i hi p (by omega), slotAt, slotAt, hpage h1 i hi _ (div_lt_pageCount hps hlt)]
  · rw [ho.bs, hps'.1]
    intro i hi k hlo hlt j hj l hlt' heq
    by_cases h1 : b.allocator.pageSize = 1
    · rw [h1, Nat.div_one] at hlo
      rw [h1, pageCount, Nat.add_sub_cancel, Nat.div_one] at hlt
      omega
    rw [hpage h1 i hi k hlt, hpage h1 j hj l hlt'] at heq
    have hup : ∀ i < b.bs, b'.seqLens i ≤ b.seqLens i + draftTokenNum := fun i hi =>
      Nat.le_trans (hlens i hi).2 (Nat.add_le_add_left (kept_length_le (checkAccepted_kept hacc) hi) _)
    exact he.owned i hi k (le_trans (Nat.div_le_div_right (hlens i hi).1) hlo)
      (lt_of_lt_of_le hlt (pageCount_mono (hup i hi))) j hj l (lt_of_lt_of_le hlt' (pageCount_mono (hup j hj))) heq
  · rw [ho.bs, hps'.1]
    intro i hi k hlt
    rw [lt_pageCount hps] at hlt
    have := hlens i hi
    rw [hrowPage]
    exact ho.used he hps hi (by omega)

end

/-! ## Whole runs -/

/-- A step with any schedule, draft and accepted paths. -/
def Verifies (topk draftTokenNum : Nat) (b b' : Batch K) : Prop :=
  ∃ sched draftKv acc path, Accepts topk draftTokenNum b.bs acc path ∧ verifyStep sched topk draftTokenNum draftKv acc b = some b'

/-- The pages stay laid out, and the tokens of the requests keep their slots and their KV. -/
structure Keeps (b b' : Batch K) : Prop where
  pages : PageConsistent b'
  bs : b'.bs = b.bs
  pool : b'.reqPoolIndices = b.reqPoolIndices
  seqLens : ∀ i < b.bs, b.seqLens i ≤ b'.seqLens i
  tokens : ∀ i < b.bs, ∀ p < b.seqLens i, b'.reqToToken (b.reqPoolIndices i, p) = b.reqToToken (b.reqPoolIndices i, p) ∧
    b'.kv (b.reqToToken (b.reqPoolIndices i, p)) = b.kv (b.reqToToken (b.reqPoolIndices i, p))

theorem run_keeps {topk draftTokenNum : Nat} {b b' : Batch K} (hb : PageConsistent b)
    (h : Relation.ReflTransGen (Verifies topk draftTokenNum) b b') : Keeps b b' := by
  induction h with
  | refl => exact ⟨hb, rfl, rfl, fun _ _ => le_rfl, fun _ _ _ _ => ⟨rfl, rfl⟩⟩
  | tail _ hstep ih =>
    obtain ⟨sched, draftKv, acc, path, hacc, h⟩ := hstep
    obtain ⟨a, loc, pg, b1, F, σ, he, -, -, ho, -⟩ := verifyStep_outcome ih.pages hacc h
    refine ⟨verifyStep_pageConsistent ih.pages hacc h, ho.bs.trans ih.bs, ho.reqPoolIndices.trans ih.pool, fun i hi => ?_,
      fun i hi p hlt => ?_⟩
    · exact (ih.seqLens i hi).trans (verifyStep_seqLens ih.pages hacc h (ih.bs ▸ hi)).1
    · obtain ⟨hrow, hkv⟩ := ih.tokens i hi p hlt
      replace hlt := hlt.trans_le (ih.seqLens i hi)
      rw [← ih.bs] at hi
      rw [← hkv, ← hrow, ← ih.pool]
      exact ⟨ho.rowOld i hi p hlt, by rw [he.row i hi p hlt, ho.kvOld i hi p hlt]⟩

/-- Two requests on pages of two slots, with the first and the last of three draft
    tokens accepted: the first request goes on, the second finishes on its first token. -/
def twoRequests : Batch Nat :=
  { bs := 2, reqPoolIndices := id, seqLens := fun i => i + 3, seqLensCpu := fun i => i + 3,
    reqToToken := fun x => 4 * x.1 + x.2 + 2, allocator := { pageSize := 2, freePages := [5, 6, 7, 8, 9] },
    kv := fun _ => 0, kvCommittedLen := fun i => i + 3, kvAllocatedLen := fun i => i + 3 }

def firstAndLast : Accepted :=
  { acceptIndex := fun i => [i * 3, i * 3 + 2, -1], acceptLength := fun _ => 1, finishes := fun i j => i == 1 && j == 0 }

theorem twoRequests_pageConsistent : PageConsistent twoRequests :=
  ⟨by decide, by decide, by decide, by unfold Owned; decide, by decide, by decide, by decide⟩

theorem twoRequests_accepts : Accepts 2 3 twoRequests.bs firstAndLast fun _ => [0, 2] :=
  ⟨fun i _ => ⟨1, by simp [firstAndLast]⟩, fun _ _ => rfl, by decide, by decide, by decide⟩

theorem verify_commits_twoRequests : ∃ b', verifyStep Schedule.inOrder 2 3 (· + 1) firstAndLast twoRequests = some b' ∧
    Commits 2 3 (· + 1) firstAndLast (fun _ => [0, 2]) twoRequests b' :=
  ⟨_, rfl, verify_commits_accepted twoRequests_pageConsistent twoRequests_accepts rfl⟩

theorem run_keeps_twoRequests : ∃ b', Verifies 2 3 twoRequests b' ∧ Keeps twoRequests b' := by
  obtain ⟨b', h⟩ : ∃ b', Verifies 2 3 twoRequests b' := ⟨_, .inOrder, (· + 1), firstAndLast, _, twoRequests_accepts, rfl⟩
  exact ⟨b', h, run_keeps twoRequests_pageConsistent (.single h)⟩

end DynaSpec.Speculative.VerifyKv
