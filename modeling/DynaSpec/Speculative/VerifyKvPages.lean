/-
  DynaSpec.Speculative.VerifyKvPages — the slots allocated for the draft tokens.

  The rows of a batch lie on pages that are not free (`PageConsistent`). The slots that
  `prepare_for_verify` allocates continue the rows on pages from the front of the free
  list (`Extends`, `allocForVerify_extends`), whether slots are allocated one by one or
  in pages.
-/

import DynaSpec.Speculative.VerifyKv

namespace DynaSpec.Speculative.VerifyKv

open DynaSpec.Lib DynaSpec.MemCache List Nat Allocator

variable {K : Type}

/-! ## Rows on pages -/

/-- The page of the `k`-th block of a row. -/
def Batch.rowPage (b : Batch K) (i k : Nat) : Nat :=
  b.reqToToken (b.reqPoolIndices i, k * b.allocator.pageSize) / b.allocator.pageSize

/-- Each row lies on pages, none of them free; the page that a row fills only in part is
    its own. -/
structure PageConsistent (b : Batch K) : Prop where
  pageSize : 0 < b.allocator.pageSize
  pool : ∀ i < b.bs, ∀ j < b.bs, b.reqPoolIndices i = b.reqPoolIndices j → i = j
  row : ∀ i < b.bs, ∀ p < b.seqLens i, b.reqToToken (b.reqPoolIndices i, p) = slotAt b.allocator.pageSize b.rowPage i p
  lastPage : Owned b.allocator.pageSize b.bs b.seqLens b.seqLens b.rowPage
  used : ∀ i < b.bs, ∀ k < pageCount b.allocator.pageSize (b.seqLens i), b.rowPage i k ∉ b.allocator.allFree
  nodup : b.allocator.allFree.Nodup
  isNotInFreeGroup : b.allocator.isNotInFreeGroup = true

/-- The slots `loc` of the draft tokens continue the rows on the pages `pg`, and the
    allocator `a` has the other free pages. -/
structure Extends (draftTokenNum : Nat) (b : Batch K) (a : Allocator) (loc : List Nat) (pg : Nat → Nat → Nat) : Prop where
  pageSize : a.pageSize = b.allocator.pageSize
  isNotInFreeGroup : a.isNotInFreeGroup = true
  length : loc.length = b.bs * draftTokenNum
  loc : ∀ i < b.bs, ∀ j < draftTokenNum, loc.getD (i * draftTokenNum + j) 0 = slotAt b.allocator.pageSize pg i (b.seqLens i + j)
  row : ∀ i < b.bs, ∀ p < b.seqLens i, b.reqToToken (b.reqPoolIndices i, p) = slotAt b.allocator.pageSize pg i p
  owned : Owned b.allocator.pageSize b.bs b.seqLens (fun i => b.seqLens i + draftTokenNum) pg
  used : ∀ i < b.bs, ∀ k < pageCount b.allocator.pageSize (b.seqLens i + draftTokenNum), pg i k ∉ a.allFree
  nodup : a.allFree.Nodup
  taken : ∀ q ∈ b.allocator.allFree, q ∈ a.allFree ∨ ∃ i < b.bs, ∃ k, pageCount b.allocator.pageSize (b.seqLens i) ≤ k ∧
    k < pageCount b.allocator.pageSize (b.seqLens i + draftTokenNum) ∧ pg i k = q

/-! ## The allocation -/

section
variable {draftTokenNum : Nat} {b : Batch K} {a : Allocator}

/-- The number of pages that the draft tokens of request `i` need. -/
def newPages (draftTokenNum : Nat) (b : Batch K) (i : Nat) : Nat :=
  pageCount b.allocator.pageSize (b.seqLens i + draftTokenNum) - pageCount b.allocator.pageSize (b.seqLens i)

theorem sub_lt_newPages {i k : Nat} (hk : pageCount b.allocator.pageSize (b.seqLens i) ≤ k)
    (hk' : k < pageCount b.allocator.pageSize (b.seqLens i + draftTokenNum)) :
    k - pageCount b.allocator.pageSize (b.seqLens i) < newPages draftTokenNum b i := by
  unfold newPages
  omega

/-- The pages of the rows, continued by the pages from the front of `pool`. -/
def extendedPage (draftTokenNum : Nat) (b : Batch K) (pool : List Nat) (i k : Nat) : Nat :=
  if k < pageCount b.allocator.pageSize (b.seqLens i) then b.rowPage i k
  else pool.getD (offset (newPages draftTokenNum b) i + (k - pageCount b.allocator.pageSize (b.seqLens i))) 0

theorem extendedPage_old {pool : List Nat} {i k : Nat} (h : k < pageCount b.allocator.pageSize (b.seqLens i)) :
    extendedPage draftTokenNum b pool i k = b.rowPage i k := if_pos h

/-- A new block of a row has a page from the front of the pool. -/
theorem extendedPage_new {pool : List Nat} (hle : offset (newPages draftTokenNum b) b.bs ≤ pool.length) {i k : Nat}
    (hi : i < b.bs)
    (hk : pageCount b.allocator.pageSize (b.seqLens i) ≤ k)
    (hk' : k < pageCount b.allocator.pageSize (b.seqLens i + draftTokenNum)) :
    ∃ h : offset (newPages draftTokenNum b) i + (k - pageCount b.allocator.pageSize (b.seqLens i)) <
        (pool.take (offset (newPages draftTokenNum b) b.bs)).length,
      extendedPage draftTokenNum b pool i k = (pool.take (offset (newPages draftTokenNum b) b.bs))[
        offset (newPages draftTokenNum b) i + (k - pageCount b.allocator.pageSize (b.seqLens i))] := by
  have hlt := offset_le (newPages draftTokenNum b) hi
  have hnew := sub_lt_newPages hk hk'
  have hlen : offset (newPages draftTokenNum b) i + (k - pageCount b.allocator.pageSize (b.seqLens i)) <
      (pool.take (offset (newPages draftTokenNum b) b.bs)).length := by
    rw [length_take]
    omega
  refine ⟨hlen, ?_⟩
  rw [extendedPage, if_neg (not_lt.mpr hk), getElem_take, getD_eq_getElem]

theorem extendedPage_row (draftTokenNum : Nat) (hb : PageConsistent b) (pool : List Nat) {i p : Nat} (hi : i < b.bs)
    (hp : p < b.seqLens i) :
    b.reqToToken (b.reqPoolIndices i, p) = slotAt b.allocator.pageSize (extendedPage draftTokenNum b pool) i p := by
  rw [hb.row i hi p hp, slotAt, slotAt, extendedPage_old (div_lt_pageCount hb.pageSize hp)]

/-- Whatever slots come of it: the rows continued on pages from the front of the pool. -/
theorem Extends.of_took (hb : PageConsistent b) {pool loc : List Nat}
    (ht : Took b.allocator a (offset (newPages draftTokenNum b) b.bs) pool) (hlen : loc.length = b.bs * draftTokenNum)
    (hloc : ∀ i < b.bs, ∀ j < draftTokenNum, loc.getD (i * draftTokenNum + j) 0 =
      slotAt b.allocator.pageSize (extendedPage draftTokenNum b pool) i (b.seqLens i + j)) :
    Extends draftTokenNum b a loc (extendedPage draftTokenNum b pool) := by
  have hperm := ht.allFree_perm
  have hnodup := hperm.nodup_iff.mpr hb.nodup
  obtain ⟨hn1, hn2, hdisj⟩ := nodup_append.mp hnodup
  have hfree : ∀ {i k : Nat}, i < b.bs → pageCount b.allocator.pageSize (b.seqLens i) ≤ k →
      k < pageCount b.allocator.pageSize (b.seqLens i + draftTokenNum) →
      extendedPage draftTokenNum b pool i k ∈ pool.take (offset (newPages draftTokenNum b) b.bs) := by
    intro i k hi hk hk'
    obtain ⟨hlt, he⟩ := extendedPage_new ht.le hi hk hk'
    rw [he]
    exact getElem_mem hlt
  refine ⟨ht.pageSize, ht.isNotInFreeGroup.trans hb.isNotInFreeGroup, hlen, hloc,
    fun i hi p hp => extendedPage_row draftTokenNum hb pool hi hp, ?_, ?_, hn2, ?_⟩
  · intro i hi k hlo hk j hj l hl he
    rcases lt_or_ge k (pageCount b.allocator.pageSize (b.seqLens i)) with hk0 | hk0
    · rcases lt_or_ge l (pageCount b.allocator.pageSize (b.seqLens j)) with hl0 | hl0
      · rw [extendedPage_old hk0, extendedPage_old hl0] at he
        exact hb.lastPage i hi k hlo hk0 j hj l hl0 he
      have hm := mem_append_left a.allFree (hfree hj hl0 hl)
      rw [← he, extendedPage_old hk0] at hm
      exact absurd (hperm.mem_iff.mp hm) (hb.used i hi k hk0)
    rcases lt_or_ge l (pageCount b.allocator.pageSize (b.seqLens j)) with hl0 | hl0
    · have hm := mem_append_left a.allFree (hfree hi hk0 hk)
      rw [he, extendedPage_old hl0] at hm
      exact absurd (hperm.mem_iff.mp hm) (hb.used j hj l hl0)
    -- two new blocks: the pool has no page twice
    obtain ⟨hlt, hek⟩ := extendedPage_new ht.le hi hk0 hk
    obtain ⟨hlt', hel⟩ := extendedPage_new ht.le hj hl0 hl
    rw [hek, hel] at he
    have hidx := (List.Nodup.getElem_inj_iff hn1).mp he
    obtain ⟨rfl, hkl⟩ := offset_inj (newPages draftTokenNum b) (sub_lt_newPages hk0 hk) (sub_lt_newPages hl0 hl) hidx
    exact ⟨rfl, by omega⟩
  · intro i hi k hk hm
    rcases lt_or_ge k (pageCount b.allocator.pageSize (b.seqLens i)) with hk0 | hk0
    · rw [extendedPage_old hk0] at hm
      exact hb.used i hi k hk0 (hperm.mem_iff.mp (mem_append_right _ hm))
    · exact hdisj _ (hfree hi hk0 hk) _ hm rfl
  · intro q hq
    rcases mem_append.mp (hperm.mem_iff.mpr hq) with hq | hq
    · obtain ⟨x, hx, rfl⟩ := getElem_of_mem hq
      have hx' : x < offset (newPages draftTokenNum b) b.bs := by
        rw [length_take] at hx
        omega
      obtain ⟨i, hi, k, hk, rfl⟩ := offset_split (newPages draftTokenNum b) hx'
      unfold newPages at hk
      refine .inr ⟨i, hi, pageCount b.allocator.pageSize (b.seqLens i) + k, by omega, by omega, ?_⟩
      obtain ⟨hlt, he⟩ := extendedPage_new ht.le hi (le_add_right _ k) (by omega)
      simp only [Nat.add_sub_cancel_left] at he
      exact he
    · exact .inl hq

theorem allocForVerify_extends (hb : PageConsistent b) {sched : Schedule} {loc : List Nat}
    (h : allocForVerify sched draftTokenNum b = (a, some loc)) : ∃ pg, Extends draftTokenNum b a loc pg := by
  unfold allocForVerify at h
  split at h
  · rename_i h1
    have hcount : ∀ n, pageCount b.allocator.pageSize n = n := by
      intro n
      rw [h1, pageCount, Nat.add_sub_cancel, Nat.div_one]
    have hnew : newPages draftTokenNum b = fun _ => draftTokenNum := by
      funext i
      rw [newPages, hcount, hcount, Nat.add_sub_cancel_left]
    obtain ⟨pool, ht, rfl⟩ := alloc_spec h
    have hlen : (pool.take (b.bs * draftTokenNum)).length = b.bs * draftTokenNum := length_take_of_le ht.le
    refine ⟨extendedPage draftTokenNum b pool, Extends.of_took hb (by rwa [hnew, offset_const]) hlen ?_⟩
    intro i hi j hj
    have hlt := flat_lt hi hj
    rw [h1, slotAt, Nat.div_one, Nat.mod_one, mul_one, add_zero, extendedPage, hcount, if_neg (by omega), hnew,
      offset_const, Nat.add_sub_cancel_left, getD_eq_getElem _ _ (by rwa [hlen]), getElem_take, getD_eq_getElem]
  rcases hext : b.allocator.allocExtend sched b.bs b.seqLens (fun i => b.seqLens i + draftTokenNum)
    (getLastLoc b.reqToToken b.reqPoolIndices b.seqLens) (b.bs * draftTokenNum) with ⟨a', _ | out⟩
  · rw [hext] at h
    cases h
  rw [hext] at h
  cases h
  have hnum : ∀ i < b.bs, b.seqLens i + draftTokenNum - b.seqLens i ≤ b.bs * draftTokenNum := by
    intro i hi
    rw [Nat.add_sub_cancel_left]
    exact Nat.le_mul_of_pos_left _ (by omega)
  obtain ⟨pool, ht, hout⟩ := allocExtend_spec hb.pageSize (fun i _ => le_add_right _ _) hnum hext
  refine ⟨extendedPage draftTokenNum b pool, Extends.of_took hb ht (by simp) ?_⟩
  intro i hi j hj
  have hlt := flat_lt hi hj
  have hij := hout i hi j (by rwa [Nat.add_sub_cancel_left])
  simp only [Nat.add_sub_cancel_left, offset_const] at hij
  rw [getD_eq_getElem _ _ (by simpa using hlt), getElem_map, getElem_range, hij]
  by_cases hold : b.seqLens i + j < pageCount b.allocator.pageSize (b.seqLens i) * b.allocator.pageSize
  · have hpc : 0 < pageCount b.allocator.pageSize (b.seqLens i) := by
      apply pos_of_ne_zero
      intro h0
      rw [h0] at hold
      omega
    have hpos : 0 < b.seqLens i := by
      have := (lt_pageCount hb.pageSize).mp hpc
      omega
    have hrow := extendedPage_row draftTokenNum hb pool hi (show b.seqLens i - 1 < b.seqLens i by omega)
    rw [extendSlot_old hold, getLastLoc, if_pos hpos, hrow, ← slotAt_continue hb.pageSize _ i hpos hold]
    omega
  · rw [extendSlot, if_neg hold, slotAt, extendedPage, if_neg]
    · rfl
    · rwa [div_lt_iff_lt_mul hb.pageSize]

end

end DynaSpec.Speculative.VerifyKv
