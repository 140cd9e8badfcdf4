/-
  DynaSpec.MemCache.Allocator — the KV slot allocators (srt/mem_cache/allocator.py):
  `TokenToKVPoolAllocator` for pages of one slot, `PagedTokenToKVPoolAllocator` otherwise.

  The slot at offset `o` of page `p` is `p * page_size + o`. `alloc_extend` continues the
  last page of each sequence and then takes pages from the front of the free list:
  `allocExtend_spec` says which slot each new token gets (`extendSlot`), and `alloc_spec`
  the same for pages of one slot. `free_perm` says what a call of `free` adds.
-/

import DynaSpec.Lib.Paged
import DynaSpec.Lib.Scatter
import Mathlib.Data.List.Dedup
import Mathlib.Data.List.Sort

namespace DynaSpec.MemCache

open DynaSpec.Lib List
open Nat (mod_lt zero_le)

variable {extendNumTokens x preLen : Nat} {pages l : List Nat} {a' : Allocator}

/-! ## The allocators -/

structure Allocator where
  pageSize : Nat
  needSort : Bool := false
  freePages : List Nat
  releasePages : List Nat := []
  isNotInFreeGroup : Bool := true
  freeGroup : List (List Nat) := []
  seenMaxNumExtendTokensNextPowerOf2 : Nat := 1

namespace Allocator

/-- `clear`: page 0 takes the writes of padded tokens. -/
def clear (pageSize numPages : Nat) (needSort : Bool) : Allocator :=
  { pageSize := pageSize, needSort := needSort, freePages := List.range' 1 numPages }

variable (a : Allocator)

def availableSize : Nat := (a.freePages.length + a.releasePages.length) * a.pageSize

def mergeAndSortFree : Allocator :=
  if 0 < a.releasePages.length then
    { a with freePages := (a.freePages ++ a.releasePages).insertionSort (· ≤ ·), releasePages := [] }
  else a

/-- `TokenToKVPoolAllocator.alloc`; `none` in place of the slots is the source's None. -/
def alloc (needSize : Nat) : Allocator × Option (List Nat) :=
  let a := if a.needSort && needSize > a.freePages.length then a.mergeAndSortFree else a
  if needSize > a.freePages.length then (a, none)
  else ({ a with freePages := a.freePages.drop needSize }, some (a.freePages.take needSize))

/-- `PagedTokenToKVPoolAllocator.alloc`: whole pages. -/
def allocPaged (needSize : Nat) : Allocator × Option (List Nat) :=
  let numPages := needSize / a.pageSize
  let a := if a.needSort && numPages > a.freePages.length then a.mergeAndSortFree else a
  if numPages > a.freePages.length then (a, none)
  else ({ a with freePages := a.freePages.drop numPages }, some (wholePages a.pageSize (a.freePages.take numPages)))

/-- `torch.unique`, which sorts. -/
def unique (l : List Nat) : List Nat := l.dedup.insertionSort (· ≤ ·)

def free (freeIndex : List Nat) : Allocator :=
  if freeIndex.isEmpty then a
  else if a.isNotInFreeGroup then
    if a.pageSize = 1 then
      if a.needSort then { a with releasePages := a.releasePages ++ freeIndex }
      else { a with freePages := a.freePages ++ freeIndex }
    else
      let freePageIndices := unique (freeIndex.map (· / a.pageSize))
      if a.needSort then { a with releasePages := freePageIndices ++ a.releasePages }
      else { a with freePages := freePageIndices ++ a.freePages }
  else { a with freeGroup := a.freeGroup ++ [freeIndex] }

def freeGroupBegin : Allocator := { a with isNotInFreeGroup := false, freeGroup := [] }

def freeGroupEnd : Allocator :=
  let a := { a with isNotInFreeGroup := true }
  if a.freeGroup.isEmpty then a else a.free a.freeGroup.flatten

/-- The writes of one block of `alloc_extend_kernel`. -/
def allocExtendWrites (pageSize bsUpper maxNumExtendTokens : Nat) (preLens seqLens : Nat → Nat) (lastLoc : Nat → Int)
    (freePages : List Nat) (pid : Nat) : List (Nat × Nat) :=
  let extendLens := fun j => seqLens j - preLens j
  let numNewPages := fun j => pageCount pageSize (seqLens j) - pageCount pageSize (preLens j)
  let seqLen := seqLens pid
  let preLen := preLens pid
  let outputStartLoc := maskedSum bsUpper (pid + 1) extendLens - extendLens pid
  let numPageStartLocSelf := numNewPages pid
  let newPageStartLoc := maskedSum bsUpper (pid + 1) numNewPages - numPageStartLocSelf
  -- part 1: the old partial page
  let numPart1 := min seqLen (pageCount pageSize preLen * pageSize) - preLen
  let part1 := (maskedArange pageSize numPart1).map fun o => (outputStartLoc + o, (lastLoc pid + 1 + o).toNat)
  if preLen + numPart1 = seqLen then part1
  else
    -- part 2: the new full pages
    let numPart2 := seqLen / pageSize * pageSize - pageCount pageSize preLen * pageSize
    let part2 := (maskedArange maxNumExtendTokens numPart2).map fun o =>
      (outputStartLoc + numPart1 + o, freePages.getD (newPageStartLoc + o / pageSize) 0 * pageSize + o % pageSize)
    if preLen + numPart1 + numPart2 = seqLen then part1 ++ part2
    else
      -- part 3: the new partial page
      let numPart3 := seqLen - seqLen / pageSize * pageSize
      let startLoc := freePages.getD (newPageStartLoc + numPageStartLocSelf - 1) 0
      let part3 := (maskedArange pageSize numPart3).map fun o =>
        (outputStartLoc + numPart1 + numPart2 + o, startLoc * pageSize + o)
      part1 ++ (part2 ++ part3)

/-- `get_num_new_pages` of an extend. -/
def getNumNewPages (pageSize bs : Nat) (prefixLens seqLens : Nat → Nat) : Nat :=
  offset (fun j => pageCount pageSize (seqLens j) - pageCount pageSize (prefixLens j)) bs

/-- `PagedTokenToKVPoolAllocator.alloc_extend`: the entries of the new tensor are all written. -/
def allocExtend (sched : Schedule) (bs : Nat) (prefixLens seqLens : Nat → Nat) (lastLoc : Nat → Int) (extendNumTokens : Nat)
    (a : Allocator) : Allocator × Option (Nat → Nat) :=
  let seenMax := max a.seenMaxNumExtendTokensNextPowerOf2 (nextPowerOf2 extendNumTokens)
  let a := { a with seenMaxNumExtendTokensNextPowerOf2 := seenMax }
  let a := if a.needSort && extendNumTokens / a.pageSize + bs + 1 > a.freePages.length then a.mergeAndSortFree else a
  let outIndices := scatter (fun _ => 0) ((sched.order bs).flatMap
    (allocExtendWrites a.pageSize (nextPowerOf2 bs) seenMax prefixLens seqLens lastLoc a.freePages))
  let numNewPages := getNumNewPages a.pageSize bs prefixLens seqLens
  if numNewPages > a.freePages.length then (a, none)
  else ({ a with freePages := a.freePages.drop numNewPages }, some outIndices)

/-! ## What an extend allocates -/

/-- The slot of the `k`-th new token of a sequence of `preLen` tokens: on its last page
    while that has room, then on the pages from `start` on. -/
def extendSlot (pageSize preLen : Nat) (lastLoc : Int) (freePages : List Nat) (start k : Nat) : Nat :=
  if preLen + k < pageCount pageSize preLen * pageSize then (lastLoc + 1 + k).toNat
  else freePages.getD (start + ((preLen + k) / pageSize - pageCount pageSize preLen)) 0 * pageSize + (preLen + k) % pageSize

variable {a : Allocator} {prefixLens seqLens : Nat → Nat} {pageSize : Nat} {lastLoc : Nat → Int} {freePages : List Nat}
  {sched : Schedule} {bs : Nat}

theorem extendSlot_old {lastLoc : Int} {start k : Nat} (h : preLen + k < pageCount pageSize preLen * pageSize) :
    extendSlot pageSize preLen lastLoc freePages start k = (lastLoc + 1 + k).toNat := if_pos h

/-- The token at offset `o` of the `n`-th new page. -/
theorem extendSlot_new {lastLoc : Int} {start k n o : Nat}
    (ho : o < pageSize) (h : preLen + k = (pageCount pageSize preLen + n) * pageSize + o) :
    extendSlot pageSize preLen lastLoc freePages start k = freePages.getD (start + n) 0 * pageSize + o := by
  have hps : 0 < pageSize := by omega
  have hnot : ¬ preLen + k < pageCount pageSize preLen * pageSize := by
    rw [h, add_mul]
    omega
  have hdiv : ((pageCount pageSize preLen + n) * pageSize + o) / pageSize = pageCount pageSize preLen + n := by
    rw [mul_comm, Nat.mul_add_div hps, Nat.div_eq_of_lt ho, add_zero]
  rw [extendSlot, if_neg hnot, h, hdiv, Nat.add_sub_cancel_left, mul_comm (_ + n), Nat.mul_add_mod, Nat.mod_eq_of_lt ho]

def Between (a b : Nat) (P : Nat → Prop) : Prop := ∃ k, a ≤ k ∧ k < b ∧ P k

theorem between_or {a b c : Nat} (hab : a ≤ b) (hbc : b ≤ c) (P : Nat → Prop) : (Between a b P ∨ Between b c P) ↔
    Between a c P := by
  constructor
  · intro h
    rcases h with ⟨k, h1, h2, h3⟩ | ⟨k, h1, h2, h3⟩
    · exact ⟨k, h1, lt_of_lt_of_le h2 hbc, h3⟩
    · exact ⟨k, le_trans hab h1, h2, h3⟩
  · intro ⟨k, h1, h2, h3⟩
    rcases lt_or_ge k b with hk | hk
    · exact .inl ⟨k, h1, hk, h3⟩
    · exact .inr ⟨k, hk, h2, h3⟩

/-- One of the parts that a block writes one after the other. -/
theorem mem_part (out base n : Nat) (val : Nat → Nat) {f : Nat → Nat × Nat} (hl : ∀ k, k ∈ l ↔ k < n)
    (hf : ∀ o < n, f o = (out + (base + o), val (base + o))) (w : Nat × Nat) :
    w ∈ l.map f ↔ Between base (base + n) fun k => w = (out + k, val k) := by
  simp only [mem_map, hl, Between]
  refine ⟨fun ⟨o, ho, e⟩ => ⟨base + o, by omega, by omega, by rw [← e, hf o ho]⟩, ?_⟩
  intro ⟨k, h1, h2, e⟩
  obtain ⟨o, rfl⟩ := Nat.exists_eq_add_of_le h1
  exact ⟨o, by omega, by rw [e, hf o (by omega)]⟩

theorem allocExtendWrites_spec {bsUpper maxNum : Nat} {preLens : Nat → Nat}
    {pid : Nat} (hps : 0 < pageSize) (hpid : pid < bsUpper) (hle : preLens pid ≤ seqLens pid)
    (hmax : seqLens pid - preLens pid ≤ maxNum) :
    Writes (allocExtendWrites pageSize bsUpper maxNum preLens seqLens lastLoc freePages pid) (seqLens pid - preLens pid)
      (fun k => offset (fun j => seqLens j - preLens j) pid + k)
      (extendSlot pageSize (preLens pid) (lastLoc pid) freePages
        (offset (fun j => pageCount pageSize (seqLens j) - pageCount pageSize (preLens j)) pid)) := by
  have hC := le_pageCount_mul hps (preLens pid)
  have hC' := pageCount_mul_lt hps (preLens pid)
  unfold allocExtendWrites
  simp only [maskedSum_eq (Nat.succ_le_of_lt hpid), offset_succ, Nat.add_sub_cancel]
  generalize offset (fun j => seqLens j - preLens j) pid = out
  generalize offset (fun j => pageCount pageSize (seqLens j) - pageCount pageSize (preLens j)) pid = start
  generalize seqLens pid = seqLen at *
  generalize preLens pid = preLen at *
  have hold : ∀ o < pageCount pageSize preLen * pageSize - preLen, ((out + o, (lastLoc pid + 1 + o).toNat) : Nat × Nat) =
      (out + (0 + o), extendSlot pageSize preLen (lastLoc pid) freePages start (0 + o)) := by
    intro o ho
    rw [zero_add, extendSlot_old (by omega)]
  obtain ⟨slot, hslot⟩ : ∃ slot, slot = extendSlot pageSize preLen (lastLoc pid) freePages start := ⟨_, rfl⟩
  rw [← hslot] at hold ⊢
  intro w
  show _ ↔ ∃ k < seqLen - preLen, w = (out + k, slot k)
  rw [show (∃ k < seqLen - preLen, w = (out + k, slot k)) ↔ Between 0 (seqLen - preLen) fun k => w = (out + k, slot k) by
    simp [Between]]
  by_cases h1 : seqLen ≤ pageCount pageSize preLen * pageSize
  · have hrange : seqLen - preLen ≤ pageSize := by omega
    have hpart1 := mem_part out 0 (seqLen - preLen) slot (fun k => mem_maskedArange hrange) (fun o ho => hold o (by omega)) w
    rw [min_eq_left h1, if_pos (by omega), hpart1, zero_add]
  have hCD : pageCount pageSize preLen ≤ seqLen / pageSize := (Nat.le_div_iff_mul_le hps).mpr (by omega)
  obtain ⟨m, hm⟩ := Nat.exists_eq_add_of_le hCD
  have hdm := Nat.div_add_mod' seqLen pageSize
  have hmod := mod_lt seqLen hps
  have hDC : seqLen / pageSize * pageSize = pageCount pageSize preLen * pageSize + m * pageSize := by
    rw [hm, add_mul]
  -- `n1` tokens fit on the old page, `n2` fill new pages
  obtain ⟨n1, hn1⟩ : ∃ n1, n1 = pageCount pageSize preLen * pageSize - preLen := ⟨_, rfl⟩
  obtain ⟨n2, hn2⟩ : ∃ n2, n2 = m * pageSize := ⟨_, rfl⟩
  have hr1 : n1 ≤ pageSize := by omega
  have hr2 : n2 ≤ maxNum := by omega
  rw [← hn1] at hold
  have hpart1 := mem_part out 0 n1 slot (fun k => mem_maskedArange hr1) hold w
  have hnew : ∀ o < n2, ((out + n1 + o, freePages.getD (start + o / pageSize) 0 * pageSize + o % pageSize) : Nat × Nat) =
      (out + (n1 + o), slot (n1 + o)) := by
    intro o _
    have hdo := Nat.div_add_mod' o pageSize
    have he : preLen + (n1 + o) = (pageCount pageSize preLen + o / pageSize) * pageSize + o % pageSize := by
      rw [add_mul]
      omega
    rw [hslot, extendSlot_new (mod_lt o hps) he, add_assoc]
  have hpart2 := mem_part out n1 n2 slot (fun k => mem_maskedArange hr2) hnew w
  have hjoin := between_or (zero_le n1) (Nat.le_add_right n1 n2) fun k => w = (out + k, slot k)
  rw [min_eq_right (by omega), if_neg (by omega), hDC, Nat.add_sub_cancel_left, ← hn1, ← hn2]
  by_cases h2 : seqLen % pageSize = 0
  · rw [if_pos (by omega), mem_append, hpart1, hpart2, zero_add, hjoin,
      show n1 + n2 = seqLen - preLen by omega]
  have hpc : pageCount pageSize seqLen = seqLen / pageSize + 1 := by
    apply le_antisymm
    · apply Nat.le_of_not_lt
      rw [lt_pageCount hps, Nat.succ_mul]
      omega
    · rw [Nat.succ_le_iff, lt_pageCount hps]
      omega
  obtain ⟨n3, hn3⟩ : ∃ n3, n3 = seqLen - (pageCount pageSize preLen * pageSize + n2) := ⟨_, rfl⟩
  have hr3 : n3 ≤ pageSize := by omega
  have hlast : ∀ o < n3, ((out + n1 + n2 + o,
      freePages.getD (start + (pageCount pageSize seqLen - pageCount pageSize preLen) - 1) 0 * pageSize + o) : Nat × Nat) =
      (out + (n1 + n2 + o), slot (n1 + n2 + o)) := by
    intro o ho
    have hpage : start + (pageCount pageSize seqLen - pageCount pageSize preLen) - 1 = start + m := by omega
    have he : preLen + (n1 + n2 + o) = (pageCount pageSize preLen + m) * pageSize + o := by
      rw [add_mul]
      omega
    rw [hslot, extendSlot_new (show o < pageSize by omega) he, hpage, add_assoc, add_assoc, add_assoc]
  have hpart3 := mem_part out (n1 + n2) n3 slot (fun k => mem_maskedArange hr3) hlast w
  have hjoin2 := between_or (Nat.le_add_right n1 n2) (Nat.le_add_right (n1 + n2) n3) fun k => w = (out + k, slot k)
  have hjoin3 := between_or (zero_le n1) (show n1 ≤ n1 + n2 + n3 by omega) fun k => w = (out + k, slot k)
  rw [if_neg (by omega), ← hn3, mem_append, mem_append, hpart1, hpart2, hpart3, zero_add, hjoin2, hjoin3,
    show n1 + n2 + n3 = seqLen - preLen by omega]

/-- Every free page. -/
def allFree (a : Allocator) : List Nat := a.freePages ++ a.releasePages

/-- What an allocation leaves: the pages it takes are the first `n` of `pool`. -/
structure Took (a a' : Allocator) (n : Nat) (pool : List Nat) : Prop where
  le : n ≤ pool.length
  perm : (pool ++ a'.releasePages).Perm a.allFree
  freePages : a'.freePages = pool.drop n
  pageSize : a'.pageSize = a.pageSize
  needSort : a'.needSort = a.needSort
  isNotInFreeGroup : a'.isNotInFreeGroup = a.isNotInFreeGroup
  freeGroup : a'.freeGroup = a.freeGroup

theorem Took.allFree_perm {n : Nat} {pool : List Nat} (h : Took a a' n pool) :
    (pool.take n ++ a'.allFree).Perm a.allFree := by
  rw [allFree, h.freePages, ← append_assoc, take_append_drop]
  exact h.perm

/-- Without the sorting of the released pages there are none. -/
def Merged (a : Allocator) : Prop := a.needSort = false → a.releasePages = []

/-- What is left to take from when the pages were sorted first, should the list of the free ones be
    shorter than `est`: whenever it is too short, it holds all pages. -/
structure Sorts (a : Allocator) (est : Nat) (b : Allocator) : Prop where
  took : Took a b 0 b.freePages
  merged : a.Merged → b.Merged
  short : a.Merged → ∀ {need}, need ≤ est → (b.freePages.length < need ↔ a.allFree.length < need)

theorem mergeIf_sorts (a : Allocator) (est : Nat) :
    Sorts a est (if a.needSort && est > a.freePages.length then a.mergeAndSortFree else a) := by
  by_cases hc : (a.needSort && decide (est > a.freePages.length)) = true
  · rw [if_pos hc, mergeAndSortFree]
    have hperm := perm_insertionSort (· ≤ ·) (a.freePages ++ a.releasePages)
    split
    · refine ⟨⟨zero_le _, by rwa [append_nil], rfl, rfl, rfl, rfl, rfl⟩, fun _ _ => rfl, fun _ _ _ => ?_⟩
      rw [hperm.length_eq, allFree]
    · refine ⟨⟨zero_le _, List.Perm.refl _, rfl, rfl, rfl, rfl, rfl⟩, id, fun _ _ _ => ?_⟩
      rw [allFree, length_append]
      omega
  rw [if_neg hc]
  refine ⟨⟨zero_le _, List.Perm.refl _, rfl, rfl, rfl, rfl, rfl⟩, id, fun hm need hle => ?_⟩
  rw [allFree, length_append]
  rcases Bool.eq_false_or_eq_true a.needSort with hs | hs
  · simp only [hs, Bool.true_and, decide_eq_true_eq] at hc
    omega
  · rw [hm hs, length_nil, add_zero]

theorem alloc_eq (a : Allocator) (needSize : Nat) : ∃ b, Sorts a needSize b ∧
    a.alloc needSize = if needSize > b.freePages.length then (b, none)
      else ({ b with freePages := b.freePages.drop needSize }, some (b.freePages.take needSize)) :=
  ⟨_, mergeIf_sorts a needSize, rfl⟩

theorem allocExtend_eq (a : Allocator) (sched : Schedule) (bs : Nat) (prefixLens seqLens : Nat → Nat) (lastLoc : Nat → Int)
    (extendNumTokens : Nat) : ∃ seenMax b, nextPowerOf2 extendNumTokens ≤ seenMax ∧
      Sorts { a with seenMaxNumExtendTokensNextPowerOf2 := seenMax } (extendNumTokens / a.pageSize + bs + 1) b ∧
      a.allocExtend sched bs prefixLens seqLens lastLoc extendNumTokens =
        if getNumNewPages a.pageSize bs prefixLens seqLens > b.freePages.length then (b, none)
        else ({ b with freePages := b.freePages.drop (getNumNewPages a.pageSize bs prefixLens seqLens) },
          some (scatter (fun _ => 0) ((sched.order bs).flatMap
            (allocExtendWrites a.pageSize (nextPowerOf2 bs) seenMax prefixLens seqLens lastLoc b.freePages)))) := by
  have hs := mergeIf_sorts
    { a with seenMaxNumExtendTokensNextPowerOf2 := max a.seenMaxNumExtendTokensNextPowerOf2 (nextPowerOf2 extendNumTokens) }
    (extendNumTokens / a.pageSize + bs + 1)
  refine ⟨_, _, le_max_right _ _, hs, ?_⟩
  unfold allocExtend
  dsimp only at hs ⊢
  rw [hs.took.pageSize]

theorem alloc_spec {needSize : Nat} {out : List Nat} (h : a.alloc needSize = (a', some out)) :
    ∃ pool, Took a a' needSize pool ∧ out = pool.take needSize := by
  obtain ⟨b, ⟨hm, -, -⟩, hb⟩ := alloc_eq a needSize
  rw [hb] at h
  split at h
  · cases h
  rename_i hle
  cases h
  exact ⟨b.freePages, ⟨Nat.le_of_not_lt hle, hm.perm, rfl, hm.pageSize, hm.needSort, hm.isNotInFreeGroup, hm.freeGroup⟩, rfl⟩

theorem allocExtend_spec {out : Nat → Nat} (hps : 0 < a.pageSize)
    (hle : ∀ i < bs, prefixLens i ≤ seqLens i) (hnum : ∀ i < bs, seqLens i - prefixLens i ≤ extendNumTokens)
    (h : a.allocExtend sched bs prefixLens seqLens lastLoc extendNumTokens = (a', some out)) :
    ∃ pool, Took a a' (getNumNewPages a.pageSize bs prefixLens seqLens) pool ∧
      ∀ i < bs, ∀ k < seqLens i - prefixLens i, out (offset (fun j => seqLens j - prefixLens j) i + k) =
        extendSlot a.pageSize (prefixLens i) (lastLoc i) pool
          (offset (fun j => pageCount a.pageSize (seqLens j) - pageCount a.pageSize (prefixLens j)) i) k := by
  obtain ⟨seenMax, b, hseen, ⟨hm, -, -⟩, hb⟩ := allocExtend_eq a sched bs prefixLens seqLens lastLoc extendNumTokens
  rw [hb] at h
  split at h
  · cases h
  rename_i hlen
  cases h
  refine ⟨b.freePages, ⟨Nat.le_of_not_lt hlen, hm.perm, rfl, hm.pageSize, hm.needSort, hm.isNotInFreeGroup, hm.freeGroup⟩, ?_⟩
  intro i hi k hk
  refine scatter_ragged (fun j => seqLens j - prefixLens j) (fun j => extendSlot a.pageSize (prefixLens j) (lastLoc j)
    b.freePages (offset (fun j => pageCount a.pageSize (seqLens j) - pageCount a.pageSize (prefixLens j)) j))
    (fun _ => 0) (fun j hj => ?_) (sched.mem.mpr hi) hk
  have hj := sched.mem.mp hj
  have hmax : seqLens j - prefixLens j ≤ seenMax := by
    have h1 := hnum j hj
    have h2 := le_nextPowerOf2 extendNumTokens
    omega
  exact allocExtendWrites_spec hps (lt_of_lt_of_le hj (le_nextPowerOf2 bs)) (hle j hj) hmax

/-! ## When an allocation fails -/

theorem alloc_merged (hm : a.Merged) (needSize : Nat) : (a.alloc needSize).1.Merged := by
  obtain ⟨b, hs, hb⟩ := alloc_eq a needSize
  rw [hb]
  split <;> exact hs.merged hm

theorem allocExtend_merged (hm : a.Merged) : (a.allocExtend sched bs prefixLens seqLens lastLoc extendNumTokens).1.Merged := by
  obtain ⟨seenMax, b, -, hs, hb⟩ := allocExtend_eq a sched bs prefixLens seqLens lastLoc extendNumTokens
  rw [hb]
  split <;> exact hs.merged hm

theorem snd_eq_none {α : Type} {p : Prop} [Decidable p] (a a' : Allocator) (x : α) :
    (if p then (a, none) else (a', some x)).2 = none ↔ p := by
  by_cases h : p <;> simp [h]

theorem alloc_eq_none (hm : a.Merged) (needSize : Nat) : (a.alloc needSize).2 = none ↔ a.allFree.length < needSize := by
  obtain ⟨b, hs, hb⟩ := alloc_eq a needSize
  rw [hb, snd_eq_none]
  exact hs.short hm (le_refl needSize)

theorem allocPaged_eq (a : Allocator) (needSize : Nat) :
    a.allocPaged needSize = ((a.alloc (needSize / a.pageSize)).1,
    (a.alloc (needSize / a.pageSize)).2.map (wholePages a.pageSize)) := by
  have hps := (mergeIf_sorts a (needSize / a.pageSize)).took.pageSize
  unfold allocPaged alloc
  dsimp only
  generalize (if (a.needSort && needSize / a.pageSize > a.freePages.length) = true then a.mergeAndSortFree else a) = b at hps ⊢
  split
  · rfl
  · rw [hps]
    rfl

theorem getNumNewPages_le (h : 0 < pageSize) (prefixLens seqLens : Nat → Nat) (bs : Nat) :
    getNumNewPages pageSize bs prefixLens seqLens ≤ offset (fun j => seqLens j - prefixLens j) bs / pageSize + bs := by
  induction bs with
  | zero => exact zero_le _
  | succ bs ih =>
    rw [getNumNewPages, offset_succ, offset_succ]
    rw [getNumNewPages] at ih
    have hdiv : offset (fun j => seqLens j - prefixLens j) bs / pageSize + (seqLens bs - prefixLens bs) / pageSize ≤
        (offset (fun j => seqLens j - prefixLens j) bs + (seqLens bs - prefixLens bs)) / pageSize := Nat.div_add_div_le_add_div
    have hone : pageCount pageSize (seqLens bs) - pageCount pageSize (prefixLens bs) ≤
      (seqLens bs - prefixLens bs) / pageSize + 1 := by
      refine Nat.sub_le_iff_le_add'.mpr (Nat.le_of_not_lt ?_)
      rw [lt_pageCount h, Nat.add_mul, Nat.succ_mul]
      have h1 := le_pageCount_mul h (prefixLens bs)
      have h2 := Nat.div_add_mod' (seqLens bs - prefixLens bs) pageSize
      have h3 := mod_lt (seqLens bs - prefixLens bs) h
      omega
    omega

theorem allocExtend_eq_none (hps : 0 < a.pageSize) (hm : a.Merged) :
    (a.allocExtend sched bs prefixLens seqLens lastLoc (offset (fun j => seqLens j - prefixLens j) bs)).2 = none ↔
      a.allFree.length < getNumNewPages a.pageSize bs prefixLens seqLens := by
  have hle := getNumNewPages_le hps prefixLens seqLens bs
  obtain ⟨seenMax, b, -, hs, hb⟩ := allocExtend_eq a sched bs prefixLens seqLens lastLoc
    (offset (fun j => seqLens j - prefixLens j) bs)
  rw [hb, snd_eq_none]
  exact hs.short hm (by omega)

/-! ## Freeing -/

theorem unique_nodup (l : List Nat) : (unique l).Nodup := (perm_insertionSort _ _).nodup_iff.mpr (nodup_dedup l)

@[simp] theorem mem_unique : x ∈ unique l ↔ x ∈ l := by
  rw [unique, (perm_insertionSort _ _).mem_iff, mem_dedup]

/-- The pages that a call of `free` gives back. -/
def pagesOf (pageSize : Nat) (freeIndex : List Nat) : List Nat :=
  if pageSize = 1 then freeIndex else unique (freeIndex.map (· / pageSize))

theorem mem_pagesOf {freeIndex : List Nat} : x ∈ pagesOf pageSize freeIndex ↔ ∃ i ∈ freeIndex, i / pageSize = x := by
  unfold pagesOf
  split
  · rename_i h
    simp [h]
  · simp

@[simp] theorem free_pageSize (a : Allocator) (freeIndex : List Nat) : (a.free freeIndex).pageSize = a.pageSize := by
  unfold free
  split_ifs <;> rfl

@[simp] theorem free_isNotInFreeGroup (a : Allocator) (freeIndex : List Nat) :
    (a.free freeIndex).isNotInFreeGroup = a.isNotInFreeGroup := by
  unfold free
  split_ifs <;> rfl

theorem free_perm (hg : a.isNotInFreeGroup = true) (freeIndex : List Nat) :
    (a.free freeIndex).allFree.Perm (pagesOf a.pageSize freeIndex ++ a.allFree) := by
  unfold free pagesOf
  by_cases hnil : freeIndex.isEmpty = true
  · obtain rfl : freeIndex = [] := isEmpty_iff.mp hnil
    simp [unique]
  rw [if_neg hnil, if_pos hg]
  by_cases h1 : a.pageSize = 1
  · rw [if_pos h1, if_pos h1]
    cases a.needSort
    · simp only [allFree, Bool.false_eq_true, if_false]
      rw [append_assoc]
      exact (perm_append_comm_assoc _ _ _)
    · simp only [allFree, if_true, ← append_assoc]
      rw [append_assoc freeIndex]
      exact perm_append_comm
  rw [if_neg h1, if_neg h1]
  cases a.needSort
  · simp [allFree]
  · simp only [allFree, if_true, ← append_assoc]
    exact List.Perm.append_right _ perm_append_comm

/-- What is given back with the slots of whole pages. -/
theorem pagesOf_wholePages (h : 0 < pageSize) (hnd : pages.Nodup) :
    (pagesOf pageSize (wholePages pageSize pages)).Perm pages := by
  by_cases h1 : pageSize = 1
  · rw [pagesOf, if_pos h1, h1, wholePages_one]
  refine (perm_ext_iff_of_nodup ?_ hnd).mpr fun x => ?_
  · rw [pagesOf, if_neg h1]
    exact unique_nodup _
  rw [mem_pagesOf]
  constructor
  · intro hx
    obtain ⟨i, hi, rfl⟩ := hx
    exact (mem_wholePages h).mp hi
  · intro hx
    refine ⟨x * pageSize, (mem_wholePages h).mpr ?_, Nat.mul_div_cancel x h⟩
    rwa [Nat.mul_div_cancel x h]

/-- What is given back with a part of the slots of whole pages: the pages that the part touches. -/
theorem pagesOf_slice (h : 0 < pageSize) (hnd : pages.Nodup) {a b : Nat} (hab : a < b)
    (hb : b ≤ (wholePages pageSize pages).length) :
    (pagesOf pageSize (((wholePages pageSize pages).take b).drop a)).Perm
    ((pages.take (pageCount pageSize b)).drop (a / pageSize)) := by
  by_cases h1 : pageSize = 1
  · subst h1
    rw [pagesOf, if_pos rfl, wholePages_one, Nat.div_one, show pageCount 1 b = b by simp [pageCount]]
  have hnd' : ((pages.take (pageCount pageSize b)).drop (a / pageSize)).Nodup :=
    hnd.sublist ((drop_sublist _ _).trans (take_sublist _ _))
  refine (perm_ext_iff_of_nodup ?_ hnd').mpr fun x => ?_
  · rw [pagesOf, if_neg h1]
    exact unique_nodup _
  rw [mem_pagesOf]
  constructor
  · intro hx
    obtain ⟨i, hi, rfl⟩ := hx
    obtain ⟨k, hk⟩ := mem_iff_getElem?.mp hi
    rw [getElem?_drop, getElem?_take] at hk
    split at hk
    · rename_i hlt
      rw [getElem?_wholePages h] at hk
      obtain ⟨p, hp, rfl⟩ := Option.map_eq_some_iff.mp hk
      rw [mul_comm, Nat.mul_add_div h, Nat.div_eq_of_lt (mod_lt _ h), add_zero]
      have hle : a / pageSize ≤ (a + k) / pageSize := Nat.div_le_div_right (Nat.le_add_right a k)
      refine mem_iff_getElem?.mpr ⟨(a + k) / pageSize - a / pageSize, ?_⟩
      rw [getElem?_drop, Nat.add_sub_cancel' hle, getElem?_take, if_pos (div_lt_pageCount h hlt)]
      exact hp
    · cases hk
  · intro hx
    obtain ⟨k, hk⟩ := mem_iff_getElem?.mp hx
    rw [getElem?_drop, getElem?_take] at hk
    split at hk
    · rename_i hlt
      -- the first position of the part that is on this page
      obtain ⟨j, hj⟩ : ∃ j, j = max a ((a / pageSize + k) * pageSize) := ⟨_, rfl⟩
      have hdm := Nat.div_add_mod' a pageSize
      have hmod := mod_lt a h
      have hlt' := (lt_pageCount h).mp hlt
      have hdiv : j / pageSize = a / pageSize + k := by
        rcases Nat.eq_zero_or_pos k with rfl | hk0
        · rw [hj, add_zero, max_eq_left (by omega)]
        rw [hj, max_eq_right, Nat.mul_div_cancel _ h]
        have := Nat.mul_le_mul_right pageSize hk0
        rw [add_mul]
        omega
      refine ⟨x * pageSize + j % pageSize, mem_iff_getElem?.mpr ⟨j - a, ?_⟩, ?_⟩
      · rw [getElem?_drop, Nat.add_sub_cancel' (by omega), getElem?_take, if_pos (by omega), getElem?_wholePages h, hdiv, hk]
        rfl
      · rw [mul_comm, Nat.mul_add_div h, Nat.div_eq_of_lt (mod_lt _ h), add_zero]
    · cases hk

theorem free_merged (hm : a.Merged) (freeIndex : List Nat) : (a.free freeIndex).Merged := by
  unfold free Merged
  split_ifs <;> first | exact hm | (intro hs; simp_all)

theorem foldl_free_group (hg : a.isNotInFreeGroup = false) (groups : List (List Nat)) :
    groups.foldl free a = { a with freeGroup := a.freeGroup ++ groups.filter fun l => !l.isEmpty } := by
  induction groups generalizing a with
  | nil => simp
  | cons l groups ih =>
    rw [foldl_cons, free]
    cases hl : l.isEmpty with
    | true => rw [if_pos rfl, ih hg, filter_cons, hl, if_neg (by decide)]
    | false =>
      have hrest := @ih { a with freeGroup := a.freeGroup ++ [l] } hg
      rw [if_neg (by decide), if_neg (by rw [hg]; decide), hrest, filter_cons, hl, if_pos (by decide), append_assoc,
        singleton_append]

/-- The frees of a group are one call of `free` at its end. -/
theorem freeGroup_spec (hm : a.Merged) (groups : List (List Nat)) :
    ((groups.foldl free a.freeGroupBegin).freeGroupEnd).allFree.Perm (pagesOf a.pageSize groups.flatten ++ a.allFree) ∧
      ((groups.foldl free a.freeGroupBegin).freeGroupEnd).pageSize = a.pageSize ∧
      ((groups.foldl free a.freeGroupBegin).freeGroupEnd).isNotInFreeGroup = true ∧
      ((groups.foldl free a.freeGroupBegin).freeGroupEnd).Merged := by
  rw [foldl_free_group rfl]
  unfold freeGroupEnd
  dsimp only [freeGroupBegin]
  rw [nil_append, flatten_filter_not_isEmpty]
  split
  · rename_i hempty
    have hflat : groups.flatten = [] := by
      rw [← flatten_filter_not_isEmpty, isEmpty_iff.mp hempty, flatten_nil]
    rw [hflat]
    refine ⟨?_, rfl, rfl, hm⟩
    rw [show pagesOf a.pageSize [] = [] by simp [pagesOf, unique], nil_append]
    exact List.Perm.refl _
  · refine ⟨free_perm rfl groups.flatten, free_pageSize _ _, free_isNotInFreeGroup _ _, free_merged ?_ groups.flatten⟩
    exact hm

end Allocator

end DynaSpec.MemCache
