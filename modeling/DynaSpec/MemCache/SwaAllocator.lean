/-
  DynaSpec.MemCache.SwaAllocator — the allocator of a hybrid sliding-window KV cache,
  `SWATokenToKVPoolAllocator` (srt/mem_cache/allocator.py).

  It has an allocator of slots for each of the two pools and a mapping from full slots to
  sliding-window slots, where zero means none. `free_swa` gives back only the window's
  slots; frees inside a group are put off to its end; `restore_state` puts back the lists of
  free slots, not the mapping, which keeps entries of slots that are free again.

  A session is the allocator with the slots its callers hold. `Accounts` is the invariant:
  in each pool the free slots and the used ones are together all slots, each once, where the
  used slots of the window are those the mapping gives to the used full slots. The entries
  that a restore leaves behind do not matter because `alloc` overwrites them.

  - `swaAllocator_consistent`: what follows in every state of every run; no step raises.
-/

import DynaSpec.MemCache.Allocator

namespace DynaSpec.MemCache

open DynaSpec.Lib List

/-! ## The allocator -/

structure SwaAllocator where
  sizeFull : Nat
  sizeSwa : Nat
  fullAttnAllocator : Allocator
  swaAttnAllocator : Allocator
  fullToSwaIndexMapping : Nat → Nat := fun _ => 0
  isNotInFreeGroup : Bool := true
  freeGroup : List (List Nat) := []

/-- The lists of one allocator, as `backup_state` returns them. -/
structure FreeLists where
  freePages : List Nat
  releasePages : List Nat

def Allocator.backupState (a : Allocator) : FreeLists := ⟨a.freePages, a.releasePages⟩

def Allocator.restoreState (a : Allocator) (state : FreeLists) : Allocator :=
  { a with freePages := state.freePages, releasePages := state.releasePages }

namespace SwaAllocator

def clear (size sizeSwa : Nat) (needSort : Bool) : SwaAllocator where
  sizeFull := size
  sizeSwa := sizeSwa
  fullAttnAllocator := Allocator.clear 1 size needSort
  swaAttnAllocator := Allocator.clear 1 sizeSwa needSort

variable (a : SwaAllocator)

/-- The inner result is the source's None when the slots do not suffice; the outer one is
    `none` when an inner allocation fails after all, and the mapping is indexed by None. -/
def alloc (needSize : Nat) : Option (SwaAllocator × Option (List Nat)) :=
  if needSize > a.fullAttnAllocator.availableSize then some (a, none)
  else if needSize > a.swaAttnAllocator.availableSize then some (a, none)
  else
    match a.fullAttnAllocator.alloc needSize, a.swaAttnAllocator.alloc needSize with
    | (full, some allocFullIndices), (swa, some allocSwaIndices) =>
      some ({ a with
        fullAttnAllocator := full
        swaAttnAllocator := swa
        fullToSwaIndexMapping := scatter a.fullToSwaIndexMapping (allocFullIndices.zip allocSwaIndices) }, some allocFullIndices)
    | _, _ => none

def freeSwa (freeIndex : List Nat) : SwaAllocator :=
  let swaIndices := (freeIndex.map a.fullToSwaIndexMapping).filter (0 < ·)
  { a with
    swaAttnAllocator := a.swaAttnAllocator.free swaIndices
    fullToSwaIndexMapping := scatter a.fullToSwaIndexMapping (freeIndex.map fun i => (i, 0)) }

/-- `none` when one of the assertions fails. -/
def free (freeIndex : List Nat) : Option SwaAllocator :=
  if freeIndex.isEmpty then some a
  else
    let a :=
      if a.isNotInFreeGroup then freeSwa { a with fullAttnAllocator := a.fullAttnAllocator.free freeIndex } freeIndex
      else { a with freeGroup := a.freeGroup ++ [freeIndex] }
    if a.fullAttnAllocator.availableSize ≤ a.sizeFull ∧ a.swaAttnAllocator.availableSize ≤ a.sizeSwa then some a else none

def freeGroupBegin : SwaAllocator := { a with isNotInFreeGroup := false, freeGroup := [] }

/-- The group is kept until the next one begins. -/
def freeGroupEnd : Option SwaAllocator :=
  let a := { a with isNotInFreeGroup := true }
  if a.freeGroup.isEmpty then some a else a.free a.freeGroup.flatten

def backupState : FreeLists × FreeLists :=
  (a.fullAttnAllocator.backupState, a.swaAttnAllocator.backupState)

def restoreState (state : FreeLists × FreeLists) : SwaAllocator :=
  { a with
    fullAttnAllocator := a.fullAttnAllocator.restoreState state.1
    swaAttnAllocator := a.swaAttnAllocator.restoreState state.2 }

end SwaAllocator

/-! ## Sessions -/

/-- `allocated` are the slots handed out and not freed; `backup` the state that an open
    bracket will restore, with the slots that were allocated then. -/
structure SwaSession where
  allocator : SwaAllocator
  allocated : List Nat := []
  backup : Option ((FreeLists × FreeLists) × List Nat) := none

inductive SwaOp where
  | alloc (needSize : Nat)
  | free (freeIndex : List Nat)
  | freeSwa (freeIndex : List Nat)
  | freeGroupBegin
  | freeGroupEnd
  | backupState
  | restoreState

namespace SwaSession

/-- A call, `none` where the source raises. -/
def exec (s : SwaSession) : SwaOp → Option SwaSession
  | .alloc needSize => do
    let (allocator, out) ← s.allocator.alloc needSize
    some { s with allocator := allocator, allocated := out.getD [] ++ s.allocated }
  | .free freeIndex => do
    let allocator ← s.allocator.free freeIndex
    some { s with allocator := allocator, allocated := s.allocated.filter (· ∉ freeIndex) }
  | .freeSwa freeIndex => some { s with allocator := s.allocator.freeSwa freeIndex }
  | .freeGroupBegin => some { s with allocator := s.allocator.freeGroupBegin }
  | .freeGroupEnd => do
    let allocator ← s.allocator.freeGroupEnd
    some { s with allocator := allocator }
  | .backupState => some { s with backup := some (s.allocator.backupState, s.allocated) }
  | .restoreState => do
    let (state, allocated) ← s.backup
    some { s with allocator := s.allocator.restoreState state, allocated := allocated, backup := none }

/-- How callers use it: only allocated slots are freed, each once; groups and brackets are
    closed before the next is opened, and inside a bracket there are only allocations. -/
def Legal (s : SwaSession) : SwaOp → Prop
  | .alloc _ => True
  | .free freeIndex => s.backup = none ∧ freeIndex.Nodup ∧ ∀ i ∈ freeIndex, i ∈ s.allocated
  | .freeSwa freeIndex => s.backup = none ∧ freeIndex.Nodup ∧ ∀ i ∈ freeIndex, i ∈ s.allocated
  | .freeGroupBegin => s.backup = none ∧ s.allocator.isNotInFreeGroup = true
  | .freeGroupEnd => s.backup = none ∧ s.allocator.isNotInFreeGroup = false
  | .backupState => s.backup = none
  | .restoreState => s.backup.isSome

inductive Run (size sizeSwa : Nat) (needSort : Bool) : SwaSession → Prop
  | clear : Run size sizeSwa needSort { allocator := SwaAllocator.clear size sizeSwa needSort }
  | call {s s' : SwaSession} (op : SwaOp) : Run size sizeSwa needSort s → s.Legal op → s.exec op = some s' →
    Run size sizeSwa needSort s'

end SwaSession

/-! ## Accounts -/

/-- The window's slots that the mapping gives to the used full slots. -/
def image (mapping : Nat → Nat) (used : List Nat) : List Nat := (used.map mapping).filter (0 < ·)

structure Accounts (size sizeSwa : Nat) (fullFree swaFree : List Nat) (mapping : Nat → Nat) (used : List Nat) : Prop where
  full : (fullFree ++ used).Perm (List.range' 1 size)
  swa : (swaFree ++ image mapping used).Perm (List.range' 1 sizeSwa)

section
variable {size sizeSwa : Nat} {fullFree swaFree : List Nat} {mapping mapping' : Nat → Nat} {used used' : List Nat}

theorem image_perm (h : used'.Perm used) : (image mapping used').Perm (image mapping used) := (h.map mapping).filter _

theorem image_append (l m : List Nat) : image mapping (l ++ m) = image mapping l ++ image mapping m := by
  simp [image]

theorem image_congr (h : ∀ i ∈ used, mapping' i = mapping i) : image mapping' used = image mapping used := by
  rw [image, map_congr_left h, image]

theorem scatter_zeros {l : List Nat} {i : Nat} (h : i ∈ l) : scatter mapping (l.map fun i => (i, 0)) i = 0 :=
  scatter_map mapping h fun _ _ _ => rfl

/-- An indexed assignment with distinct indices reads back as its values. -/
theorem scatter_zip {keys vals : List Nat} (hn : keys.Nodup) (hl : keys.length = vals.length) :
    keys.map (scatter mapping (keys.zip vals)) = vals := by
  induction keys generalizing vals mapping with
  | nil =>
    cases vals with
    | nil => rfl
    | cons v vals => cases hl
  | cons k keys ih =>
    cases vals with
    | nil => cases hl
    | cons v vals =>
      obtain ⟨hk, hn⟩ := nodup_cons.mp hn
      have hkeep : scatter (upd mapping k v) (keys.zip vals) k = v := by
        rw [scatter_of_ne _ fun e he (hek : e.1 = k) => hk (hek ▸ (of_mem_zip he).1), upd_same]
      show scatter (upd mapping k v) (keys.zip vals) k :: keys.map (scatter (upd mapping k v) (keys.zip vals)) = v :: vals
      rw [hkeep, ih hn (by simpa using hl)]

namespace Accounts

section
variable (h : Accounts size sizeSwa fullFree swaFree mapping used)
include h

theorem perm (hp : used'.Perm used) : Accounts size sizeSwa fullFree swaFree mapping used' :=
  ⟨(List.Perm.append_left _ hp).trans h.full, (List.Perm.append_left _ (image_perm hp)).trans h.swa⟩

theorem nodup : (fullFree ++ used).Nodup :=
  h.full.nodup_iff.mpr (nodup_range' ..)

/-- Allocated slots are taken from both free lists and mapped to each other. -/
theorem take {out outSwa fullRest swaRest : List Nat}
    (hf : (out ++ fullRest).Perm fullFree) (hs : (outSwa ++ swaRest).Perm swaFree) (hl : out.length = outSwa.length) :
    Accounts size sizeSwa fullRest swaRest (scatter mapping (out.zip outSwa)) (out ++ used) := by
  have hfull : (out ++ fullRest ++ used).Perm (range' 1 size) := (List.Perm.append_right _ hf).trans h.full
  have hnd := hfull.nodup_iff.mpr (nodup_range' ..)
  have hout : out.Nodup := (nodup_append.mp (nodup_append.mp hnd).1).1
  have hdisj : ∀ i ∈ used, i ∉ out := fun i hi ho =>
    (nodup_append.mp hnd).2.2 i (mem_append_left _ ho) i hi rfl
  have hused : image (scatter mapping (out.zip outSwa)) used = image mapping used :=
    image_congr fun i hi => scatter_of_ne _ fun e he hei => hdisj i hi (hei ▸ (of_mem_zip he).1)
  have hswa : (outSwa ++ swaRest ++ image mapping used).Perm (range' 1 sizeSwa) := (List.Perm.append_right _ hs).trans h.swa
  have hpos : image (scatter mapping (out.zip outSwa)) out = outSwa := by
    rw [image, scatter_zip hout hl, filter_eq_self]
    intro w hw
    have hw := hswa.mem_iff.mp (mem_append_left _ (mem_append_left _ hw))
    have := (mem_range'_1.mp hw).1
    simp
    omega
  refine ⟨?_, ?_⟩
  · rw [← append_assoc]
    exact (List.Perm.append_right _ perm_append_comm).trans hfull
  · rw [image_append, hpos, hused, ← append_assoc]
    exact (List.Perm.append_right _ perm_append_comm).trans hswa

end

/-- The window's slots of `idx` are given back, and the mapping forgets them. -/
theorem releaseSwa {idx rest swaFree' : List Nat} (h : Accounts size sizeSwa fullFree swaFree mapping (idx ++ rest))
    (hs : swaFree'.Perm (image mapping idx ++ swaFree)) :
    Accounts size sizeSwa fullFree swaFree' (scatter mapping (idx.map fun i => (i, 0))) (idx ++ rest) := by
  have hdisj : ∀ i ∈ rest, i ∉ idx := fun i hi ho =>
    (nodup_append.mp (nodup_append.mp h.nodup).2.1).2.2 i ho i hi rfl
  have hidx : image (scatter mapping (idx.map fun i => (i, 0))) idx = [] := by
    rw [image, filter_eq_nil_iff]
    intro w hw
    obtain ⟨i, hi, rfl⟩ := mem_map.mp hw
    simp [scatter_zeros hi]
  have hrest : image (scatter mapping (idx.map fun i => (i, 0))) rest = image mapping rest := by
    refine image_congr fun i hi => scatter_of_ne _ fun e he hei => hdisj i hi ?_
    obtain ⟨j, hj, rfl⟩ := mem_map.mp he
    exact hei ▸ hj
  refine ⟨h.full, ?_⟩
  rw [image_append, hidx, hrest, nil_append]
  have hswa := h.swa
  rw [image_append] at hswa
  refine (List.Perm.append_right _ hs).trans (List.Perm.trans ?_ hswa)
  rw [append_assoc]
  exact (perm_append_comm_assoc _ _ _)

/-- Full slots that hold no slot of the window any more are given back. -/
theorem releaseFull {idx rest fullFree' : List Nat} (h : Accounts size sizeSwa fullFree swaFree mapping (idx ++ rest))
    (hf : fullFree'.Perm (idx ++ fullFree)) (hz : image mapping idx = []) :
    Accounts size sizeSwa fullFree' swaFree mapping rest := by
  refine ⟨?_, ?_⟩
  · refine (List.Perm.append_right _ hf).trans (List.Perm.trans ?_ h.full)
    rw [append_assoc]
    exact (perm_append_comm_assoc _ _ _)
  · have := h.swa
    rwa [image_append, hz, nil_append] at this

end Accounts

end

/-! ## The allocator of one pool -/

namespace Allocator
variable {a a' : Allocator}

/-- An allocator of single slots outside any group, as the two pools have it. -/
structure Plain (a : Allocator) : Prop where
  pageSize : a.pageSize = 1
  isNotInFreeGroup : a.isNotInFreeGroup = true
  release : a.needSort = false → a.releasePages = []

theorem Plain.availableSize (h : Plain a) : a.availableSize = a.allFree.length := by
  rw [Allocator.availableSize, h.pageSize, mul_one, allFree, length_append]

/-- An allocation of at most the available slots succeeds. -/
theorem Plain.alloc (h : Plain a) {n : Nat} (hn : n ≤ a.availableSize) :
    ∃ a' out, a.alloc n = (a', some out) ∧ Plain a' ∧ a'.needSort = a.needSort ∧ (out ++ a'.allFree).Perm a.allFree ∧
    out.length = n := by
  rw [h.availableSize, allFree, length_append] at hn
  have hsome : ∃ a' out, a.alloc n = (a', some out) ∧ (a'.needSort = false → a'.releasePages = []) := by
    unfold Allocator.alloc mergeAndSortFree
    cases hs : a.needSort with
    | false =>
      have hr := h.release hs
      rw [hr, length_nil, add_zero] at hn
      simp only [Bool.false_and, Bool.false_eq_true, if_false]
      rw [if_neg (by omega)]
      exact ⟨_, _, rfl, fun _ => hr⟩
    | true =>
      simp only [Bool.true_and, gt_iff_lt, decide_eq_true_eq]
      by_cases hlt : a.freePages.length < n
      · have hfits : ¬ ((a.freePages ++ a.releasePages).insertionSort (· ≤ ·)).length < n := by
          rw [length_insertionSort, length_append]
          omega
        simp only [if_pos hlt, if_pos (show 0 < a.releasePages.length by omega), if_neg hfits]
        exact ⟨_, _, rfl, fun _ => rfl⟩
      · rw [if_neg hlt, if_neg hlt]
        exact ⟨_, _, rfl, fun he => absurd (hs.symm.trans he) (by decide)⟩
  obtain ⟨a', out, ha, hr⟩ := hsome
  obtain ⟨pool, htook, rfl⟩ := alloc_spec ha
  refine ⟨a', _, ha, ⟨htook.pageSize.trans h.pageSize, htook.isNotInFreeGroup.trans h.isNotInFreeGroup, hr⟩, htook.needSort,
    htook.allFree_perm, ?_⟩
  rw [length_take, min_eq_left htook.le]

theorem Plain.free (h : Plain a) (idx : List Nat) : Plain (a.free idx) ∧ (a.free idx).allFree.Perm (idx ++ a.allFree) := by
  have hperm := free_perm h.isNotInFreeGroup idx
  rw [pagesOf, if_pos h.pageSize] at hperm
  refine ⟨⟨(free_pageSize a idx).trans h.pageSize, (free_isNotInFreeGroup a idx).trans h.isNotInFreeGroup, ?_⟩, hperm⟩
  unfold Allocator.free
  rw [if_pos h.isNotInFreeGroup, if_pos h.pageSize]
  cases hs : a.needSort with
  | false =>
    intro _
    split
    · exact h.release hs
    · exact h.release hs
  | true =>
    rw [if_pos rfl]
    intro he
    split at he
    · cases hs.symm.trans he
    · cases he

end Allocator

/-! ## Steps -/

namespace SwaAllocator

/-- The slots whose free is put off. -/
def deferred (a : SwaAllocator) : List Nat := if a.isNotInFreeGroup then [] else a.freeGroup.flatten

/-- The allocator with `used` slots out. -/
structure Sound (size sizeSwa : Nat) (a : SwaAllocator) (used : List Nat) : Prop where
  sizes : a.sizeFull = size ∧ a.sizeSwa = sizeSwa
  full : a.fullAttnAllocator.Plain
  swa : a.swaAttnAllocator.Plain
  accounts : Accounts size sizeSwa a.fullAttnAllocator.allFree a.swaAttnAllocator.allFree a.fullToSwaIndexMapping used

namespace Sound
variable {size sizeSwa : Nat} {a : SwaAllocator} {used idx rest : List Nat}

theorem perm (h : Sound size sizeSwa a used) {used' : List Nat} (hp : used'.Perm used) : Sound size sizeSwa a used' :=
  ⟨h.sizes, h.full, h.swa, h.accounts.perm hp⟩

/-- An allocation either changes nothing or takes free slots and maps them. -/
theorem alloc (h : Sound size sizeSwa a used) (n : Nat) : a.alloc n = some (a, none) ∨ ∃ full swa out outSwa,
      let a' := { a with
        fullAttnAllocator := full
        swaAttnAllocator := swa
        fullToSwaIndexMapping := scatter a.fullToSwaIndexMapping (out.zip outSwa) }
      a.alloc n = some (a', some out) ∧ Sound size sizeSwa a' (out ++ used) ∧ (∀ i ∈ out, i ∉ used) ∧
        full.needSort = a.fullAttnAllocator.needSort ∧ swa.needSort = a.swaAttnAllocator.needSort := by
  unfold SwaAllocator.alloc
  by_cases h1 : n > a.fullAttnAllocator.availableSize
  · exact .inl (if_pos h1)
  by_cases h2 : n > a.swaAttnAllocator.availableSize
  · exact .inl (by rw [if_neg h1, if_pos h2])
  obtain ⟨full, out, hf, hpf, hnf, hperm, hlen⟩ := h.full.alloc (Nat.le_of_not_lt h1)
  obtain ⟨swa, outSwa, hs, hps, hns, hperm', hlen'⟩ := h.swa.alloc (Nat.le_of_not_lt h2)
  refine .inr ⟨full, swa, out, outSwa, ?_, ⟨h.sizes, hpf, hps, h.accounts.take hperm hperm' (hlen.trans hlen'.symm)⟩, ?_,
    hnf, hns⟩
  · rw [if_neg h1, if_neg h2, hf, hs]
  · intro i hi hu
    exact (nodup_append.mp h.accounts.nodup).2.2 i (hperm.mem_iff.mp (mem_append_left _ hi)) i hu rfl

theorem freeSwa (h : Sound size sizeSwa a (idx ++ rest)) : Sound size sizeSwa (a.freeSwa idx) (idx ++ rest) :=
  have hfree := h.swa.free ((idx.map a.fullToSwaIndexMapping).filter (0 < ·))
  ⟨h.sizes, h.full, hfree.1, h.accounts.releaseSwa hfree.2⟩

/-- What `free` asserts. -/
theorem availableSize_le (h : Sound size sizeSwa a used) :
    a.fullAttnAllocator.availableSize ≤ a.sizeFull ∧ a.swaAttnAllocator.availableSize ≤ a.sizeSwa := by
  have hfull := h.accounts.full.length_eq
  have hswa := h.accounts.swa.length_eq
  rw [length_append, length_range'] at hfull hswa
  rw [h.full.availableSize, h.swa.availableSize, h.sizes.1, h.sizes.2]
  omega

/-- Outside a group the slots of both pools come back. -/
theorem free (h : Sound size sizeSwa a (idx ++ rest)) (hg : a.isNotInFreeGroup = true) :
    ∃ a', a.free idx = some a' ∧ Sound size sizeSwa a' rest ∧ a'.isNotInFreeGroup = true := by
  unfold SwaAllocator.free
  by_cases hnil : idx.isEmpty = true
  · rw [if_pos hnil]
    rw [isEmpty_iff.mp hnil] at h
    exact ⟨a, rfl, h, hg⟩
  have hfree := h.full.free idx
  have hswa := h.freeSwa
  obtain ⟨a', ha'⟩ : ∃ a', a' = SwaAllocator.freeSwa { a with fullAttnAllocator := a.fullAttnAllocator.free idx } idx := ⟨_, rfl⟩
  have hsound : Sound size sizeSwa a' rest := by
    have hz : image (a.freeSwa idx).fullToSwaIndexMapping idx = [] := by
      rw [image, filter_eq_nil_iff]
      intro w hw
      obtain ⟨i, hi, rfl⟩ := mem_map.mp hw
      have : (a.freeSwa idx).fullToSwaIndexMapping i = 0 := scatter_zeros hi
      simp [this]
    rw [ha']
    exact ⟨h.sizes, hfree.1, hswa.swa, hswa.accounts.releaseFull hfree.2 hz⟩
  refine ⟨a', ?_, hsound, ?_⟩
  · rw [if_neg hnil, if_pos hg, ← ha']
    exact if_pos hsound.availableSize_le
  · rw [ha']
    exact hg

end Sound

end SwaAllocator

namespace SwaSession
variable {size sizeSwa : Nat} {s s' : SwaSession}

open SwaAllocator

/-- What holds between calls; an open bracket can be restored. -/
structure Inv (size sizeSwa : Nat) (s : SwaSession) : Prop where
  sound : Sound size sizeSwa s.allocator (s.allocated ++ s.allocator.deferred)
  backup : ∀ state allocated, s.backup = some (state, allocated) →
    Sound size sizeSwa (s.allocator.restoreState state) (allocated ++ s.allocator.deferred) ∧ ∀ i ∈ allocated, i ∈ s.allocated

/-- Freed slots leave the list of the allocated ones. -/
theorem freed_perm {l idx : List Nat} (hl : l.Nodup) (hn : idx.Nodup) (hsub : ∀ i ∈ idx, i ∈ l) :
    (idx ++ l.filter (· ∉ idx)).Perm l := by
  rw [← hl.sdiff_eq_filter]
  exact subperm_append_diff_self_of_count_le (subperm_ext_iff.mp (subperm_of_subset hn hsub))

theorem Inv.allocated_nodup (h : Inv size sizeSwa s) : s.allocated.Nodup :=
  (nodup_append.mp (nodup_append.mp h.sound.accounts.nodup).2.1).1

theorem Inv.freed_perm (h : Inv size sizeSwa s) {idx : List Nat} (hn : idx.Nodup) (hsub : ∀ i ∈ idx, i ∈ s.allocated) :
    (idx ++ (s.allocated.filter (· ∉ idx) ++ s.allocator.deferred)).Perm (s.allocated ++ s.allocator.deferred) := by
  rw [← append_assoc]
  exact List.Perm.append_right _ (SwaSession.freed_perm h.allocated_nodup hn hsub)

theorem Inv.of_sound (hb : s.backup = none) (h : Sound size sizeSwa s.allocator (s.allocated ++ s.allocator.deferred)) :
    Inv size sizeSwa s :=
  ⟨h, fun _ _ he => by rw [hb] at he; cases he⟩

theorem exec_inv (h : Inv size sizeSwa s) {op : SwaOp} (hop : s.Legal op) : ∃ s', s.exec op = some s' ∧ Inv size sizeSwa s' := by
  cases op with
  | alloc n =>
    rcases h.sound.alloc n with ha | ⟨full, swa, out, outSwa, ha, hsound, hout, hnf, hns⟩
    · exact ⟨s, by simp [exec, ha], h⟩
    refine ⟨_, by rw [exec, ha]; rfl, ?_, fun state allocated hb => ?_⟩
    · exact hsound.perm (by rw [Option.getD_some, append_assoc]; exact List.Perm.refl _)
    obtain ⟨hrestore, hsub⟩ := h.backup state allocated hb
    refine ⟨⟨hrestore.sizes, ?_, ?_, ?_⟩, fun i hi => mem_append_right _ (hsub i hi)⟩
    · exact ⟨hsound.full.pageSize, hsound.full.isNotInFreeGroup, fun he => hrestore.full.release (hnf.symm.trans he)⟩
    · exact ⟨hsound.swa.pageSize, hsound.swa.isNotInFreeGroup, fun he => hrestore.swa.release (hns.symm.trans he)⟩
    -- the mapping has changed only at slots that were free
    have hkeep : image (scatter s.allocator.fullToSwaIndexMapping (out.zip outSwa)) (allocated ++ s.allocator.deferred) =
        image s.allocator.fullToSwaIndexMapping (allocated ++ s.allocator.deferred) := by
      refine image_congr fun i hi => scatter_of_ne _ fun e he hei => ?_
      refine hout i (hei ▸ (of_mem_zip he).1) ?_
      exact mem_append.mpr ((mem_append.mp hi).imp_left (hsub i))
    refine ⟨hrestore.accounts.full, ?_⟩
    have hswa := hrestore.accounts.swa
    rw [show (s.allocator.restoreState state).fullToSwaIndexMapping = s.allocator.fullToSwaIndexMapping from rfl, ← hkeep] at hswa
    exact hswa
  | free idx =>
    obtain ⟨hb, hn, hsub⟩ := hop
    have hused := h.freed_perm hn hsub
    by_cases hg : s.allocator.isNotInFreeGroup = true
    · obtain ⟨a', ha, hsound, hg'⟩ := (h.sound.perm hused).free hg
      have hd : a'.deferred = s.allocator.deferred := by rw [deferred, deferred, if_pos hg', if_pos hg]
      refine ⟨{ s with allocator := a', allocated := s.allocated.filter (· ∉ idx) }, by rw [exec, ha]; rfl, .of_sound hb ?_⟩
      show Sound size sizeSwa a' (s.allocated.filter (· ∉ idx) ++ a'.deferred)
      rw [hd]
      exact hsound
    rcases eq_nil_or_concat idx with rfl | ⟨_, _, hne⟩
    · exact ⟨_, rfl, .of_sound hb (by simpa using h.sound)⟩
    -- inside a group the slots stay out until its end
    have hne : ¬ idx.isEmpty = true := by rw [hne]; simp
    refine ⟨_, by rw [exec, free, if_neg hne, if_neg hg, if_pos h.sound.availableSize_le]; rfl, .of_sound (by exact hb) ?_⟩
    have hp : (s.allocated.filter (· ∉ idx) ++ deferred { s.allocator with freeGroup := s.allocator.freeGroup ++ [idx] }).Perm
        (s.allocated ++ s.allocator.deferred) := by
      refine List.Perm.trans ?_ hused
      rw [deferred, deferred, if_neg hg, if_neg hg, flatten_append, flatten_singleton, ← append_assoc]
      exact perm_append_comm
    exact ⟨h.sound.sizes, h.sound.full, h.sound.swa, h.sound.accounts.perm hp⟩
  | freeSwa idx =>
    obtain ⟨hb, hn, hsub⟩ := hop
    have hused := h.freed_perm hn hsub
    exact ⟨_, rfl, .of_sound hb ((h.sound.perm hused).freeSwa.perm hused.symm)⟩
  | freeGroupBegin =>
    obtain ⟨hb, hg⟩ := hop
    have hsound := h.sound
    rw [deferred, if_pos hg] at hsound
    exact ⟨_, rfl, .of_sound hb ⟨hsound.sizes, hsound.full, hsound.swa, hsound.accounts⟩⟩
  | freeGroupEnd =>
    obtain ⟨hb, hg⟩ := hop
    have hsound := h.sound
    rw [deferred, if_neg (by rw [hg]; decide)] at hsound
    obtain ⟨b, hbdef⟩ : ∃ b, b = { s.allocator with isNotInFreeGroup := true } := ⟨_, rfl⟩
    have hsb : Sound size sizeSwa b (s.allocator.freeGroup.flatten ++ s.allocated) := by
      have hp := hsound.perm (@List.perm_append_comm _ s.allocator.freeGroup.flatten s.allocated)
      rw [hbdef]
      exact ⟨hp.sizes, hp.full, hp.swa, hp.accounts⟩
    obtain ⟨a', ha, hsound', hg'⟩ := hsb.free (by rw [hbdef])
    have hend : s.allocator.freeGroupEnd = some a' := by
      rw [freeGroupEnd, ← hbdef]
      by_cases hnil : b.freeGroup.isEmpty = true
      · have hfg : s.allocator.freeGroup = [] := by
          rw [hbdef] at hnil
          exact isEmpty_iff.mp hnil
        rw [hfg] at ha
        rw [if_pos hnil, ← ha]
        rfl
      · rw [if_neg hnil, ← ha, hbdef]
    refine ⟨{ s with allocator := a' }, by rw [exec, hend]; rfl, .of_sound hb ?_⟩
    show Sound size sizeSwa a' (s.allocated ++ a'.deferred)
    rw [deferred, if_pos hg', append_nil]
    exact hsound'
  | backupState =>
    refine ⟨_, rfl, h.sound, fun state allocated he => ?_⟩
    cases he
    exact ⟨h.sound, fun _ hi => hi⟩
  | restoreState =>
    obtain ⟨⟨state, allocated⟩, hb⟩ := Option.isSome_iff_exists.mp hop
    refine ⟨_, by rw [exec, hb]; rfl, .of_sound rfl (h.backup state allocated hb).1⟩

theorem clear_inv (size sizeSwa : Nat) (needSort : Bool) : Inv size sizeSwa { allocator := clear size sizeSwa needSort } := by
  refine ⟨⟨⟨rfl, rfl⟩, ⟨rfl, rfl, fun _ => rfl⟩, ⟨rfl, rfl, fun _ => rfl⟩, ?_⟩, nofun⟩
  constructor
  · simp [clear, Allocator.clear, Allocator.allFree, deferred]
  · simp [clear, Allocator.clear, Allocator.allFree, deferred, image]

theorem Run.inv {needSort : Bool} (h : Run size sizeSwa needSort s) : Inv size sizeSwa s := by
  induction h with
  | clear => exact clear_inv size sizeSwa needSort
  | call op _ hop hs ih =>
    obtain ⟨s1, h1, hi⟩ := exec_inv ih hop
    rw [hs] at h1
    cases h1
    exact hi

/-! ## Consistency -/

/-- The full slots that are out: handed out and not freed, or freed in a group that is still open. -/
def slotsOut (s : SwaSession) : List Nat := s.allocated ++ s.allocator.deferred

/-- In each pool the free slots and those that are out are all slots, each once; the slots of the window
    that are out are those that the mapping gives to full slots, no two of them the same. -/
structure Consistent (size sizeSwa : Nat) (s : SwaSession) : Prop where
  full : (s.allocator.fullAttnAllocator.allFree ++ s.slotsOut).Perm (range' 1 size)
  swa : (s.allocator.swaAttnAllocator.allFree ++ image s.allocator.fullToSwaIndexMapping s.slotsOut).Perm (range' 1 sizeSwa)
  injective : ∀ i ∈ s.slotsOut, ∀ j ∈ s.slotsOut, s.allocator.fullToSwaIndexMapping i ≠ 0 →
    s.allocator.fullToSwaIndexMapping i = s.allocator.fullToSwaIndexMapping j → i = j
  fullCount : s.allocator.fullAttnAllocator.availableSize + s.slotsOut.length = size
  swaCount : s.allocator.swaAttnAllocator.availableSize + (image s.allocator.fullToSwaIndexMapping s.slotsOut).length = sizeSwa

theorem Inv.consistent (h : Inv size sizeSwa s) : Consistent size sizeSwa s := by
  have hacc := h.sound.accounts
  refine ⟨hacc.full, hacc.swa, fun i hi j hj hne he => ?_, ?_, ?_⟩
  · have hnodup := (nodup_append.mp (hacc.swa.nodup_iff.mpr (nodup_range' ..))).2.1
    rw [image, filter_map] at hnodup
    have hmem : ∀ k ∈ s.slotsOut, s.allocator.fullToSwaIndexMapping k ≠ 0 →
        k ∈ s.slotsOut.filter ((0 < ·) ∘ s.allocator.fullToSwaIndexMapping) := fun k hk hk0 =>
      mem_filter.mpr ⟨hk, by simpa using Nat.pos_of_ne_zero hk0⟩
    exact inj_on_of_nodup_map hnodup (hmem i hi hne) (hmem j hj (he ▸ hne)) he
  · have := hacc.full.length_eq
    rwa [length_append, length_range', ← h.sound.full.availableSize] at this
  · have := hacc.swa.length_eq
    rwa [length_append, length_range', ← h.sound.swa.availableSize] at this

/-- In every state of every run the two pools and the mapping agree, and every call that is
    used as intended succeeds. -/
theorem swaAllocator_consistent {needSort : Bool} (h : Run size sizeSwa needSort s) :
    Consistent size sizeSwa s ∧ ∀ op, s.Legal op → ∃ s', s.exec op = some s' := by
  refine ⟨h.inv.consistent, fun op hop => ?_⟩
  obtain ⟨s', hs, -⟩ := exec_inv h.inv hop
  exact ⟨s', hs⟩

/-- A slot of the window is freed early, and a bracket leaves an entry of the mapping behind. -/
theorem swaAllocator_consistent_bracket : ∃ s : SwaSession, s.allocator.fullToSwaIndexMapping 3 = 3 ∧ s.allocated = [2] ∧
    Run 3 3 false s ∧ Consistent 3 3 s := by
  have h0 : Run 3 3 false _ := Run.clear
  have h1 := Run.call (.alloc 2) h0 trivial rfl
  have h2 := Run.call (.freeSwa [1]) h1 ⟨rfl, by decide, by decide⟩ rfl
  have h3 := Run.call .backupState h2 rfl rfl
  have h4 := Run.call (.alloc 1) h3 trivial rfl
  have h5 := Run.call .restoreState h4 rfl rfl
  have h6 := Run.call (.free [1]) h5 ⟨rfl, by decide, by decide⟩ rfl
  exact ⟨_, rfl, rfl, h6, (swaAllocator_consistent h6).1⟩

end SwaSession

end DynaSpec.MemCache
