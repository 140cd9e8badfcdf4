/-
  DynaSpec.Lib.Scatter — kernels that write what they computed from their inputs.

  A block of such a kernel is the list of its writes (an address and a value); a launch
  runs the blocks in any order (`Schedule`) and leaves memory as `scatter` does. When a block writes
  the cells `addr i 0, addr i 1, …` and no two blocks write different values to one
  cell, every cell has its value after the launch (`scatter_blocks`) and the other cells
  are as before (`scatter_frame`). `maskedArange` and `blockLoop` are the two ways a
  block ranges over a length that is known only when it runs; `maskedSum` is the prefix
  sum it computes by a masked load, whose masked lanes are taken to be zero.
-/

import DynaSpec.Lib.Grid
import Mathlib.Data.Nat.Size

namespace DynaSpec.Lib

open List Nat

/-! ## Writes -/

section
variable {ι α : Type} [DecidableEq ι]

def scatter (m : ι → α) (writes : List (ι × α)) : ι → α := writes.foldl (fun m w => upd m w.1 w.2) m

/-- A cell that nothing writes stays; a cell that is written has a value written to it. -/
theorem scatter_cases (m : ι → α) (ws : List (ι × α)) (a : ι) :
    (scatter m ws a = m a ∧ ∀ w ∈ ws, w.1 ≠ a) ∨ ∃ w ∈ ws, w.1 = a ∧ scatter m ws a = w.2 := by
  induction ws generalizing m with
  | nil => exact .inl ⟨rfl, by simp⟩
  | cons w ws ih =>
    rcases ih (upd m w.1 w.2) with ⟨hm, hne⟩ | ⟨w', hw', ha, hv⟩
    · by_cases h : a = w.1
      · refine .inr ⟨w, mem_cons_self, h.symm, ?_⟩
        show scatter (upd m w.1 w.2) ws a = w.2
        rw [hm, h, upd_same]
      refine .inl ⟨?_, ?_⟩
      · show scatter (upd m w.1 w.2) ws a = m a
        rw [hm, upd_ne m w.2 h]
      · intro w' hw'
        rcases mem_cons.mp hw' with rfl | hw'
        · exact fun e => h e.symm
        · exact hne w' hw'
    · exact .inr ⟨w', mem_cons_of_mem w hw', ha, hv⟩

theorem scatter_of_ne (m : ι → α) {ws : List (ι × α)} {a : ι} (h : ∀ w ∈ ws, w.1 ≠ a) : scatter m ws a = m a := by
  rcases scatter_cases m ws a with ⟨hm, -⟩ | ⟨w, hw, ha, -⟩
  · exact hm
  · exact absurd ha (h w hw)

/-- An indexed assignment with one value for each address. -/
theorem scatter_map (m : ι → α) {β : Type} {l : List β} {addr : β → ι} {val : β → α} {b : β} (hb : b ∈ l)
    (hone : ∀ c ∈ l, addr c = addr b → val c = val b) : scatter m (l.map fun c => (addr c, val c)) (addr b) = val b := by
  rcases scatter_cases m (l.map fun c => (addr c, val c)) (addr b) with ⟨-, hne⟩ | ⟨w, hw, ha, hv⟩
  · exact absurd rfl (hne _ (mem_map_of_mem hb))
  obtain ⟨c, hc, rfl⟩ := mem_map.mp hw
  exact hv.trans (hone c hc ha)

/-- A cell depends on its own value before the writes only. -/
theorem scatter_congr {m m' : ι → α} {a : ι} (h : m a = m' a) (ws : List (ι × α)) : scatter m ws a = scatter m' ws a := by
  induction ws generalizing m m' with
  | nil => exact h
  | cons w ws ih =>
    refine ih ?_
    simp only [upd]
    split
    · rfl
    · exact h

/-- Block `i` writes `size i` cells, `val i k` to the cell `addr i k`. -/
def Writes (writes : List (ι × α)) (n : Nat) (addr : Nat → ι) (val : Nat → α) : Prop :=
  ∀ w, w ∈ writes ↔ ∃ k < n, w = (addr k, val k)

variable {order : List Nat} {writes : Nat → List (ι × α)} (size : Nat → Nat) (addr : Nat → Nat → ι) (val : Nat → Nat → α)

theorem scatter_blocks (m : ι → α) (hw : ∀ i ∈ order, Writes (writes i) (size i) (addr i) (val i))
    (hone : ∀ i ∈ order, ∀ j ∈ order, ∀ k < size i, ∀ l < size j, addr i k = addr j l → val i k = val j l)
    {i k : Nat} (hi : i ∈ order) (hk : k < size i) : scatter m (order.flatMap writes) (addr i k) = val i k := by
  have hmem : (addr i k, val i k) ∈ order.flatMap writes := mem_flatMap.mpr ⟨i, hi, (hw i hi _).mpr ⟨k, hk, rfl⟩⟩
  rcases scatter_cases m (order.flatMap writes) (addr i k) with ⟨-, hne⟩ | ⟨w, hwm, ha, hv⟩
  · exact absurd rfl (hne _ hmem)
  obtain ⟨j, hj, hwj⟩ := mem_flatMap.mp hwm
  obtain ⟨l, hl, rfl⟩ := (hw j hj w).mp hwj
  rw [hv]
  exact (hone i hi j hj k hk l hl ha.symm).symm

theorem scatter_frame (m : ι → α) (hw : ∀ i ∈ order, Writes (writes i) (size i) (addr i) (val i)) {a : ι}
    (ha : ∀ i ∈ order, ∀ k < size i, addr i k ≠ a) : scatter m (order.flatMap writes) a = m a := by
  refine scatter_of_ne m fun w hwm => ?_
  obtain ⟨j, hj, hwj⟩ := mem_flatMap.mp hwm
  obtain ⟨l, hl, rfl⟩ := (hw j hj w).mp hwj
  exact ha j hj l hl

variable (m : ι → α) {n : Nat} {addr : Nat → ι} (val : Nat → α)

/-- An indexed assignment `m[addr] = val` with distinct addresses. -/
theorem scatter_range (hinj : ∀ f < n, ∀ g < n, addr f = addr g → f = g) {f : Nat} (hf : f < n) :
    scatter m ((range n).map fun f => (addr f, val f)) (addr f) = val f := by
  refine scatter_map m (mem_range.mpr hf) fun g hg h => ?_
  rw [hinj g (mem_range.mp hg) f hf h]

theorem scatter_range_frame {a : ι} (ha : ∀ f < n, addr f ≠ a) : scatter m ((range n).map fun f => (addr f, val f)) a = m a := by
  refine scatter_of_ne m fun w hw => ?_
  obtain ⟨g, hg, rfl⟩ := mem_map.mp hw
  exact ha g (mem_range.mp hg)

/-- A tensor whose blocks lie one after the other, with the sizes of the blocks. -/
theorem scatter_ragged {writes : Nat → List (Nat × α)} (size : Nat → Nat) (val : Nat → Nat → α) {order : List Nat}
    (m : Nat → α) (hw : ∀ i ∈ order, Writes (writes i) (size i) (fun k => offset size i + k) (val i)) {i k : Nat}
    (hi : i ∈ order) (hk : k < size i) : scatter m (order.flatMap writes) (offset size i + k) = val i k := by
  refine scatter_blocks size (fun i k => offset size i + k) val m hw ?_ hi hk
  intro i _ j _ k hk l hl h
  obtain ⟨rfl, rfl⟩ := offset_inj size hk hl h
  rfl

end

/-- The order in which the blocks of a launch run. -/
structure Schedule where
  order : Nat → List Nat
  perm : ∀ n, (order n).Perm (List.range n)

theorem Schedule.mem (sched : Schedule) {n i : Nat} : i ∈ sched.order n ↔ i < n :=
  ((sched.perm n).mem_iff).trans mem_range

def Schedule.inOrder : Schedule := ⟨List.range, fun _ => List.Perm.refl _⟩

/-! ## Ranges and sums of a block -/

/-- `1 << (n - 1).bit_length() if n > 0 else 1`. -/
def nextPowerOf2 (n : Nat) : Nat := if 0 < n then 2 ^ (n - 1).size else 1

theorem le_nextPowerOf2 (n : Nat) : n ≤ nextPowerOf2 n := by
  unfold nextPowerOf2
  split
  · have := lt_size_self (n - 1)
    omega
  · omega

/-- `arange(0, upper)` under the mask `offset < n`. -/
def maskedArange (upper n : Nat) : List Nat := (List.range upper).filter (· < n)

theorem mem_maskedArange {upper n k : Nat} (h : n ≤ upper) : k ∈ maskedArange upper n ↔ k < n := by
  simp only [maskedArange, mem_filter, mem_range, decide_eq_true_eq]
  omega

theorem maskedArange_eq {upper n : Nat} (h : n ≤ upper) : maskedArange upper n = range n := by
  obtain ⟨d, rfl⟩ := Nat.exists_eq_add_of_le h
  rw [maskedArange, range_add, filter_append, filter_eq_self.mpr, filter_eq_nil_iff.mpr, append_nil]
  · intro x hx
    obtain ⟨y, -, rfl⟩ := mem_map.mp hx
    simp
  · intro x hx
    simpa using mem_range.mp hx

/-- The offsets of a loop over blocks of `blockSize` under the mask `offset < n`. -/
def blockLoop (blockSize n : Nat) : List Nat :=
  (List.range ((n + blockSize - 1) / blockSize)).flatMap fun i =>
    ((List.range blockSize).map (i * blockSize + ·)).filter (· < n)

theorem mem_blockLoop {blockSize n k : Nat} (hb : 0 < blockSize) : k ∈ blockLoop blockSize n ↔ k < n := by
  simp only [blockLoop, mem_flatMap, mem_filter, mem_map, mem_range, decide_eq_true_eq]
  refine ⟨by rintro ⟨_, _, _, h⟩; exact h, fun h => ⟨k / blockSize, ?_, ⟨k % blockSize, mod_lt _ hb, ?_⟩, h⟩⟩
  · rw [div_lt_iff_lt_mul hb]
    have := div_add_mod (n + blockSize - 1) blockSize
    have := mod_lt (n + blockSize - 1) hb
    have e : (n + blockSize - 1) / blockSize * blockSize = blockSize * ((n + blockSize - 1) / blockSize) := mul_comm _ _
    omega
  · exact div_add_mod' k blockSize

/-- The writes of a masked range, or of a loop over blocks. -/
theorem Writes.of_range {ι α : Type} [DecidableEq ι] {l : List Nat} {n : Nat} (h : ∀ k, k ∈ l ↔ k < n) (addr : Nat → ι)
    (val : Nat → α) : Writes (l.map fun k => (addr k, val k)) n addr val := by
  intro w
  simp only [mem_map, h]
  exact ⟨fun ⟨k, hk, e⟩ => ⟨k, hk, e.symm⟩, fun ⟨k, hk, e⟩ => ⟨k, hk, e.symm⟩⟩

/-- `tl.sum` of a masked load of the first entries. -/
def maskedSum (upper n : Nat) (f : Nat → Nat) : Nat := ((List.range upper).map fun j => if j < n then f j else 0).sum

theorem maskedSum_eq {upper n : Nat} (h : n ≤ upper) (f : Nat → Nat) : maskedSum upper n f = offset f n := by
  induction upper with
  | zero =>
    obtain rfl : n = 0 := by omega
    rfl
  | succ upper ih =>
    have hstep : maskedSum (upper + 1) n f = maskedSum upper n f + if upper < n then f upper else 0 := by
      simp [maskedSum, range_succ]
    rw [hstep]
    by_cases hn : n ≤ upper
    · rw [if_neg (by omega), ih hn, add_zero]
    obtain rfl : n = upper + 1 := by omega
    have hall : maskedSum upper (upper + 1) f = offset f upper := by
      simp only [maskedSum, offset]
      congr 1
      apply map_congr_left
      intro j hj
      rw [if_pos (by have := mem_range.mp hj; omega)]
    rw [if_pos (by omega), hall, offset_succ]

end DynaSpec.Lib
