/-
  DynaSpec.Lib.Grid — flat memory as a function of the index, and a grid launch.

  A launch runs one program per block. The blocks run in any order; each touches only
  its own cells. `Agree i s t` says that `s` and `t` hold the same in the cells of
  block `i`. When no block writes a cell of another and each block's result depends on
  its own cells only (`Independent`), a launch in any order leaves every block's cells
  as that block alone would have (`launch_own`), so a kernel is read one block at a time.
-/

import Mathlib.Data.List.GetD
import Mathlib.Data.List.Nodup
import Mathlib.Tactic.NormNum

namespace DynaSpec.Lib

open List Nat

/-! ## Memory -/

/-- An integer tensor's storage. -/
abbrev Mem := Int → Int

def upd {ι α : Type} [DecidableEq ι] (f : ι → α) (i : ι) (v : α) : ι → α := fun j => if j = i then v else f j

section
variable {ι α : Type} [DecidableEq ι]

@[simp] theorem upd_same (f : ι → α) (i : ι) (v : α) : upd f i v i = v := by simp [upd]

@[simp] theorem upd_self (f : ι → α) (i : ι) : upd f i (f i) = f := by
  funext j
  by_cases h : j = i
  · rw [h, upd, if_pos rfl]
  · rw [upd, if_neg h]

@[simp] theorem upd_ne (f : ι → α) {i j : ι} (v : α) (h : j ≠ i) : upd f i v j = f j := by simp [upd, h]

/-- What the new value has in common with the old one. -/
theorem upd_proj {β : Type} (g : α → β) {f : ι → α} {i : ι} {v : α} (h : g v = g (f i)) (j : ι) : g (upd f i v j) = g (f j) := by
  by_cases hj : j = i
  · rw [hj, upd_same, h]
  · rw [upd_ne _ _ hj]

end

/-- Rows of length `n` laid out one after the other do not overlap. -/
theorem flat_inj {n a b i j : Nat} (hi : i < n) (hj : j < n) (h : (a * n + i : Int) = b * n + j) : a = b ∧ i = j := by
  have h' : a * n + i = b * n + j := by exact_mod_cast h
  have hmod : i = j := by
    have := congrArg (· % n) h'
    simpa [mul_add_mod', mod_eq_of_lt hi, mod_eq_of_lt hj] using this
  subst hmod
  exact ⟨eq_of_mul_eq_mul_right (by omega) (add_right_cancel h'), rfl⟩

theorem flat_lt {n b i j : Nat} (hi : i < b) (hj : j < n) : i * n + j < b * n := by
  have := mul_le_mul_right n (succ_le_of_lt hi)
  rw [succ_mul] at this
  omega

/-- A run of cells from the start of row `k`. -/
theorem flat_between {n k i j c : Nat} (hj : j < n) (hc : c ≤ n) :
    (k * n ≤ i * n + j ∧ i * n + j < k * n + c) ↔ i = k ∧ j < c := by
  constructor
  · intro h
    rcases lt_trichotomy i k with hlt | rfl | hlt
    · have := flat_lt hlt hj
      omega
    · exact ⟨rfl, by omega⟩
    have := mul_le_mul_right n (succ_le_of_lt hlt)
    rw [succ_mul] at this
    omega
  · intro h
    obtain ⟨rfl, h⟩ := h
    omega

variable (size : Nat → Nat)

/-- Where block `b` starts when blocks of the given sizes lie one after the other. -/
def offset (b : Nat) : Nat := ((List.range b).map size).sum

theorem offset_succ (b : Nat) : offset size (b + 1) = offset size b + size b := by
  simp [offset, range_succ]

theorem offset_succ_left (b : Nat) : offset size (b + 1) = size 0 + offset (fun i => size (i + 1)) b := by
  simp [offset, range_succ_eq_map, Function.comp_def]

theorem offset_le {a b : Nat} (h : a < b) : offset size a + size a ≤ offset size b := by
  induction b with
  | zero => exact absurd h (not_lt_zero a)
  | succ b ih =>
    rw [offset_succ]
    rcases Nat.lt_succ_iff_lt_or_eq.mp h with h | rfl
    · have := ih h
      omega
    · exact le_refl _

theorem offset_inj {a b i j : Nat} (hi : i < size a) (hj : j < size b) (h : offset size a + i = offset size b + j) :
    a = b ∧ i = j := by
  rcases lt_trichotomy a b with hab | rfl | hab
  · have := offset_le size hab
    omega
  · exact ⟨rfl, by omega⟩
  · have := offset_le size hab
    omega

theorem offset_congr {f g : Nat → Nat} {b : Nat} (h : ∀ i < b, f i = g i) : offset f b = offset g b := by
  unfold offset
  rw [map_congr_left fun i hi => h i (mem_range.mp hi)]

theorem offset_const (c b : Nat) : offset (fun _ => c) b = b * c := by
  simp [offset]

theorem offset_add_one (f : Nat → Nat) (b : Nat) : offset (fun i => f i + 1) b = offset f b + b := by
  induction b with
  | zero => rfl
  | succ b ih =>
    rw [offset_succ, offset_succ, ih]
    omega

/-- Every index below the end lies in one of the blocks. -/
theorem offset_split {f b : Nat} (h : f < offset size b) : ∃ i < b, ∃ k < size i, f = offset size i + k := by
  induction b with
  | zero => exact absurd h (not_lt_zero f)
  | succ b ih =>
    rw [offset_succ] at h
    rcases lt_or_ge f (offset size b) with hf | hf
    · obtain ⟨i, hi, k, hk, he⟩ := ih hf
      exact ⟨i, lt_succ_of_lt hi, k, hk, he⟩
    · exact ⟨b, lt_succ_self b, f - offset size b, by omega, by omega⟩

theorem length_flatMap_range {α : Type} (g : Nat → List α) (b : Nat) :
    ((range b).flatMap g).length = offset (fun i => (g i).length) b := by
  simp [offset, length_flatMap]

theorem getD_flatMap_range {α : Type} (g : Nat → List α) (d : α) {i k : Nat} (hk : k < (g i).length) {b : Nat} (h : i < b) :
    ((range b).flatMap g).getD (offset (fun j => (g j).length) i + k) d = (g i).getD k d := by
  induction b with
  | zero => exact absurd h (not_lt_zero i)
  | succ b ih =>
    rw [range_succ, flatMap_append, flatMap_cons, flatMap_nil, append_nil]
    rcases Nat.lt_succ_iff_lt_or_eq.mp h with h | rfl
    · have hlt := offset_le (fun j => (g j).length) h
      rw [getD_append _ _ _ _ (by rw [length_flatMap_range]; omega), ih h]
    · rw [getD_append_right _ _ _ _ (by rw [length_flatMap_range]; omega), length_flatMap_range, Nat.add_sub_cancel_left]

variable {α : Type} (f : Int → α) (a : Int)

/-- A loop that sets the `n` cells from `a` on. -/
def fill (n : Nat) (v : α) : Int → α :=
  (List.range n).foldl (fun f (i : Nat) => upd f (a + i) v) f

theorem fill_apply (v : α) (c : Int) (n : Nat) : fill f a n v c = if a ≤ c ∧ c < a + n then v else f c := by
  induction n with
  | zero =>
    rw [if_neg (by omega)]
    rfl
  | succ n ih =>
    simp only [fill, range_succ, foldl_append, foldl_cons, foldl_nil, upd]
    by_cases hc : c = a + n
    · rw [if_pos hc, if_pos (by omega)]
    rw [if_neg hc]
    refine ih.trans ?_
    congr 1
    simp only [eq_iff_iff]
    omega

/-! ## Launches -/

section
variable {ι σ : Type}

/-- Run the blocks of `order` one after the other; `none` when one of them does not end. -/
def launch (block : ι → σ → Option σ) : List ι → σ → Option σ
  | [], s => some s
  | i :: order, s => (block i s).bind (launch block order)

structure Independent (block : ι → σ → Option σ) (Agree : ι → σ → σ → Prop) : Prop where
  refl : ∀ i s, Agree i s s
  trans : ∀ i s t u, Agree i s t → Agree i t u → Agree i s u
  frame : ∀ i j s s', j ≠ i → block j s = some s' → Agree i s' s
  congr : ∀ i s t t', Agree i s t → block i t = some t' → ∃ s', block i s = some s' ∧ Agree i s' t'

variable {block : ι → σ → Option σ} {Agree : ι → σ → σ → Prop}

theorem launch_frame (h : Independent block Agree) {i : ι} (order : List ι) (s s' : σ) (hi : i ∉ order)
    (he : launch block order s = some s') : Agree i s' s := by
  induction order generalizing s s' with
  | nil =>
    cases he
    exact h.refl i s
  | cons j order ih =>
    obtain ⟨s1, h1, h2⟩ := Option.bind_eq_some_iff.mp he
    have hj : j ≠ i := fun e => hi (e ▸ mem_cons_self)
    exact h.trans i s' s1 s (ih s1 s' (fun hm => hi (mem_cons_of_mem j hm)) h2) (h.frame i j s s1 hj h1)

/-- A launch ends when every block alone ends, and leaves each block's cells as that
    block alone leaves them, whatever the order. -/
theorem launch_own (h : Independent block Agree) (order : List ι) (s t : σ) (hn : order.Nodup)
    (ha : ∀ i ∈ order, Agree i s t) (hb : ∀ i ∈ order, ∃ t', block i t = some t') :
    ∃ s', launch block order s = some s' ∧ ∀ i ∈ order, ∀ t', block i t = some t' → Agree i s' t' := by
  induction order generalizing s t with
  | nil => exact ⟨s, rfl, by simp⟩
  | cons j order ih =>
    obtain ⟨hj, hn'⟩ := nodup_cons.mp hn
    obtain ⟨tj, htj⟩ := hb j mem_cons_self
    obtain ⟨s1, hs1, hs1j⟩ := h.congr j s t tj (ha j mem_cons_self) htj
    have ha' : ∀ i ∈ order, Agree i s1 t := fun i hi =>
      h.trans i s1 s t (h.frame i j s s1 (fun e => hj (e ▸ hi)) hs1) (ha i (mem_cons_of_mem j hi))
    obtain ⟨s', hs', hown⟩ := ih s1 t hn' ha' (fun i hi => hb i (mem_cons_of_mem j hi))
    refine ⟨s', by simp [launch, hs1, hs'], ?_⟩
    intro i hi t' ht'
    rcases mem_cons.mp hi with rfl | hi
    · -- the later blocks leave block `i`'s cells alone
      rw [htj] at ht'
      cases ht'
      exact h.trans i s' s1 tj (launch_frame h order s1 s' hj hs') hs1j
    · exact hown i hi t' ht'

end

end DynaSpec.Lib
