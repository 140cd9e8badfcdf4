/-
  DynaSpec.Lib.Paged — sequences laid out on pages.

  A page table `pg` says on which page the `k`-th block of `pageSize` tokens of sequence
  `i` lies; the token at position `p` is in the slot `slotAt pageSize pg i p`. When the
  blocks from position `lo i` on are on pages of their own (`Owned`), the slots from
  there on are too (`Owned.slotAt_inj`). `wholePages` are the slots of a list of pages.
-/

import Mathlib.Data.List.Flatten
import Mathlib.Tactic.NormNum

namespace DynaSpec.Lib

open List Nat

variable {pg : Nat → Nat → Nat}

/-! ## Counting pages -/

/-- The number of pages that `n` tokens cover. -/
def pageCount (pageSize n : Nat) : Nat := (n + pageSize - 1) / pageSize

variable {pageSize : Nat}

theorem lt_pageCount (h : 0 < pageSize) {k n : Nat} : k < pageCount pageSize n ↔ k * pageSize < n := by
  rw [pageCount, ← succ_le_iff, le_div_iff_mul_le h, succ_mul]
  omega

theorem le_pageCount_mul (h : 0 < pageSize) (n : Nat) : n ≤ pageCount pageSize n * pageSize := by
  have := (lt_pageCount h (k := pageCount pageSize n) (n := n)).not.mp (lt_irrefl _)
  omega

theorem pageCount_mul_lt (h : 0 < pageSize) (n : Nat) : pageCount pageSize n * pageSize < n + pageSize := by
  have := div_mul_le_self (n + pageSize - 1) pageSize
  rw [pageCount]
  omega

theorem pageCount_mono {m n : Nat} (h : m ≤ n) : pageCount pageSize m ≤ pageCount pageSize n :=
  Nat.div_le_div_right (by omega)

theorem pageCount_mul (hps : 0 < pageSize) (k : Nat) : pageCount pageSize (k * pageSize) = k := by
  have h1 := le_pageCount_mul hps (k * pageSize)
  have h2 := pageCount_mul_lt hps (k * pageSize)
  have h3 : pageCount pageSize (k * pageSize) * pageSize < (k + 1) * pageSize := by rw [succ_mul]; exact h2
  have h4 := le_of_mul_le_mul_right h1 hps
  have h5 := lt_of_mul_lt_mul_right h3
  omega

theorem pageCount_add (hps : 0 < pageSize) (k n : Nat) : pageCount pageSize (k * pageSize + n) = k + pageCount pageSize n := by
  unfold pageCount
  rw [add_assoc, Nat.add_sub_assoc (by omega), mul_comm, Nat.mul_add_div hps]

theorem div_lt_pageCount (h : 0 < pageSize) {p n : Nat} (hp : p < n) : p / pageSize < pageCount pageSize n :=
  (lt_pageCount h).mpr (lt_of_le_of_lt (div_mul_le_self p pageSize) hp)

/-- The pages up to the one that holds position `p`. -/
theorem pageCount_succ (h : 0 < pageSize) (p : Nat) : pageCount pageSize (p + 1) = p / pageSize + 1 := by
  apply le_antisymm
  · apply Nat.le_of_not_lt
    rw [lt_pageCount h]
    have := div_add_mod' p pageSize
    have := mod_lt p h
    rw [succ_mul]
    omega
  · exact div_lt_pageCount h (lt_succ_self p)

/-! ## Slots -/

def slotAt (pageSize : Nat) (pg : Nat → Nat → Nat) (i p : Nat) : Nat := pg i (p / pageSize) * pageSize + p % pageSize

theorem slotAt_div (h : 0 < pageSize) (pg : Nat → Nat → Nat) (i p : Nat) :
    slotAt pageSize pg i p / pageSize = pg i (p / pageSize) := by
  rw [slotAt, mul_comm, mul_add_div h, div_eq_of_lt (mod_lt p h), add_zero]

theorem slotAt_mod (h : 0 < pageSize) (pg : Nat → Nat → Nat) (i p : Nat) : slotAt pageSize pg i p % pageSize = p % pageSize := by
  rw [slotAt, mul_comm, mul_add_mod, mod_eq_of_lt (mod_lt p h)]

/-- The next slots of a page that a row fills in part. -/
theorem slotAt_continue (h : 0 < pageSize) (pg : Nat → Nat → Nat) (i : Nat) {n k : Nat} (hn : 0 < n)
    (hk : n + k < pageCount pageSize n * pageSize) : slotAt pageSize pg i (n - 1) + 1 + k = slotAt pageSize pg i (n + k) := by
  obtain ⟨m, rfl⟩ := exists_eq_succ_of_ne_zero (pos_iff_ne_zero.mp hn)
  rw [succ_eq_add_one, pageCount_succ h, succ_mul] at hk
  have hm := div_add_mod' m pageSize
  have hdiv : (m + 1 + k) / pageSize = m / pageSize := Nat.div_eq_of_lt_le (by omega) (by rw [Nat.succ_mul]; omega)
  have hmk := div_add_mod' (m + 1 + k) pageSize
  rw [hdiv] at hmk
  rw [Nat.succ_eq_add_one, Nat.add_sub_cancel, slotAt, slotAt, hdiv]
  omega

/-- The blocks of sequence `i` from position `lo i` on share their page with no other
    block of the `n` sequences, each of length `hi j`. -/
def Owned (pageSize n : Nat) (lo hi : Nat → Nat) (pg : Nat → Nat → Nat) : Prop :=
  ∀ i < n, ∀ k, lo i / pageSize ≤ k → k < pageCount pageSize (hi i) →
    ∀ j < n, ∀ l < pageCount pageSize (hi j), pg i k = pg j l → i = j ∧ k = l

theorem Owned.page {n : Nat} {lo hi : Nat → Nat} (h : Owned pageSize n lo hi pg)
    (hps : 0 < pageSize) {i j p q : Nat} (hi' : i < n) (hj : j < n) (hlo : lo i ≤ p) (hp : p < hi i) (hq : q < hi j)
    (he : pg i (p / pageSize) = pg j (q / pageSize)) : i = j ∧ p / pageSize = q / pageSize :=
  h i hi' _ (Nat.div_le_div_right hlo) (div_lt_pageCount hps hp) j hj _ (div_lt_pageCount hps hq) he

theorem Owned.slotAt_inj {n : Nat} {lo hi : Nat → Nat} (h : Owned pageSize n lo hi pg)
    (hps : 0 < pageSize) {i j p q : Nat} (hi' : i < n) (hj : j < n) (hlo : lo i ≤ p) (hp : p < hi i) (hq : q < hi j)
    (he : slotAt pageSize pg i p = slotAt pageSize pg j q) : i = j ∧ p = q := by
  have hdiv : pg i (p / pageSize) = pg j (q / pageSize) := by
    rw [← slotAt_div hps pg i p, he, slotAt_div hps]
  have hmod : p % pageSize = q % pageSize := by
    rw [← slotAt_mod hps pg i p, he, slotAt_mod hps]
  obtain ⟨rfl, hk⟩ := h.page hps hi' hj hlo hp hq hdiv
  refine ⟨rfl, ?_⟩
  rw [← div_add_mod' p pageSize, ← div_add_mod' q pageSize, hk, hmod]

/-! ## The slots of whole pages -/

def wholePages (pageSize : Nat) (pages : List Nat) : List Nat :=
  pages.flatMap fun p => (List.range pageSize).map (p * pageSize + ·)

@[simp] theorem wholePages_nil (pageSize : Nat) : wholePages pageSize [] = [] := rfl

theorem wholePages_cons (pageSize p : Nat) (pages : List Nat) :
    wholePages pageSize (p :: pages) = (range pageSize).map (p * pageSize + ·) ++ wholePages pageSize pages := flatMap_cons

theorem wholePages_append (pageSize : Nat) (pages more : List Nat) :
    wholePages pageSize (pages ++ more) = wholePages pageSize pages ++ wholePages pageSize more := flatMap_append

@[simp] theorem length_wholePages (pageSize : Nat) (pages : List Nat) :
    (wholePages pageSize pages).length = pages.length * pageSize := by
  induction pages with
  | nil => simp
  | cons p pages ih => simp [wholePages_cons, ih, succ_mul, add_comm]

theorem take_wholePages (pageSize k : Nat) (pages : List Nat) :
    (wholePages pageSize pages).take (k * pageSize) = wholePages pageSize (pages.take k) := by
  rcases le_total k pages.length with hk | hk
  · conv_lhs => rw [← take_append_drop k pages, wholePages_append]
    rw [take_left' (by rw [length_wholePages, length_take, min_eq_left hk])]
  · rw [take_of_length_le hk, take_of_length_le (by rw [length_wholePages]; exact mul_le_mul_right _ hk)]

theorem drop_wholePages (pageSize k : Nat) (pages : List Nat) :
    (wholePages pageSize pages).drop (k * pageSize) = wholePages pageSize (pages.drop k) := by
  rcases le_total k pages.length with hk | hk
  · conv_lhs => rw [← take_append_drop k pages, wholePages_append]
    rw [drop_left' (by rw [length_wholePages, length_take, min_eq_left hk])]
  · rw [drop_of_length_le hk, drop_of_length_le (by rw [length_wholePages]; exact mul_le_mul_right _ hk), wholePages_nil]

theorem mem_wholePages (h : 0 < pageSize) {pages : List Nat} {x : Nat} : x ∈ wholePages pageSize pages ↔
    x / pageSize ∈ pages := by
  simp only [wholePages, mem_flatMap, mem_map, mem_range]
  constructor
  · intro hx
    obtain ⟨p, hp, o, ho, rfl⟩ := hx
    rwa [mul_comm, mul_add_div h, div_eq_of_lt ho, add_zero]
  · intro hx
    exact ⟨_, hx, x % pageSize, mod_lt x h, div_add_mod' x pageSize⟩

theorem getElem?_wholePages (h : 0 < pageSize) (pages : List Nat) (j : Nat) :
    (wholePages pageSize pages)[j]? = (pages[j / pageSize]?).map (· * pageSize + j % pageSize) := by
  induction pages generalizing j with
  | nil => simp
  | cons p pages ih =>
    rw [wholePages_cons]
    rcases lt_or_ge j pageSize with hj | hj
    · rw [getElem?_append_left (by rw [length_map, length_range]; exact hj), div_eq_of_lt hj, mod_eq_of_lt hj]
      simp [hj]
    obtain ⟨i, rfl⟩ := Nat.exists_eq_add_of_le hj
    have hdiv : (pageSize + i) / pageSize = i / pageSize + 1 := by rw [add_comm, add_div_right i h]
    rw [getElem?_append_right (by rw [length_map, length_range]; exact hj), hdiv, add_mod_left]
    simp [ih]

theorem wholePages_one (pages : List Nat) : wholePages 1 pages = pages := by
  induction pages with
  | nil => rfl
  | cons p pages ih => simp [wholePages_cons, ih]

end DynaSpec.Lib
