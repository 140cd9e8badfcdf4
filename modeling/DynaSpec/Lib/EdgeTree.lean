/-
  DynaSpec.Lib.EdgeTree — trees whose edges carry words, with the children of a node found by
  the first letter of their words.

  `Shape` says that the nodes `live` form such a tree below node 0 and that `path n` is the
  word from the root to `n`. A word that a way spells ends in exactly one node (`ends_unique`),
  so that nodes are told apart by their paths. A new leaf, an edge cut in two and a leaf taken
  out keep the shape (`grow`, `split`, `prune`).
-/

import DynaSpec.Lib.Grid
import Mathlib.Data.Set.Card

namespace DynaSpec.Lib

open Option List
open Finset (mem_erase mem_insert mem_insert_of_mem mem_insert_self)

@[ext]
structure EdgeTree (α : Type) where
  label : Nat → List α
  parent : Nat → Option Nat
  child : Nat → α → Option Nat
  /-- The number of the next new node. -/
  next : Nat

namespace EdgeTree

variable {α : Type}

structure Shape (a : EdgeTree α) (live : Finset Nat) (path : Nat → List α) : Prop where
  root_live : 0 ∈ live
  root_path : path 0 = []
  root_label : a.label 0 = []
  root_parent : a.parent 0 = none
  lt_next : ∀ n ∈ live, n < a.next
  up : ∀ n ∈ live, n ≠ 0 → ∃ p x, p ∈ live ∧ a.parent n = some p ∧ path n = path p ++ a.label n ∧ (a.label n).head? = some x ∧
    a.child p x = some n
  down : ∀ p ∈ live, ∀ x c, a.child p x = some c → c ∈ live ∧ c ≠ 0 ∧ a.parent c = some p ∧ (a.label c).head? = some x

/-- The word ends on the edge above `n`. -/
def Ends (a : EdgeTree α) (path : Nat → List α) (n : Nat) (w : List α) : Prop :=
  ∃ p, a.parent n = some p ∧ (path p).length < w.length ∧ w <+: path n

namespace Shape

variable {a : EdgeTree α} {live : Finset Nat} {path : Nat → List α}

/-- A root with no children. -/
theorem single (hlabel : a.label 0 = []) (hparent : a.parent 0 = none) (hnext : 0 < a.next) (hchild : ∀ x, a.child 0 x = none) :
    Shape a {0} fun _ => [] where
  root_live := Finset.mem_singleton_self 0
  root_path := rfl
  root_label := hlabel
  root_parent := hparent
  lt_next n hn := by rwa [Finset.mem_singleton.mp hn]
  up n hn h0 := absurd (Finset.mem_singleton.mp hn) h0
  down p hp x c hc := by
    rw [Finset.mem_singleton.mp hp, hchild] at hc
    cases hc

section
variable (h : Shape a live path)
include h

variable {n : Nat}

theorem label_ne_nil (hn : n ∈ live) (h0 : n ≠ 0) : a.label n ≠ [] := by
  obtain ⟨p, x, -, -, -, hx, -⟩ := h.up n hn h0
  intro hnil
  rw [hnil] at hx
  cases hx

theorem parent_lt {n p : Nat} (hn : n ∈ live) (h0 : n ≠ 0) (hp : a.parent n = some p) :
    p ∈ live ∧ path n = path p ++ a.label n ∧ (path p).length < (path n).length := by
  obtain ⟨q, x, hq, hq', hpath, -, -⟩ := h.up n hn h0
  obtain rfl : q = p := some.inj (hq'.symm.trans hp)
  refine ⟨hq, hpath, ?_⟩
  rw [hpath, length_append]
  have := length_pos_iff.mpr (h.label_ne_nil hn h0)
  omega

theorem parent_ne {n p : Nat} (hn : n ∈ live) (h0 : n ≠ 0) (hp : a.parent n = some p) : p ≠ n := by
  intro he
  have := (h.parent_lt hn h0 hp).2.2
  rw [he] at this
  exact lt_irrefl _ this

theorem path_ne_nil (hn : n ∈ live) (h0 : n ≠ 0) : path n ≠ [] := by
  obtain ⟨p, x, hp, hp', -, -, -⟩ := h.up n hn h0
  have := (h.parent_lt hn h0 hp').2.2
  intro hnil
  rw [hnil] at this
  cases this

/-- Induction along the ways from the root. -/
theorem climb {P : Nat → Prop} (root : P 0) (step : ∀ n ∈ live, n ≠ 0 → ∀ p ∈ live, a.parent n = some p → P p → P n) :
    ∀ n ∈ live, P n := by
  suffices hk : ∀ k, ∀ n ∈ live, (path n).length = k → P n from fun n hn => hk _ n hn rfl
  intro k
  induction k using Nat.strong_induction_on with
  | _ k ih =>
    intro n hn hlen
    by_cases h0 : n = 0
    · rw [h0]
      exact root
    · obtain ⟨p, x, hp, hp', -, -, -⟩ := h.up n hn h0
      exact step n hn h0 p hp hp' (ih _ (hlen ▸ (h.parent_lt hn h0 hp').2.2) p hp rfl)

theorem ends_self (hn : n ∈ live) (h0 : n ≠ 0) : Ends a path n (path n) := by
  obtain ⟨p, x, hp, hp', -, -, -⟩ := h.up n hn h0
  exact ⟨p, hp', (h.parent_lt hn h0 hp').2.2, prefix_rfl⟩

theorem eq_of_path {n m : Nat} (hn : n ∈ live) (hm : m ∈ live) (he : path n = path m)
    (hends : n ≠ 0 → m ≠ 0 → Ends a path n (path n) → Ends a path m (path n) → n = m) : n = m := by
  by_cases h0 : n = 0
  · by_contra hne
    have hm0 : m ≠ 0 := fun hm0 => hne (h0.trans hm0.symm)
    apply h.path_ne_nil hm hm0
    rw [← he, h0, h.root_path]
  have hm0 : m ≠ 0 := by
    intro hm0
    apply h.path_ne_nil hn h0
    rw [he, hm0, h.root_path]
  refine hends h0 hm0 (h.ends_self hn h0) ?_
  rw [he]
  exact h.ends_self hm hm0

/-- A word ends in one node. -/
theorem ends_unique : ∀ (k : Nat) (w : List α), w.length = k → ∀ n ∈ live, n ≠ 0 → ∀ m ∈ live, m ≠ 0 →
    Ends a path n w → Ends a path m w → n = m := by
  intro k
  induction k using Nat.strong_induction_on with
  | _ k ih =>
    intro w hw
    -- a parent's path that is longer than the other's would end in two nodes
    have hle : ∀ n ∈ live, n ≠ 0 → ∀ m ∈ live, m ≠ 0 → Ends a path n w → Ends a path m w →
        ∀ p q, a.parent n = some p → a.parent m = some q → (path q).length ≤ (path p).length := by
      intro n hn h0 m hm hm0 hnw hmw p q hp hq
      by_contra hlt
      obtain ⟨p', hp', hpw, hnpre⟩ := hnw
      obtain ⟨q', hq', hqw, hmpre⟩ := hmw
      obtain rfl : p' = p := some.inj (hp'.symm.trans hp)
      obtain rfl : q' = q := some.inj (hq'.symm.trans hq)
      obtain ⟨hqlive, hmpath, -⟩ := h.parent_lt hm hm0 hq
      have hq0 : q' ≠ 0 := by
        intro he
        rw [he, h.root_path] at hlt
        exact hlt (Nat.zero_le _)
      have hqpre : path q' <+: w := prefix_of_prefix_length_le ⟨_, hmpath.symm⟩ hmpre (by omega)
      have hEq := ih _ (by omega) (path q') rfl n hn h0 q' hqlive hq0 ⟨p', hp, by omega, hqpre.trans hnpre⟩
        (h.ends_self hqlive hq0)
      rw [hEq] at hnpre
      have := hnpre.length_le
      omega
    intro n hn h0 m hm hm0 hnw hmw
    obtain ⟨p, x, hp, hp', hnpath, hx, hnc⟩ := h.up n hn h0
    obtain ⟨q, y, hq, hq', hmpath, hy, hmc⟩ := h.up m hm hm0
    have hlen := le_antisymm (hle m hm hm0 n hn h0 hmw hnw q p hq' hp') (hle n hn h0 m hm hm0 hnw hmw p q hp' hq')
    obtain ⟨p1, hp1, hpw, hnpre⟩ := hnw
    obtain ⟨q1, hq1, hqw, hmpre⟩ := hmw
    obtain rfl : p1 = p := some.inj (hp1.symm.trans hp')
    obtain rfl : q1 = q := some.inj (hq1.symm.trans hq')
    have hppre : path p1 <+: w := prefix_of_prefix_length_le ⟨_, hnpath.symm⟩ hnpre (by omega)
    have hqpre : path q1 <+: w := prefix_of_prefix_length_le ⟨_, hmpath.symm⟩ hmpre (by omega)
    have hpath : path p1 = path q1 := (prefix_of_prefix_length_le hppre hqpre (by omega)).eq_of_length (by omega)
    have hpq : p1 = q1 := h.eq_of_path hp hq hpath fun hp0 hq0 => ih _ (by omega) (path p1) rfl p1 hp hp0 q1 hq hq0
    -- the letter of `w` after that path names the child
    have hletter : ∀ {c : Nat} {z : α}, path c = path p1 ++ a.label c → (a.label c).head? = some z → w <+: path c →
        w[(path p1).length]? = some z := by
      intro c z hc hz hpre
      obtain ⟨rest, hrest⟩ := hpre
      have hget : (path c)[(path p1).length]? = some z := by
        rw [hc, getElem?_append_right (le_refl _), Nat.sub_self, ← head?_eq_getElem?]
        exact hz
      rw [← hrest, getElem?_append_left hpw] at hget
      exact hget
    have hxy : x = y := by
      have h1 := hletter hnpath hx hnpre
      have h2 := hletter (hpath ▸ hmpath) hy hmpre
      exact some.inj (h1.symm.trans h2)
    rw [hxy, hpq] at hnc
    exact some.inj (hnc.symm.trans hmc)

/-- Two nodes have different paths. -/
theorem path_inj {n m : Nat} (hn : n ∈ live) (hm : m ∈ live) (he : path n = path m) : n = m :=
  h.eq_of_path hn hm he fun h0 hm0 => h.ends_unique _ (path n) rfl n hn h0 m hm hm0

/-- What is above a node is above its parent. -/
theorem isPrefix_parent {n m p : Nat} (hn : n ∈ live) (hm : m ∈ live) (h0 : m ≠ 0) (hp : a.parent m = some p)
    (hpre : path n <+: path m) (hne : n ≠ m) : path n <+: path p := by
  refine prefix_of_prefix_length_le hpre ⟨_, (h.parent_lt hm h0 hp).2.1.symm⟩ (Nat.le_of_not_lt fun hlt => hne ?_)
  have hn0 : n ≠ 0 := by
    intro he
    rw [he, h.root_path] at hlt
    cases hlt
  exact h.ends_unique _ (path n) rfl n hn hn0 m hm h0 (h.ends_self hn hn0) ⟨p, hp, hlt, hpre⟩

/-- A non-empty start of a path ends in a node on the way. -/
theorem exists_ends : ∀ n ∈ live, ∀ w, w <+: path n → w ≠ [] → ∃ m ∈ live, m ≠ 0 ∧ Ends a path m w ∧ path m <+: path n := by
  refine h.climb ?_ ?_
  · intro w hw hne
    rw [h.root_path] at hw
    exact absurd (prefix_nil.mp hw) hne
  intro n hn h0 p hp hp' ih w hw hne
  obtain ⟨-, hpath, -⟩ := h.parent_lt hn h0 hp'
  rcases lt_or_ge (path p).length w.length with hlt | hle
  · exact ⟨n, hn, h0, ⟨p, hp', hlt, hw⟩, prefix_rfl⟩
  have hppre : path p <+: path n := ⟨_, hpath.symm⟩
  obtain ⟨m, hm, hm0, hends, hmp⟩ := ih w (prefix_of_prefix_length_le hw hppre hle) hne
  exact ⟨m, hm, hm0, hends, hmp.trans hppre⟩

/-- A way that has letters of the edge above `n` comes to `n`. -/
theorem ends_isPrefix {n m : Nat} {w : List α} (hn : n ∈ live) (h0 : n ≠ 0) (hm : m ∈ live) (hw : Ends a path n w)
    (hpre : w <+: path m) : path n <+: path m := by
  have hne : w ≠ [] := by
    obtain ⟨p, -, hlt, -⟩ := hw
    exact ne_nil_of_length_pos (by omega)
  obtain ⟨k, hk, hk0, hends, hkm⟩ := h.exists_ends m hm w hpre hne
  rwa [h.ends_unique _ w rfl n hn h0 k hk hk0 hw hends]

/-- No way goes on below a leaf. -/
theorem leaf_isPrefix (hn : n ∈ live) (hleaf : ∀ x, a.child n x = none) : ∀ m ∈ live, path n <+: path m → m = n := by
  refine h.climb ?_ ?_
  · intro hpre
    refine h.path_inj h.root_live hn ?_
    rw [h.root_path] at hpre ⊢
    exact (prefix_nil.mp hpre).symm
  intro m hm h0 p hp hp' ih hpre
  obtain ⟨q, x, -, hq, -, -, hc⟩ := h.up m hm h0
  obtain rfl : q = p := some.inj (hq.symm.trans hp')
  by_contra hne
  rw [ih (h.isPrefix_parent hn hm h0 hq hpre (Ne.symm hne)), hleaf x] at hc
  cases hc

theorem ne_next (hn : n ∈ live) : n ≠ a.next := ne_of_lt (h.lt_next n hn)

end

end Shape

/-! ## Changes of a tree -/

variable [DecidableEq α]

variable (a : EdgeTree α) (p : Nat) (x : α)

/-- A new leaf below `p`. -/
def grow (l : List α) : EdgeTree α where
  label := upd a.label a.next l
  parent := upd a.parent a.next (some p)
  child m y := if m = a.next then none else if m = p ∧ y = x then some a.next else a.child m y
  next := a.next + 1

/-- The edge above `c` is cut in two. -/
def split (c : Nat) (u v : List α) (y : α) : EdgeTree α where
  label := upd (upd a.label a.next u) c v
  parent := upd (upd a.parent a.next (some p)) c (some a.next)
  child m z := if m = a.next then (if z = y then some c else none) else if m = p ∧ z = x then some a.next else a.child m z
  next := a.next + 1

/-- The child of `p` at `x` is taken out. -/
def prune : EdgeTree α where
  label := a.label
  parent := a.parent
  child m z := if m = p ∧ z = x then none else a.child m z
  next := a.next

namespace Shape

variable {a : EdgeTree α} {live : Finset Nat} {path : Nat → List α}

theorem grow (h : Shape a live path) {p : Nat} {x : α} {l : List α} (hp : p ∈ live) (hl : l.head? = some x)
    (hfree : a.child p x = none) :
    Shape (a.grow p x l) (insert a.next live) (upd path a.next (path p ++ l)) := by
  have hnext0 : (0 : Nat) ≠ a.next := h.ne_next h.root_live
  have hpn := h.ne_next hp
  refine ⟨mem_insert_of_mem h.root_live, ?_, ?_, ?_, ?_, ?_, ?_⟩
  · rw [upd_ne _ _ hnext0, h.root_path]
  · exact (upd_ne _ _ hnext0).trans h.root_label
  · exact (upd_ne _ _ hnext0).trans h.root_parent
  · intro n hn
    rcases mem_insert.mp hn with rfl | hn
    · exact Nat.lt_succ_self _
    · exact Nat.lt_succ_of_lt (h.lt_next n hn)
  · intro n hn h0
    rcases mem_insert.mp hn with rfl | hn
    · refine ⟨p, x, mem_insert_of_mem hp, upd_same _ _ _, ?_, ?_, ?_⟩
      · simp [EdgeTree.grow, upd, hpn]
      · simp [EdgeTree.grow, upd, hl]
      · simp [EdgeTree.grow, hpn]
    obtain ⟨q, y, hq, hq', hpath, hy, hc⟩ := h.up n hn h0
    have hnn := h.ne_next hn
    refine ⟨q, y, mem_insert_of_mem hq, (upd_ne _ _ hnn).trans hq', ?_, ?_, ?_⟩
    · simp [EdgeTree.grow, upd, hnn, h.ne_next hq, hpath]
    · simp [EdgeTree.grow, upd, hnn, hy]
    · have hne : ¬ (q = p ∧ y = x) := by
        intro he
        rw [he.1, he.2, hfree] at hc
        cases hc
      simp [EdgeTree.grow, h.ne_next hq, hne, hc]
  · intro q hq y c hc
    simp only [EdgeTree.grow] at hc
    rcases mem_insert.mp hq with rfl | hq
    · simp at hc
    rw [if_neg (h.ne_next hq)] at hc
    split at hc
    · rename_i he
      obtain rfl := some.inj hc
      refine ⟨mem_insert_self _ _, hnext0.symm, ?_, ?_⟩
      · simp [EdgeTree.grow, upd, he.1]
      · simp [EdgeTree.grow, upd, he.2, hl]
    obtain ⟨hclive, hc0, hcp, hcx⟩ := h.down q hq y c hc
    have hcn := h.ne_next hclive
    refine ⟨mem_insert_of_mem hclive, hc0, (upd_ne _ _ hcn).trans hcp, ?_⟩
    simp [EdgeTree.grow, upd, hcn, hcx]

theorem split (h : Shape a live path) {p c : Nat} {x y : α} {u v : List α} (hp : p ∈ live) (hc : a.child p x = some c)
    (hlabel : a.label c = u ++ v) (hu : u ≠ []) (hy : v.head? = some y) :
    Shape (a.split p x c u v y) (insert a.next live) (upd path a.next (path p ++ u)) := by
  obtain ⟨hclive, hc0, hcp, hcx⟩ := h.down p hp x c hc
  obtain ⟨-, hcpath, -⟩ := h.parent_lt hclive hc0 hcp
  have hnext0 : (0 : Nat) ≠ a.next := h.ne_next h.root_live
  have hpn := h.ne_next hp
  have hcn := h.ne_next hclive
  have hux : u.head? = some x := by
    rw [hlabel] at hcx
    cases u with
    | nil => exact absurd rfl hu
    | cons z u => exact hcx
  refine ⟨mem_insert_of_mem h.root_live, ?_, ?_, ?_, ?_, ?_, ?_⟩
  · rw [upd_ne _ _ hnext0, h.root_path]
  · simp [EdgeTree.split, upd, Ne.symm hc0, hnext0, h.root_label]
  · simp [EdgeTree.split, upd, Ne.symm hc0, hnext0, h.root_parent]
  · intro n hn
    rcases mem_insert.mp hn with rfl | hn
    · exact Nat.lt_succ_self _
    · exact Nat.lt_succ_of_lt (h.lt_next n hn)
  · intro n hn h0
    rcases mem_insert.mp hn with rfl | hn
    · refine ⟨p, x, mem_insert_of_mem hp, ?_, ?_, ?_, ?_⟩
      · simp [EdgeTree.split, upd, Ne.symm hcn]
      · simp [EdgeTree.split, upd, hpn, Ne.symm hcn]
      · simp [EdgeTree.split, upd, Ne.symm hcn, hux]
      · simp [EdgeTree.split, hpn]
    have hnn := h.ne_next hn
    by_cases hnc : n = c
    · subst hnc
      refine ⟨a.next, y, mem_insert_self _ _, ?_, ?_, ?_, ?_⟩
      · simp [EdgeTree.split, upd]
      · simp [EdgeTree.split, upd, hnn, hcpath, hlabel, append_assoc]
      · simp [EdgeTree.split, upd, hy]
      · simp [EdgeTree.split]
    obtain ⟨q, z, hq, hq', hpath, hz, hqc⟩ := h.up n hn h0
    refine ⟨q, z, mem_insert_of_mem hq, ?_, ?_, ?_, ?_⟩
    · simp [EdgeTree.split, upd, hnc, hnn, hq']
    · simp [EdgeTree.split, upd, hnn, h.ne_next hq, hnc, hpath]
    · simp [EdgeTree.split, upd, hnc, hnn, hz]
    · have hne : ¬ (q = p ∧ z = x) := by
        intro he
        rw [he.1, he.2, hc] at hqc
        exact hnc (some.inj hqc).symm
      simp [EdgeTree.split, h.ne_next hq, hne, hqc]
  · intro q hq z d hd
    simp only [EdgeTree.split] at hd
    rcases mem_insert.mp hq with rfl | hq
    · rw [if_pos rfl] at hd
      split at hd
      · rename_i hz
        obtain rfl := some.inj hd
        refine ⟨mem_insert_of_mem hclive, hc0, ?_, ?_⟩
        · simp [EdgeTree.split, upd]
        · simp [EdgeTree.split, upd, hz, hy]
      · cases hd
    rw [if_neg (h.ne_next hq)] at hd
    split at hd
    · rename_i he
      obtain rfl := some.inj hd
      refine ⟨mem_insert_self _ _, hnext0.symm, ?_, ?_⟩
      · simp [EdgeTree.split, upd, Ne.symm hcn, he.1]
      · simp [EdgeTree.split, upd, Ne.symm hcn, he.2, hux]
    rename_i hne
    obtain ⟨hdlive, hd0, hdp, hdx⟩ := h.down q hq z d hd
    have hdn := h.ne_next hdlive
    have hdc : d ≠ c := by
      intro he
      rw [he, hcp] at hdp
      rw [he, hcx] at hdx
      exact hne ⟨(some.inj hdp).symm, (some.inj hdx).symm⟩
    refine ⟨mem_insert_of_mem hdlive, hd0, ?_, ?_⟩
    · simp [EdgeTree.split, upd, hdc, hdn, hdp]
    · simp [EdgeTree.split, upd, hdc, hdn, hdx]

theorem prune (h : Shape a live path) {n p : Nat} {x : α} (hn : n ∈ live) (h0 : n ≠ 0) (hp : a.parent n = some p)
    (hx : (a.label n).head? = some x) (hleaf : ∀ z, a.child n z = none) : Shape (a.prune p x) (live.erase n) path := by
  have hnp : a.child p x = some n := by
    obtain ⟨q, y, -, hq', -, hy, hc⟩ := h.up n hn h0
    obtain rfl : q = p := some.inj (hq'.symm.trans hp)
    obtain rfl : y = x := some.inj (hy.symm.trans hx)
    exact hc
  refine ⟨mem_erase.mpr ⟨Ne.symm h0, h.root_live⟩, h.root_path, h.root_label, h.root_parent,
    fun m hm => h.lt_next m (Finset.mem_of_mem_erase hm), ?_, ?_⟩
  · intro m hm hm0
    obtain ⟨hne, hm⟩ := mem_erase.mp hm
    obtain ⟨q, y, hq, hq', hpath, hy, hc⟩ := h.up m hm hm0
    have hqn : q ≠ n := by
      intro he
      rw [he, hleaf] at hc
      cases hc
    refine ⟨q, y, mem_erase.mpr ⟨hqn, hq⟩, hq', hpath, hy, ?_⟩
    have hqy : ¬ (q = p ∧ y = x) := by
      intro he
      rw [he.1, he.2, hnp] at hc
      exact hne (some.inj hc).symm
    simp [EdgeTree.prune, hqy, hc]
  · intro q hq z c hc
    simp only [EdgeTree.prune] at hc
    split at hc
    · cases hc
    rename_i hqz
    obtain ⟨hclive, hc0, hcp, hcx⟩ := h.down q (Finset.mem_of_mem_erase hq) z c hc
    refine ⟨mem_erase.mpr ⟨?_, hclive⟩, hc0, hcp, hcx⟩
    intro he
    rw [he, hp] at hcp
    rw [he, hx] at hcx
    exact hqz ⟨(some.inj hcp).symm, (some.inj hcx).symm⟩

end Shape

end EdgeTree

end DynaSpec.Lib
