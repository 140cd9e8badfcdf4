/-
  DynaSpec.Lib.LinkTree — rooted ordered trees and their first-child / next-sibling links.

  An `OrderedTree n` has the nodes `0 .. n-1` with root `0`, every node below its
  parent in index order. Two link arrays store it (`Encodes`): `next p` is the first
  child of `p`, `sib c` the child after `c` among its siblings, `-1` where there is none.
  Every node has exactly one root path (`exists_rootPath`, `rootPath_unique`), which are the
  nodes above it in increasing order (`above_filter`). A walk along the links visits every
  node once (`walk_perm`).

  `ofParent` is the tree of a parent function, siblings in increasing index order.
  `pushDown` builds its links from empty ones by pushing the nodes, last to first, to
  the front of their parents' lists (`pushDown_encodes`).
-/

import DynaSpec.Lib.Grid
import Mathlib.Order.Interval.Finset.Nat

namespace DynaSpec.Lib

open List Nat
open Relation.ReflTransGen (cases_head cases_tail head refl)
open Option (some some_or)

variable {c p a x i : Nat} {l : List Nat} {s : Links}

/-! ## Trees -/

structure OrderedTree (n : Nat) where
  kids : Nat → List Nat
  nodup : ∀ p, (kids p).Nodup
  lt : ∀ p, ∀ c ∈ kids p, p < c ∧ c < n
  unique : ∀ p q c, c ∈ kids p → c ∈ kids q → p = q
  covers : ∀ c, 0 < c → c < n → ∃ p, c ∈ kids p

namespace OrderedTree

variable {n : Nat} (T : OrderedTree n)

def Child (p c : Nat) : Prop := c ∈ T.kids p

/-- A path of the tree that starts at the root. -/
def RootPath (l : List Nat) : Prop := l.IsChain T.Child ∧ l.head? = some 0

theorem chain_sorted (h : l.IsChain T.Child) : l.Pairwise (· < ·) :=
  (h.imp (fun p c hc => (T.lt p c hc).1)).pairwise

theorem chain_lt {l : List Nat} (h : (p :: l).IsChain T.Child) : ∀ c ∈ l, c < n := by
  induction l generalizing p with
  | nil => intro c hc; cases hc
  | cons d l ih =>
    intro c hc
    obtain ⟨hd, h'⟩ := isChain_cons_cons.mp h
    rcases mem_cons.mp hc with rfl | hc
    · exact (T.lt p c hd).2
    · exact ih h' c hc

/-- Indices grow along a path, so a path that starts at `p` has at most `n - p` nodes. -/
theorem chain_length {l : List Nat} (hp : p < n) (h : (p :: l).IsChain T.Child) : p + l.length < n := by
  induction l generalizing p with
  | nil => simpa using hp
  | cons d l ih =>
    obtain ⟨hd, h'⟩ := isChain_cons_cons.mp h
    have := T.lt p d hd
    have := ih (T.lt p d hd).2 h'
    simp only [length_cons]
    omega

theorem kids_length (p : Nat) : (T.kids p).length ≤ n - p - 1 := by
  rw [← toFinset_card_of_nodup (T.nodup p), ← card_Ioo p n]
  refine Finset.card_le_card fun c hc => ?_
  exact Finset.mem_Ioo.mpr (T.lt p c (mem_toFinset.mp hc))

/-- Every node is the end of a root path. -/
theorem exists_rootPath (c : Nat) (hc : c < n) : ∃ l, T.RootPath l ∧ l.getLast? = some c := by
  induction c using Nat.strong_induction_on with
  | _ c ih =>
    rcases Nat.eq_zero_or_pos c with rfl | hpos
    · exact ⟨[0], ⟨isChain_singleton 0, rfl⟩, rfl⟩
    obtain ⟨p, hp⟩ := T.covers c hpos hc
    obtain ⟨l, ⟨hl, h0⟩, hlast⟩ := ih p (T.lt p c hp).1 (by have := (T.lt p c hp).1; omega)
    refine ⟨l ++ [c], ⟨?_, ?_⟩, by simp⟩
    · refine hl.append (isChain_singleton c) ?_
      intro x hx y hy
      rw [hlast] at hx
      cases hx
      cases hy
      exact hp
    · cases l with
      | nil => cases h0
      | cons x l => simpa using h0

/-- A node has one root path: nodes are reached from the root exactly once. -/
theorem rootPath_unique {m : List Nat} (hl : T.RootPath l) (hm : T.RootPath m)
    (hlc : l.getLast? = some c) (hmc : m.getLast? = some c) : l = m := by
  -- peel both paths at their last node; parents are unique
  induction l using reverseRecOn generalizing m c with
  | nil => cases hlc
  | append_singleton l x ih =>
    induction m using reverseRecOn with
    | nil => cases hmc
    | append_singleton m y _ =>
      simp only [getLast?_append, getLast?_singleton, some_or, some.injEq] at hlc hmc
      subst hlc hmc
      have hlast : ∀ {k : List Nat} {z : Nat}, k ≠ [] → (k ++ [z]).IsChain T.Child → ∃ p, k.getLast? = some p ∧ z ∈ T.kids p := by
        intro k z hk h
        obtain ⟨p, hp⟩ := getLast?_isSome.mpr hk |> Option.isSome_iff_exists.mp
        exact ⟨p, hp, (isChain_append.mp h).2.2 p hp z rfl⟩
      have hroot : ∀ {k : List Nat} {z : Nat}, T.RootPath (k ++ [z]) → k ≠ [] → T.RootPath k := by
        intro k z h hk
        refine ⟨h.1.left_of_append, ?_⟩
        cases k with
        | nil => exact absurd rfl hk
        | cons a k => simpa using h.2
      by_cases h1 : l = []
      · by_cases h2 : m = []
        · rw [h1, h2]
        -- the root is nobody's child
        obtain ⟨p, -, hp⟩ := hlast h2 hm.1
        subst h1
        have : y = 0 := by simpa using hl.2
        have := (T.lt p y hp).1
        omega
      obtain ⟨p, hp, hpy⟩ := hlast h1 hl.1
      by_cases h2 : m = []
      · subst h2
        have : y = 0 := by simpa using hm.2
        have := (T.lt p y hpy).1
        omega
      obtain ⟨q, hq, hqy⟩ := hlast h2 hm.1
      have hpq := T.unique p q y hpy hqy
      subst hpq
      rw [ih (hroot hl h1) (hroot hm h2) hp hq]

/-- `a` is on the root path of `c`. -/
def Above (a c : Nat) : Prop := Relation.ReflTransGen T.Child a c

theorem above_le (h : T.Above a c) : a ≤ c := by
  induction h with
  | refl => exact le_refl a
  | tail _ hc ih => exact le_of_lt (lt_of_le_of_lt ih (T.lt _ _ hc).1)

theorem above_child (hc : c ∈ T.kids p) : T.Above a c ↔ a = c ∨ T.Above a p := by
  constructor
  · intro h
    rcases cases_tail h with e | ⟨q, hq, hqc⟩
    · exact .inl e.symm
    · exact .inr (T.unique q p c hqc hc ▸ hq)
  · intro h
    rcases h with rfl | h
    · exact refl
    · exact h.tail hc

theorem above_zero : T.Above a 0 ↔ a = 0 := by
  refine ⟨fun h => Nat.le_zero.mp (T.above_le h), fun h => h ▸ refl⟩

/-- The nodes above `c` other than itself are its root path without its end. -/
theorem above_filter (row : Nat → Bool) (hc : c < n) (hrow : ∀ a < c, row a = true ↔ T.Above a c) :
    T.RootPath ((range c).filter row ++ [c]) := by
  induction c using Nat.strong_induction_on generalizing row with
  | _ c ih =>
    rcases Nat.eq_zero_or_pos c with rfl | hpos
    · exact ⟨isChain_singleton 0, rfl⟩
    obtain ⟨p, hp⟩ := T.covers c hpos hc
    have hpc := (T.lt p c hp).1
    have hrowp : ∀ a < p, row a = true ↔ T.Above a p := by
      intro a ha
      rw [hrow a (by omega), T.above_child hp]
      exact or_iff_right (by omega)
    -- below its parent nothing is above `c`
    have hsplit : (range c).filter row = (range p).filter row ++ [p] := by
      obtain ⟨k, rfl⟩ : ∃ k, c = p + 1 + k := ⟨c - (p + 1), by omega⟩
      have hnone : ((range k).map (p + 1 + ·)).filter row = [] := by
        rw [filter_eq_nil_iff]
        intro a ha
        obtain ⟨j, hj, rfl⟩ := mem_map.mp ha
        have hj := mem_range.mp hj
        rw [hrow _ (by omega), T.above_child hp]
        intro h
        rcases h with h | h
        · omega
        · have := T.above_le h
          omega
      have hself : row p = true := (hrow p hpc).mpr ((T.above_child hp).mpr (.inr refl))
      rw [range_add, filter_append, hnone, append_nil, range_succ, filter_append]
      simp [hself]
    obtain ⟨hchain, hhead⟩ := ih p hpc row (by omega) hrowp
    rw [hsplit]
    refine ⟨?_, ?_⟩
    · refine hchain.append (isChain_singleton c) ?_
      intro x hx y hy
      simp only [getLast?_append, getLast?_singleton, some_or, Option.mem_def, some.injEq] at hx
      cases hx
      cases hy
      exact hp
    · rw [head?_append, hhead]
      rfl

end OrderedTree

/-! ## Links -/

def firstLink : List Nat → Int
  | [] => -1
  | c :: _ => c

/-- `sib` threads the list: each node to the one after it, the last to `-1`. -/
def Linked (sib : Nat → Int) : List Nat → Prop
  | [] => True
  | c :: l => sib c = firstLink l ∧ Linked sib l

theorem Linked.congr {sib sib' : Nat → Int} : ∀ {l : List Nat}, (∀ c ∈ l, sib' c = sib c) → Linked sib l → Linked sib' l
  | [], _, _ => trivial
  | c :: _, h, hl =>
    ⟨(h c mem_cons_self).trans hl.1, Linked.congr (fun d hd => h d (mem_cons_of_mem c hd)) hl.2⟩

structure Encodes {n : Nat} (T : OrderedTree n) (next sib : Nat → Int) : Prop where
  first : ∀ p < n, next p = firstLink (T.kids p)
  linked : ∀ p < n, Linked sib (T.kids p)
  rootSib : 0 < n → sib 0 = -1

theorem Encodes.congr {n : Nat} {T : OrderedTree n} {next sib next' sib' : Nat → Int} (h : Encodes T next sib)
    (hnext : ∀ i < n, next' i = next i) (hsib : ∀ i < n, sib' i = sib i) : Encodes T next' sib' where
  first := fun p hp => (hnext p hp).trans (h.first p hp)
  linked := fun p hp => (h.linked p hp).congr fun c hc => hsib c (T.lt p c hc).2
  rootSib := fun h0 => (hsib 0 h0).trans (h.rootSib h0)

theorem firstLink_eq_neg_one : firstLink l = -1 ↔ l = [] := by
  cases l with
  | nil => simp [firstLink]
  | cons c l => simp [firstLink]

/-- `link` is the smallest element of `S`, `-1` when there is none. -/
def LeastLink (link : Int) (S : Nat → Prop) : Prop :=
  (link = -1 ∧ ∀ c, ¬ S c) ∨ ∃ c : Nat, link = c ∧ S c ∧ ∀ d, S d → c ≤ d

theorem LeastLink.firstLink {link : Int} {S : Nat → Prop} (h : LeastLink link S) : ∀ {l : List Nat}, l.Pairwise (· < ·) →
    (∀ c, c ∈ l ↔ S c) → link = firstLink l := by
  intro l hl hS
  cases l with
  | nil =>
    rcases h with ⟨h, -⟩ | ⟨c, -, hc, -⟩
    · exact h
    · cases (hS c).mpr hc
  | cons a l =>
    rcases h with ⟨-, h⟩ | ⟨c, h, hc, hle⟩
    · exact absurd ((hS a).mp mem_cons_self) (h a)
    have := hle a ((hS a).mp mem_cons_self)
    rcases mem_cons.mp ((hS c).mpr hc) with rfl | hm
    · exact h
    · have := (pairwise_cons.mp hl).1 c hm
      omega

theorem linked_of_least {sib : Nat → Int} {l : List Nat} (hl : l.Pairwise (· < ·))
    (h : ∀ c ∈ l, LeastLink (sib c) fun d => c < d ∧ d ∈ l) : Linked sib l := by
  induction l with
  | nil => trivial
  | cons a l ih =>
    obtain ⟨ha, hl⟩ := pairwise_cons.mp hl
    refine ⟨(h a mem_cons_self).firstLink hl fun d => ?_, ih hl fun c hc => ?_⟩
    · refine ⟨fun hd => ⟨ha d hd, mem_cons_of_mem a hd⟩, fun hd => ?_⟩
      rcases mem_cons.mp hd.2 with rfl | hm
      · exact absurd hd.1 (lt_irrefl _)
      · exact hm
    have hiff : (fun d => c < d ∧ d ∈ a :: l) = fun d => c < d ∧ d ∈ l := by
      funext d
      have := ha c hc
      simp only [mem_cons, eq_iff_iff]
      refine and_congr_right fun hd => or_iff_right (by omega)
    exact hiff ▸ h c (mem_cons_of_mem a hc)

/-- Links to the smallest child and to the next sibling in index order. -/
theorem encodes_of_least {n : Nat} {T : OrderedTree n} {next sib : Nat → Int} (hsorted : ∀ p, (T.kids p).Pairwise (· < ·))
    (hnext : ∀ p < n, LeastLink (next p) (· ∈ T.kids p))
    (hsib : ∀ c < n, LeastLink (sib c) fun d => c < d ∧ ∃ p, c ∈ T.kids p ∧ d ∈ T.kids p) : Encodes T next sib where
  first := fun p hp => (hnext p hp).firstLink (hsorted p) fun _ => Iff.rfl
  linked := by
    intro p _
    refine linked_of_least (hsorted p) fun c hc => ?_
    have hiff : (fun d => c < d ∧ ∃ q, c ∈ T.kids q ∧ d ∈ T.kids q) = fun d => c < d ∧ d ∈ T.kids p := by
      funext d
      simp only [eq_iff_iff]
      refine and_congr_right fun _ => ⟨fun h => ?_, fun h => ⟨p, hc, h⟩⟩
      obtain ⟨q, hq, hd⟩ := h
      exact T.unique q p c hq hc ▸ hd
    exact hiff ▸ hsib c (T.lt p c hc).2
  rootSib := by
    intro hn
    rcases hsib 0 hn with ⟨h, -⟩ | ⟨c, -, ⟨-, p, h0, -⟩, -⟩
    · exact h
    · exact absurd (T.lt p 0 h0).1 (not_lt_zero p)

/-! ## Walking the links -/

/-- The nodes reached from `i` along the links: the node, what is below it, what is after it. -/
def walk (next sib : Nat → Int) : Nat → Int → List Nat
  | 0, _ => []
  | fuel + 1, i => if i < 0 then [] else i.toNat :: (walk next sib fuel (next i.toNat) ++ walk next sib fuel (sib i.toNat))

section
variable {n : Nat} {T : OrderedTree n} {next sib : Nat → Int}

/-- No node is below two siblings. -/
theorem OrderedTree.above_sibling {d : Nat} (hc : c ∈ T.kids p) (hd : d ∈ T.kids p) (hcx : T.Above c x)
    (hdx : T.Above d x) : c = d := by
  have hnot : ∀ {a b : Nat}, a ∈ T.kids p → b ∈ T.kids p → T.Above a b → a = b := by
    intro a b ha hb hab
    rcases (T.above_child hb).mp hab with h | h
    · exact h
    have := T.above_le h
    have := (T.lt p a ha).1
    omega
  induction hcx with
  | refl => exact (hnot hd hc hdx).symm
  | tail hcq hqx ih =>
    rcases (T.above_child hqx).mp hdx with rfl | hdq
    · exact hnot hc hd (hcq.tail hqx)
    · exact ih hdq

theorem OrderedTree.above_head : T.Above c x ↔ x = c ∨ ∃ d ∈ T.kids c, T.Above d x := by
  constructor
  · intro h
    rcases cases_head h with e | ⟨d, hd, hdx⟩
    · exact .inl e.symm
    · exact .inr ⟨d, hd, hdx⟩
  · intro h
    rcases h with rfl | ⟨d, hd, hdx⟩
    · exact refl
    · exact head hd hdx

theorem OrderedTree.above_root (hx : x < n) : T.Above 0 x := by
  induction x using Nat.strong_induction_on with
  | _ x ih =>
    rcases Nat.eq_zero_or_pos x with rfl | hpos
    · exact refl
    obtain ⟨p, hp⟩ := T.covers x hpos hx
    have hlt := (T.lt p x hp).1
    exact (ih p hlt (by omega)).tail hp

/-- A walk that starts at the first of some siblings visits the nodes below them. -/
theorem walk_spec (h : Encodes T next sib) (hsorted : ∀ p, (T.kids p).Pairwise (· < ·)) (fuel p : Nat) (l : List Nat)
    (hl : ∀ c ∈ l, c ∈ T.kids p ∧ n < c + fuel) (hpw : l.Pairwise (· < ·)) (hlink : Linked sib l) :
    (walk next sib fuel (firstLink l)).Nodup ∧ ∀ x, x ∈ walk next sib fuel (firstLink l) ↔ ∃ c ∈ l, T.Above c x := by
  induction fuel generalizing p l with
  | zero =>
    cases l with
    | nil => simp [walk]
    | cons c l =>
      obtain ⟨hc, hlt⟩ := hl c mem_cons_self
      have := (T.lt p c hc).2
      omega
  | succ fuel ih =>
    cases l with
    | nil => simp [walk, firstLink]
    | cons c l =>
      obtain ⟨hc, hfuel⟩ := hl c mem_cons_self
      obtain ⟨hcl, hpw⟩ := pairwise_cons.mp hpw
      obtain ⟨hsib, hlink⟩ := hlink
      have hcn := (T.lt p c hc).2
      obtain ⟨hnd1, hmem1⟩ := ih c (T.kids c) (fun d hd => ⟨hd, by have := (T.lt c d hd).1; omega⟩) (hsorted c) (h.linked c hcn)
      obtain ⟨hnd2, hmem2⟩ := ih p l (fun d hd => ⟨(hl d (mem_cons_of_mem c hd)).1, by have := hcl d hd; omega⟩) hpw hlink
      rw [firstLink, walk, if_neg (by omega), Int.toNat_natCast, h.first c hcn, hsib]
      refine ⟨nodup_cons.mpr ⟨fun hm => ?_, nodup_append.mpr ⟨hnd1, hnd2, fun x hx y hy e => ?_⟩⟩, fun x => ?_⟩
      · rcases mem_append.mp hm with hm | hm
        · obtain ⟨d, hd, hdc⟩ := (hmem1 c).mp hm
          have := T.above_le hdc
          have := (T.lt c d hd).1
          omega
        obtain ⟨d, hd, hdc⟩ := (hmem2 c).mp hm
        have := T.above_le hdc
        have := hcl d hd
        omega
      · obtain ⟨d, hd, hdx⟩ := (hmem1 x).mp hx
        obtain ⟨d', hd', hdx'⟩ := (hmem2 y).mp hy
        have hcx : T.Above c x := T.above_head.mpr (.inr ⟨d, hd, hdx⟩)
        have := T.above_sibling hc (hl d' (mem_cons_of_mem c hd')).1 hcx (e ▸ hdx')
        have := hcl d' hd'
        omega
      · rw [mem_cons, mem_append, hmem1, hmem2, exists_mem_cons_iff, T.above_head, or_assoc]

/-- A walk from the root visits every node exactly once. -/
theorem walk_perm (h : Encodes T next sib) (hsorted : ∀ p, (T.kids p).Pairwise (· < ·)) (hn : 0 < n) :
    (walk next sib (n + 1) 0).Perm (range n) := by
  obtain ⟨hnd, hmem⟩ := walk_spec h hsorted n 0 (T.kids 0) (fun d hd => ⟨hd, by have := (T.lt 0 d hd).1; omega⟩) (hsorted 0)
    (h.linked 0 hn)
  have hwalk : walk next sib (n + 1) 0 = 0 :: walk next sib n (firstLink (T.kids 0)) := by
    have hend : walk next sib n (-1) = [] := by
      cases n with
      | zero => rfl
      | succ k => simp [walk]
    simp [walk, h.first 0 hn, h.rootSib hn, hend]
  rw [hwalk]
  refine (perm_ext_iff_of_nodup (nodup_cons.mpr ⟨fun hm => ?_, hnd⟩) nodup_range).mpr fun x => ?_
  · obtain ⟨d, hd, hd0⟩ := (hmem 0).mp hm
    have := T.above_le hd0
    have := (T.lt 0 d hd).1
    omega
  · rw [mem_cons, hmem, mem_range, ← T.above_head]
    refine ⟨fun hx => ?_, T.above_root⟩
    rcases cases_tail hx with rfl | ⟨q, -, hq⟩
    · exact hn
    · exact (T.lt q x hq).2

end

/-! ## The tree of a parent function -/

section
variable {n : Nat} {par : Nat → Nat}

def OrderedTree.ofParent (n : Nat) (par : Nat → Nat) (h : ∀ c, 0 < c → c < n → par c < c) : OrderedTree n where
  kids := fun p => (range' 1 (n - 1)).filter (fun c => par c = p)
  nodup := fun p => (nodup_range' ..).filter _
  lt := by
    intro p c hc
    simp only [mem_filter, mem_range'_1, decide_eq_true_eq] at hc
    obtain ⟨hc, rfl⟩ := hc
    exact ⟨h c (by omega) (by omega), by omega⟩
  unique := by
    intro p q c hp hq
    simp only [mem_filter, decide_eq_true_eq] at hp hq
    rw [← hp.2, hq.2]
  covers := fun c h0 hc => ⟨par c, mem_filter.mpr ⟨mem_range'_1.mpr ⟨h0, by omega⟩, by simp⟩⟩

theorem OrderedTree.mem_ofParent {h : ∀ c, 0 < c → c < n → par c < c} :
    c ∈ (ofParent n par h).kids p ↔ 0 < c ∧ c < n ∧ par c = p := by
  simp only [ofParent, mem_filter, mem_range'_1, decide_eq_true_eq]
  omega

theorem OrderedTree.ofParent_sorted {h : ∀ c, 0 < c → c < n → par c < c} (p : Nat) :
    ((ofParent n par h).kids p).Pairwise (· < ·) :=
  (pairwise_lt_range' ..).filter _

/-! ## Building the links -/

structure Links where
  next : Nat → Int
  sib : Nat → Int

/-- Node `i` in front of the children of `p`. -/
def Links.push (p i : Nat) (s : Links) : Links where
  next := upd s.next p i
  sib := if s.next p = -1 then s.sib else upd s.sib i (s.next p)

/-- Push the nodes `i, i - 1, .., 1`. -/
def Links.pushDown (par : Nat → Nat) : Nat → Links → Links
  | 0, s => s
  | i + 1, s => pushDown par i (s.push (par (i + 1)) (i + 1))

/-- The same links at the nodes below `n`. -/
def Links.Same (n : Nat) (s t : Links) : Prop := ∀ i < n, s.next i = t.next i ∧ s.sib i = t.sib i

theorem Links.Same.push {t : Links} (h : Links.Same n s t) (hp : p < n) : Links.Same n (s.push p i) (t.push p i) := by
  intro j hj
  simp only [Links.push, upd, (h p hp).1]
  constructor
  · split
    · rfl
    · exact (h j hj).1
  · split
    · exact (h j hj).2
    · simp [upd, (h j hj).2]

theorem Links.Same.pushDown (h : ∀ c, 0 < c → c < n → par c < c) (i : Nat) {s t : Links} (hi : i < n)
    (hst : Links.Same n s t) : Links.Same n (s.pushDown par i) (t.pushDown par i) := by
  induction i generalizing s t with
  | zero => exact hst
  | succ i ih =>
    exact ih (by omega) (hst.push ((h (i + 1) (succ_pos i) hi).trans hi))

/-- The nodes above `i` have been pushed. -/
structure Links.Pushed (n : Nat) (par : Nat → Nat) (i : Nat) (s : Links) : Prop where
  first : ∀ p < n, s.next p = firstLink ((range' (i + 1) (n - 1 - i)).filter (fun c => par c = p))
  linked : ∀ p < n, Linked s.sib ((range' (i + 1) (n - 1 - i)).filter (fun c => par c = p))
  rest : ∀ c ≤ i, c < n → s.sib c = -1

section
variable (h : ∀ c, 0 < c → c < n → par c < c)
include h

theorem Links.Pushed.push (hi : i + 1 < n) (hs : Pushed n par (i + 1) s) : Pushed n par i (s.push (par (i + 1)) (i + 1)) := by
  have hp : par (i + 1) < n := (h (i + 1) (by omega) hi).trans hi
  have hrange : range' (i + 1) (n - 1 - i) = (i + 1) :: range' (i + 1 + 1) (n - 1 - (i + 1)) := by
    rw [show n - 1 - i = n - 1 - (i + 1) + 1 by omega, range'_succ]
  -- the new node is not among those pushed before it
  have hsib : ∀ c, c ≠ i + 1 → (s.push (par (i + 1)) (i + 1)).sib c = s.sib c := by
    intro c hc
    simp only [Links.push]
    split
    · rfl
    · exact upd_ne _ _ hc
  have hold : ∀ p < n, Linked (s.push (par (i + 1)) (i + 1)).sib
      ((range' (i + 1 + 1) (n - 1 - (i + 1))).filter (fun c => par c = p)) := by
    intro p hpn
    refine (hs.linked p hpn).congr fun c hc => hsib c ?_
    have := (mem_filter.mp hc).1
    rw [mem_range'_1] at this
    omega
  refine ⟨fun p hpn => ?_, fun p hpn => ?_, fun c hc hcn => ?_⟩
  · rw [hrange, filter_cons]
    by_cases e : par (i + 1) = p
    · subst e
      simp [Links.push, firstLink]
    · simp only [e, decide_false, Bool.false_eq_true, if_false, Links.push, upd_ne _ _ (Ne.symm e)]
      exact hs.first p hpn
  · rw [hrange, filter_cons]
    by_cases e : par (i + 1) = p
    · subst e
      simp only [decide_true, if_true]
      refine ⟨?_, hold _ hp⟩
      rw [← hs.first _ hp]
      simp only [Links.push]
      split
      · rename_i hnone; rw [hnone]; exact hs.rest (i + 1) (le_refl _) hi
      · exact upd_same ..
    · simpa only [e, decide_false, Bool.false_eq_true, if_false] using hold p hpn
  · rw [hsib c (by omega)]
    exact hs.rest c (by omega) hcn

theorem Links.pushDown_pushed (i : Nat) (s : Links) (hi : i < n) (hs : Pushed n par i s) :
    Pushed n par 0 (s.pushDown par i) := by
  induction i generalizing s with
  | zero => exact hs
  | succ i ih => exact ih _ (by omega) (hs.push h hi)

/-- Pushing every node from empty links gives the links of the tree. -/
theorem Links.pushDown_encodes (hnext : ∀ p < n, s.next p = -1) (hsib : ∀ c < n, s.sib c = -1) :
    Encodes (OrderedTree.ofParent n par h) (s.pushDown par (n - 1)).next (s.pushDown par (n - 1)).sib := by
  rcases Nat.eq_zero_or_pos n with rfl | hn
  · exact ⟨fun p hp => absurd hp (not_lt_zero p), fun p hp => absurd hp (not_lt_zero p), fun h0 => absurd h0 (lt_irrefl 0)⟩
  have hstart : Pushed n par (n - 1) s :=
    ⟨fun p hp => by simpa [firstLink] using hnext p hp, fun p _ => by simp [Linked], fun c _ hc => hsib c hc⟩
  have hend := pushDown_pushed h (n - 1) s (by omega) hstart
  exact ⟨hend.first, hend.linked, fun _ => hend.rest 0 (le_refl 0) hn⟩

end

end

end DynaSpec.Lib
