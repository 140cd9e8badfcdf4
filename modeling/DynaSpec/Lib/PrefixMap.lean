/-
  DynaSpec.Lib.PrefixMap — what a paged prefix cache is for.

  A map from a namespace and a non-empty list of whole pages to what is stored for the last
  of these pages, with every shorter list of a stored one stored too. `longest` and
  `lookup` are the answers to a query; `insert` adds the pages of a key that are missing
  and leaves the others as they are.
-/

import Mathlib.Data.List.Infix
import Mathlib.Data.Nat.Find

namespace DynaSpec.Lib

open List Nat

/-- What `w` holds for the page that ends at position `n`. -/
def lastPage {α : Type} (pageSize : Nat) (w : List α) (n : Nat) : List α := (w.take n).drop (n - pageSize)

section
variable {α : Type} {pageSize : Nat}

theorem length_lastPage {w : List α} {n : Nat} (h : pageSize ≤ n) (hn : n ≤ w.length) :
    (lastPage pageSize w n).length = pageSize := by
  unfold lastPage
  rw [length_drop, length_take]
  omega

theorem lastPage_of_take_eq {w w' : List α} {n : Nat} (h : w.take n = w'.take n) :
    lastPage pageSize w n = lastPage pageSize w' n := by
  unfold lastPage
  rw [h]

/-- The last page of a list that agrees with `w` from `r` on, when the page lies past `r`. -/
theorem lastPage_append_drop {x w : List α} {n r : Nat} (hx : x.length = r) (h : r + pageSize ≤ n) :
    lastPage pageSize (x ++ w.drop r) n = lastPage pageSize w n := by
  unfold lastPage
  rw [drop_take, drop_take, drop_append, drop_of_length_le (by omega), nil_append, drop_drop]
  congr 2
  omega

theorem flatMap_lastPage (w : List α) (t : Nat) :
    ((range t).flatMap fun i => lastPage pageSize w ((i + 1) * pageSize)) = w.take (t * pageSize) := by
  induction t with
  | zero => simp
  | succ t ih =>
    rw [range_succ, flatMap_append, ih, flatMap_singleton]
    unfold lastPage
    have hlen : (t + 1) * pageSize - pageSize = t * pageSize := by rw [succ_mul]; omega
    have htake : w.take (t * pageSize) = (w.take ((t + 1) * pageSize)).take (t * pageSize) := by
      rw [take_take, min_eq_left (mul_le_mul_right _ (le_succ t))]
    rw [hlen, htake, take_append_drop]

end

structure PrefixMap (E τ α : Type) (pageSize : Nat) where
  get : E → List τ → Option (List α)
  shape : ∀ {e p v}, get e p = some v → p ≠ [] ∧ pageSize ∣ p.length ∧ v.length = pageSize
  closed : ∀ {e p q v}, get e p = some v → q <+: p → q ≠ [] → pageSize ∣ q.length → ∃ u, get e q = some u

namespace PrefixMap

variable {E τ α : Type} {pageSize : Nat} (m : PrefixMap E τ α pageSize)

variable (e : E) (k : List τ)

/-- The number of pages of the longest stored part of `k`. -/
def pages : Nat :=
  findGreatest (fun i => (m.get e (k.take (i * pageSize))).isSome) (k.length / pageSize)

def longest : Nat := m.pages e k * pageSize

def lookup : List α :=
  (List.range (m.pages e k)).flatMap fun i => (m.get e (k.take ((i + 1) * pageSize))).getD []

theorem longest_le_iff (hps : 0 < pageSize) {n : Nat} :
    m.longest e k ≤ n ↔ ∀ p v, p <+: k → m.get e p = some v → p.length ≤ n := by
  unfold longest
  constructor
  · intro hle p v hpre hv
    obtain ⟨-, ⟨i, hi⟩, -⟩ := m.shape hv
    rw [Nat.mul_comm] at hi
    rw [prefix_iff_eq_take.mp hpre, hi] at hv
    have hik : i ≤ m.pages e k :=
      le_findGreatest ((le_div_iff_mul_le hps).mpr (hi ▸ hpre.length_le)) (by rw [hv]; rfl)
    exact hi ▸ (mul_le_mul_right _ hik).trans hle
  · intro h
    by_cases h0 : m.pages e k = 0
    · rw [h0, Nat.zero_mul]
      exact n.zero_le
    obtain ⟨v, hv⟩ := Option.isSome_iff_exists.mp (findGreatest_of_ne_zero rfl h0)
    have hlen : m.pages e k * pageSize ≤ k.length := (le_div_iff_mul_le hps).mp (findGreatest_le _)
    rw [← min_eq_left hlen, ← length_take]
    exact h _ v ( take_prefix _ _) hv

def empty : PrefixMap E τ α pageSize := ⟨fun _ _ => none, by simp, by simp⟩

/-- One map holds nothing that the other does not. -/
instance : LE (PrefixMap E τ α pageSize) := ⟨fun m m' => ∀ e p v, m.get e p = some v → m'.get e p = some v⟩

variable [DecidableEq E] [DecidableEq τ]

def insert (e : E) (k : List τ) (v : List α) (hv : v.length = k.length) : PrefixMap E τ α pageSize where
  get e' p :=
    match m.get e' p with
    | some u => some u
    | none => if e' = e ∧ p <+: k ∧ p ≠ [] ∧ pageSize ∣ p.length then some (lastPage pageSize v p.length) else none
  shape := by
    intro e' p u h
    split at h
    · rename_i hu
      exact m.shape (h ▸ hu)
    split at h
    · rename_i hp
      obtain ⟨-, hpk, hp0, hdvd⟩ := hp
      cases h
      exact ⟨hp0, hdvd, length_lastPage (le_of_dvd (List.length_pos_iff.mpr hp0) hdvd) (hv ▸ hpk.length_le)⟩
    · cases h
  closed := by
    intro e' p q u h hqp hq0 hdvd
    split at h
    · rename_i hu
      obtain ⟨u', hu'⟩ := m.closed hu hqp hq0 hdvd
      exact ⟨u', by rw [hu']⟩
    split at h
    · rename_i hp
      cases hq : m.get e' q with
      | some u' => exact ⟨u', rfl⟩
      | none => exact ⟨_, if_pos ⟨hp.1, hqp.trans hp.2.1, hq0, hdvd⟩⟩
    · cases h

variable {m}

theorem get_insert {e e' : E} {k p : List τ} {v u : List α} {hv : v.length = k.length} :
    (m.insert e k v hv).get e' p = some u ↔ m.get e' p = some u ∨
      (m.get e' p = none ∧ e' = e ∧ p <+: k ∧ p ≠ [] ∧ pageSize ∣ p.length ∧ u = lastPage pageSize v p.length) := by
  unfold insert
  dsimp only
  cases m.get e' p with
  | some u' => simp
  | none =>
    by_cases h : e' = e ∧ p <+: k ∧ p ≠ [] ∧ pageSize ∣ p.length
    · simp [h, eq_comm]
    simp only [if_neg h, reduceCtorEq, true_and, false_or, false_iff]
    rintro ⟨h1, h2, h3, h4, -⟩
    exact h ⟨h1, h2, h3, h4⟩

omit [DecidableEq E] [DecidableEq τ] in
theorem pages_eq (hps : 0 < pageSize) {e : E} {k : List τ} {t : Nat} (hle : t * pageSize ≤ k.length)
    (hat : t ≠ 0 → ∃ v, m.get e (k.take (t * pageSize)) = some v)
    (hnext : (t + 1) * pageSize ≤ k.length → m.get e (k.take ((t + 1) * pageSize)) = none) : m.pages e k = t := by
  refine Nat.findGreatest_eq_iff.mpr ⟨(le_div_iff_mul_le hps).mpr hle, fun h0 => ?_, fun {i} hti hik => ?_⟩
  · obtain ⟨v, hv⟩ := hat h0
    rw [hv]
    rfl
  intro hsome
  obtain ⟨v, hv⟩ := Option.isSome_iff_exists.mp hsome
  have hik' := (le_div_iff_mul_le hps).mp hik
  have hle' : (t + 1) * pageSize ≤ i * pageSize := mul_le_mul_right _ hti
  have hlen : (k.take ((t + 1) * pageSize)).length = (t + 1) * pageSize := by
    rw [length_take]
    omega
  obtain ⟨u, hu⟩ := m.closed hv (take_prefix_take_left hle') (by
    refine length_pos_iff.mp ?_
    rw [hlen]
    exact Nat.mul_pos (Nat.succ_pos t) hps) (by
    rw [hlen]
    exact Nat.dvd_mul_left _ _)
  rw [hnext (hle'.trans hik')] at hu
  cases hu

omit [DecidableEq E] [DecidableEq τ] in
theorem lookup_eq {e : E} {k : List τ} {w : List α} (hlen : w.length = m.longest e k)
    (h : ∀ i < m.pages e k, m.get e (k.take ((i + 1) * pageSize)) = some (lastPage pageSize w ((i + 1) * pageSize))) :
    m.lookup e k = w := by
  have hw : w.take (m.pages e k * pageSize) = w := take_of_length_le (le_of_eq hlen)
  rw [← hw, ← flatMap_lastPage w (m.pages e k)]
  refine flatMap_congr fun i hi => ?_
  rw [h i (mem_range.mp hi), Option.getD_some]

end PrefixMap

end DynaSpec.Lib
