/-
  DynaSpec.MemCache.SwaRadixMatch — what `match_prefix` of the SWA cache returns.

  The rule of the docstring is about the way to a node: it has no tombstone, or
  `sliding_window_size` tokens of it are below the last one (`Guaranteed`). The matcher goes
  along the way with one running length (`scanStep`), which it sets to zero only at a
  tombstone where the length has reached the window. `scanned_eq_iff`: so it finds the
  longest way with the guarantee exactly if the tokens behind that way that are not
  tombstones are fewer than the window, whatever tombstones are between them.

  `Inv.matchPrefixHelper`: the walk down the tree is that scan of the nodes it passes, and
  it keeps the invariant.
-/

import DynaSpec.MemCache.SwaRadixOps

namespace DynaSpec.MemCache.SwaRadix

open DynaSpec.Lib List Option RadixKey SwaCache Nat
open SwaCache.MatchWalk (goesOn)

/-! ## The rule -/

/-- A node of a way: whether it is a tombstone, and its number of tokens. -/
abbrev Mark : Type := Bool × Nat

/-- The tokens of a way below its last tombstone. -/
def tokensBelow (ms : List Mark) : Nat := ((ms.reverse.takeWhile fun m => !m.1).map Prod.snd).sum

/-- Without a tombstone, or with a window of tokens below the last one. -/
def Guaranteed (window : Nat) (ms : List Mark) : Prop := (∀ m ∈ ms, m.1 = false) ∨ window ≤ tokensBelow ms

/-- The tokens of a way that are not those of tombstones. -/
def looseTokens (ms : List Mark) : Nat := ((ms.filter fun m => !m.1).map Prod.snd).sum

instance (window : Nat) (ms : List Mark) : Decidable (Guaranteed window ms) := inferInstanceAs (Decidable (_ ∨ _))

theorem tokensBelow_snoc (ms : List Mark) (m : Mark) : tokensBelow (ms ++ [m]) = if m.1 then 0 else tokensBelow ms + m.2 := by
  unfold tokensBelow
  rw [reverse_append, reverse_singleton, singleton_append, takeWhile_cons]
  cases m.1 with
  | true => rfl
  | false =>
    simp only [Bool.not_false, if_true, map_cons, sum_cons, Bool.false_eq_true, if_false]
    exact add_comm _ _

variable {vs : List NodeId} {key : RadixKey} {r : Nat} {n : NodeId} {ms : List Mark} {w : MatchWalk}

theorem guaranteed_snoc {window : Nat} {m : Mark} (h : Guaranteed window ms) (hm : m.1 = false) :
    Guaranteed window (ms ++ [m]) := by
  rcases h with h | h
  · refine .inl fun k hk => ?_
    rcases mem_append.mp hk with hk | hk
    · exact h k hk
    · rw [mem_singleton.mp hk]
      exact hm
  · right
    rw [tokensBelow_snoc, hm, if_neg Bool.false_ne_true]
    omega

theorem looseTokens_cons (m : Mark) (ms : List Mark) : looseTokens (m :: ms) = (if m.1 then 0 else m.2) + looseTokens ms := by
  unfold looseTokens
  rw [filter_cons]
  cases m.1 with
  | true => simp
  | false => simp

/-! ## The scan -/

/-- The running length, the best way up to now and the way that was gone. -/
structure Scan where
  len : Option Nat
  best : Nat
  count : Nat

def scanStep (window : Nat) (σ : Scan) (m : Mark) : Scan :=
  if m.1 ∧ reachesWindow window σ.len then ⟨since (some 0) m.1 m.2, σ.count, σ.count + 1⟩
  else ⟨since σ.len m.1 m.2, σ.best, σ.count + 1⟩

def Scan.result (window : Nat) (σ : Scan) : Nat := if reachesWindow window σ.len then σ.count else σ.best

def scan (window : Nat) (ms : List Mark) : Scan := ms.foldl (scanStep window) ⟨none, 0, 0⟩

variable {window : Nat}

theorem scanStep_count (σ : Scan) (m : Mark) : (scanStep window σ m).count = σ.count + 1 := by
  unfold scanStep
  split_ifs <;> rfl

theorem scanStep_best_le {σ : Scan} (h : σ.best ≤ σ.count) (m : Mark) : (scanStep window σ m).best ≤ (scanStep window σ m).count ∧
    σ.best ≤ (scanStep window σ m).best := by
  unfold scanStep
  split_ifs
  · exact ⟨le_succ _, h⟩
  · exact ⟨le_succ_of_le h, le_refl _⟩

theorem foldl_count (ms : List Mark) (σ : Scan) : (ms.foldl (scanStep window) σ).count = σ.count + ms.length := by
  induction ms generalizing σ with
  | nil => rfl
  | cons m ms ih =>
    rw [foldl_cons, ih, scanStep_count, length_cons]
    omega

theorem foldl_best_le (ms : List Mark) {σ : Scan} (h : σ.best ≤ σ.count) :
    (ms.foldl (scanStep window) σ).best ≤ (ms.foldl (scanStep window) σ).count := by
  induction ms generalizing σ with
  | nil => exact h
  | cons m ms ih => exact ih (scanStep_best_le h m).1

theorem result_le {σ : Scan} (h : σ.best ≤ σ.count) : σ.best ≤ σ.result window ∧ σ.result window ≤ σ.count := by
  unfold Scan.result
  split_ifs
  · exact ⟨h, le_refl _⟩
  · exact ⟨le_refl _, h⟩

theorem best_le_result (ms : List Mark) {σ : Scan} (h : σ.best ≤ σ.count) :
    σ.best ≤ (ms.foldl (scanStep window) σ).result window := by
  induction ms generalizing σ with
  | nil => exact (result_le h).1
  | cons m ms ih => exact le_trans (scanStep_best_le h m).2 (ih (scanStep_best_le h m).1)

/-- A way at which the length reaches the window is not longer than the result. -/
theorem count_le_result (ms : List Mark) {σ : Scan} (h : σ.best ≤ σ.count) (hr : reachesWindow window σ.len = true) :
    σ.count ≤ (ms.foldl (scanStep window) σ).result window := by
  induction ms generalizing σ with
  | nil => rw [foldl_nil, Scan.result, if_pos hr]
  | cons m ms ih =>
    rw [foldl_cons]
    cases hm : m.1 with
    | true =>
      have hbest : (scanStep window σ m).best = σ.count := by rw [scanStep, if_pos ⟨hm, hr⟩]
      rw [← hbest]
      exact best_le_result ms (scanStep_best_le h m).1
    | false =>
      refine le_trans ?_ (ih (scanStep_best_le h m).1 ?_)
      · rw [scanStep_count]
        exact le_succ _
      rw [scanStep, if_neg (by simp [hm])]
      simp only [since, hm, Bool.false_eq_true, if_false]
      cases hlen : σ.len with
      | none => rfl
      | some a =>
        simp only [hlen, reachesWindow, all_some, decide_eq_true_eq, map_some] at hr ⊢
        omega

/-- From a length that has not reached the window, a better way comes as soon as enough tokens
    do, with or without tombstones between them. -/
theorem result_eq_best_iff (ms : List Mark) {a best count : Nat} (ha : a < window) (hlt : best < count) :
    (ms.foldl (scanStep window) ⟨some a, best, count⟩).result window = best ↔ a + looseTokens ms < window := by
  induction ms generalizing a count with
  | nil =>
    have hno : reachesWindow window (some a) = false := by simpa [reachesWindow] using ha
    simpa [Scan.result, hno, looseTokens] using ha
  | cons m ms ih =>
    have hno : reachesWindow window (some a) = false := by simpa [reachesWindow] using ha
    have hstep : scanStep window ⟨some a, best, count⟩ m = ⟨since (some a) m.1 m.2, best, count + 1⟩ := by
      rw [scanStep, if_neg (by simp [hno])]
    rw [foldl_cons, hstep, looseTokens_cons]
    cases m.1 with
    | true =>
      rw [if_pos rfl, zero_add]
      exact ih ha (by omega)
    | false =>
      rw [if_neg Bool.false_ne_true]
      by_cases hreach : a + m.2 < window
      · rw [← add_assoc]
        exact ih hreach (by omega)
      have hge : count + 1 ≤ (ms.foldl (scanStep window) ⟨some (a + m.2), best, count + 1⟩).result window := by
        refine count_le_result (σ := ⟨some (a + m.2), best, count + 1⟩) ms (by dsimp only; omega) ?_
        simpa [reachesWindow] using hreach
      refine iff_of_false (fun he => ?_) (by omega)
      rw [show since (some a) false m.2 = some (a + m.2) from rfl] at he
      omega

theorem scan_snoc (ms : List Mark) (m : Mark) : scan window (ms ++ [m]) = scanStep window (scan window ms) m :=
  foldl_concat _ _ _ _

theorem scan_count (window : Nat) (ms : List Mark) : (scan window ms).count = ms.length := (foldl_count ms _).trans (zero_add _)

/-- The running length is never less than the tokens below the last tombstone. -/
theorem scan_len (window : Nat) (ms : List Mark) : ((∀ m ∈ ms, m.1 = false) → (scan window ms).len = none) ∧ ∀ a,
    (scan window ms).len = some a → tokensBelow ms ≤ a := by
  induction ms using reverseRecOn with
  | nil => exact ⟨fun _ => rfl, nofun⟩
  | append_singleton ms m ih =>
    rw [scan_snoc, tokensBelow_snoc, scanStep]
    cases hm : m.1 with
    | true =>
      refine ⟨fun hall => ?_, fun a _ => zero_le a⟩
      have := hall m (mem_append_right _ (mem_singleton_self m))
      rw [hm] at this
      cases this
    | false =>
      simp only [Bool.false_eq_true, false_and, if_false, since]
      refine ⟨fun hall => ?_, fun a ha => ?_⟩
      · rw [ih.1 fun k hk => hall k (mem_append_left _ hk)]
        rfl
      · obtain ⟨b, hb, rfl⟩ := map_eq_some_iff.mp ha
        have := ih.2 b hb
        omega

theorem Guaranteed.reaches (h : Guaranteed window ms) : reachesWindow window (scan window ms).len = true := by
  obtain ⟨hnone, hsome⟩ := scan_len window ms
  cases hlen : (scan window ms).len with
  | none => rfl
  | some a =>
    rcases h with h | h
    · exact absurd (hlen.symm.trans (hnone h)) (by simp)
    have := hsome a hlen
    simp only [reachesWindow, all_some, decide_eq_true_eq]
    omega

/-- The length of the way that the matcher returns. -/
def scanned (window : Nat) (ms : List Mark) : Nat := (scan window ms).result window

theorem scan_split (ms : List Mark) (j : Nat) :
    scan window ms = (ms.drop j).foldl (scanStep window) (scan window (ms.take j)) := by
  conv_lhs => rw [← take_append_drop j ms]
  exact foldl_append

theorem scan_best_le (ms : List Mark) : (scan window ms).best ≤ (scan window ms).count := foldl_best_le ms (le_refl _)

theorem scanned_le (window : Nat) (ms : List Mark) : scanned window ms ≤ ms.length := by
  rw [← scan_count window ms]
  exact (result_le (scan_best_le ms)).2

theorem le_scanned {j : Nat} (hj : j ≤ ms.length) (h : Guaranteed window (ms.take j)) : j ≤ scanned window ms := by
  have := count_le_result (ms.drop j) (scan_best_le (ms.take j)) h.reaches
  rwa [← scan_split, scan_count, length_take, min_eq_left hj] at this

/-- The longest way with the guarantee is found exactly if fewer tokens than a window are behind it. -/
theorem scanned_eq_iff (hw : 0 < window) {j : Nat} (hj : j ≤ ms.length) (h : Guaranteed window (ms.take j))
    (hmax : ∀ i ≤ ms.length, Guaranteed window (ms.take i) → i ≤ j) : scanned window ms = j ↔
    looseTokens (ms.drop j) < window := by
  rcases eq_or_lt_of_le hj with hj | hj
  · have := scanned_le window ms
    have := le_scanned (le_of_eq hj) h
    rw [hj, drop_length]
    exact iff_of_true (by omega) hw
  -- the node behind it is a tombstone, at which the length begins again
  have hdrop := drop_eq_getElem_cons hj
  have htomb : ms[j].1 = true := by
    by_contra hno
    have := hmax (j + 1) hj (by
      rw [take_succ_eq_append_getElem hj]
      exact guaranteed_snoc h (by simpa using hno))
    omega
  have hcount : (scan window (ms.take j)).count = j := by
    rw [scan_count, length_take, min_eq_left (le_of_lt hj)]
  have hnext : scanStep window (scan window (ms.take j)) ms[j] = ⟨some 0, j, j + 1⟩ := by
    rw [scanStep, if_pos ⟨htomb, h.reaches⟩, hcount, since, if_pos htomb]
  have := result_eq_best_iff (ms.drop (j + 1)) hw (lt_succ_self j)
  rw [scanned, scan_split ms j, hdrop, foldl_cons, hnext, this, looseTokens_cons, if_pos htomb]

/-- Fewer tokens than a window, other than those of tombstones, are behind the longest way with the guarantee. -/
def FewBehind (window : Nat) (ms : List Mark) : Prop :=
  ∀ j ≤ ms.length, Guaranteed window (ms.take j) → (∀ i ≤ ms.length, Guaranteed window (ms.take i) → i ≤ j) →
    looseTokens (ms.drop j) < window

theorem guaranteed_scanned_iff (hw : 0 < window) (ms : List Mark) : Guaranteed window (ms.take (scanned window ms)) ↔
    FewBehind window ms := by
  have hle := scanned_le window ms
  constructor
  · intro h j hj hgj hmax
    obtain rfl : j = scanned window ms := le_antisymm (le_scanned hj hgj) (hmax _ hle h)
    exact (scanned_eq_iff hw hj hgj hmax).mp rfl
  intro h
  -- some way is the longest
  obtain ⟨j, hj, hgj, hmax⟩ : ∃ j ≤ ms.length, Guaranteed window (ms.take j) ∧ ∀ i ≤ ms.length,
    Guaranteed window (ms.take i) → i ≤ j := by
    have hzero : Guaranteed window (ms.take 0) := .inl fun m hm => absurd hm not_mem_nil
    refine ⟨findGreatest (fun i => Guaranteed window (ms.take i)) ms.length, findGreatest_le _, ?_, fun i hi hgi => ?_⟩
    · exact findGreatest_spec (P := fun i => Guaranteed window (ms.take i)) (zero_le _) hzero
    · exact le_findGreatest hi hgi
  rw [(scanned_eq_iff hw hj hgj hmax).mpr (h j hj hgj hmax)]
  exact hgj

/-! ## The nodes of a way -/

variable {pageSize : Nat} {s s' : SwaCache} {live live' : Finset NodeId} {path path' : NodeId → List ChildKey}
  {held : List Lock} {top : Nat → Nat}

def SwaCache.mark (s : SwaCache) (n : NodeId) : Mark := ((s.node n).swaTombstone, (s.node n).key.len)

/-- The key leads through the nodes `vs` to `n`, where `r` tokens are used up. -/
inductive Visits (s : SwaCache) (key : RadixKey) : List NodeId → NodeId → Nat → Prop where
  | root : Visits s key [] 0 0
  | child {vs : List NodeId} {p c : NodeId} {r : Nat} {x : ChildKey} : Visits s key vs p r → (s.node p).children.get? x = some c →
      (key.from_ r).upto (s.node c).key.len = (s.node c).key → Visits s key (vs ++ [c]) c (r + (s.node c).key.len)

open Visits (child root)

/-- No child goes on with the key. -/
def Stops (s : SwaCache) (key : RadixKey) (n : NodeId) (r : Nat) : Prop :=
  ∀ x c, (s.node n).children.get? x = some c → (key.from_ r).upto (s.node c).key.len ≠ (s.node c).key

/-- The nodes that a lookup passes, and the part of a last one that it shares with the key. -/
def Along (pageSize : Nat) (s : SwaCache) (key : RadixKey) (ms : List Mark) : Prop :=
  ∃ vs p r, Visits s key vs p r ∧
    ((ms = vs.map s.mark ∧ ((key.from_ r).len = 0 ∨ ∃ x, getChildKey pageSize (key.from_ r) = .ok x ∧
    (s.node p).children.get? x = none)) ∨
      ∃ x c k, 0 < (key.from_ r).len ∧ getChildKey pageSize (key.from_ r) = .ok x ∧ (s.node p).children.get? x = some c ∧
        keyMatchFn pageSize (s.node c).key (key.from_ r) = .ok k ∧ k < (s.node c).key.len ∧
        ms = vs.map s.mark ++ [((s.node c).swaTombstone, k)])

section
variable (h : Visits s key vs n r)
include h

theorem Visits.mem (w : Wf pageSize s live path) : n ∈ live ∧ ∀ v ∈ vs, v ∈ live ∧ v ≠ 0 ∧ path v <+: path n := by
  induction h with
  | root => exact ⟨w.shape.root_live, fun v hv => absurd hv not_mem_nil⟩
  | child _ hc _ ih =>
    obtain ⟨hp, hvs⟩ := ih
    obtain ⟨hclive, hc0, hcp, -⟩ := w.child hp hc
    have hpath : path _ <+: path _ := ⟨_, (w.shape.parent_lt hclive hc0 hcp).2.1.symm⟩
    refine ⟨hclive, fun v hv => ?_⟩
    rcases mem_append.mp hv with hv | hv
    · exact ⟨(hvs v hv).1, (hvs v hv).2.1, (hvs v hv).2.2.trans hpath⟩
    · rw [mem_singleton.mp hv]
      exact ⟨hclive, hc0, prefix_rfl⟩

/-- A way stays one as long as its nodes keep their parents and their keys. -/
theorem Visits.transfer (w : Wf pageSize s live path) (w' : Wf pageSize s' live' path')
    (hsame : ∀ v ∈ vs, v ∈ live' ∧ (s'.node v).parent = (s.node v).parent ∧ (s'.node v).key = (s.node v).key) :
    Visits s' key vs n r := by
  induction h with
  | root => exact root
  | child hvis hc hkey ih =>
    obtain ⟨hclive', hcp', hckey'⟩ := hsame _ (mem_append_right _ (mem_singleton_self _))
    obtain ⟨-, hc0, hcp, -⟩ := w.child (hvis.mem w).1 hc
    obtain ⟨q, x, -, -, hq, -, hx⟩ := w'.up hclive' hc0
    obtain rfl := some.inj (hq.symm.trans (hcp'.trans hcp))
    have hnext := child (ih fun v hv => hsame v (mem_append_left _ hv)) hx (by rw [hckey']; exact hkey)
    rwa [hckey'] at hnext

theorem Visits.of_node (hnode : s'.node = s.node) : Visits s' key vs n r := by
  induction h with
  | root => exact root
  | child _ hc hkey ih =>
    rw [← hnode] at hc hkey ⊢
    exact child ih hc hkey

theorem Visits.last : (0 :: vs)[vs.length]? = some n := by
  cases h with
  | root => rfl
  | child hvis hc hkey => simp

/-- Each beginning of a way is one. -/
theorem Visits.take : ∀ k ≤ vs.length, ∃ m q, Visits s key (vs.take k) m q ∧ (0 :: vs)[k]? = some m := by
  induction h with
  | root =>
    intro k hk
    obtain rfl := Nat.le_zero.mp hk
    exact ⟨0, 0, root, rfl⟩
  | @child vs p c r x hvis hc hkey ih =>
    intro k hk
    rcases lt_or_ge vs.length k with hlt | hle
    · have hk : k = (vs ++ [c]).length := by
        rw [length_append, length_singleton] at hk ⊢
        omega
      rw [hk, take_length]
      have hvis' := child hvis hc hkey
      exact ⟨c, _, hvis', hvis'.last⟩
    obtain ⟨m, q, hm, hget⟩ := ih k hle
    refine ⟨m, q, by rwa [take_append_of_le_length hle], ?_⟩
    rw [← cons_append, getElem?_append_left (by simpa using lt_succ_of_le hle)]
    exact hget

/-- `inc_lock_ref` needs what the rule says. -/
theorem Visits.toWindow (w : Wf pageSize s live path) : ∀ {k : Nat}, Guaranteed k (vs.map s.mark) → Window s k n := by
  induction h with
  | root => exact fun _ => Window.root
  | @child vs p c r x hvis hc hkey ih =>
    intro k hg
    obtain ⟨-, -, hcp, -⟩ := w.child (hvis.mem w).1 hc
    rw [map_append, map_singleton] at hg
    cases ht : (s.node c).swaTombstone with
    | true =>
      have hmark : (s.mark c).1 = true := ht
      obtain rfl : k = 0 := by
        rcases hg with hall | hle
        · have := hall (s.mark c) (mem_append_right _ (mem_singleton_self _))
          rw [hmark] at this
          cases this
        · rw [tokensBelow_snoc, if_pos hmark] at hle
          omega
      exact Window.done
    | false =>
      have hmark : (s.mark c).1 = false := ht
      refine Window.up ht hcp (ih ?_)
      rcases hg with hall | hle
      · exact .inl fun m hm => hall m (mem_append_left _ hm)
      right
      rw [tokensBelow_snoc, hmark, if_neg Bool.false_ne_true] at hle
      have : (s.mark c).2 = (s.node c).key.len := rfl
      omega

end

/-! ## `_match_prefix_helper` -/

/-- What the walk has noted of the nodes `vs`. -/
structure Noted (cfg : Config) (vs : List NodeId) (w : MatchWalk) : Prop where
  scan : scan cfg.slidingWindowSize (vs.map w.cache.mark) = ⟨w.matchLenSinceTombstone, w.bestValueLen, vs.length⟩
  value : w.value = vs.map fun v => (w.cache.node v).value
  best : (0 :: vs)[w.bestValueLen]? = some w.bestLastNode

/-- The walk is at a node, and the cache is as it was. -/
structure Going (cfg : Config) (s : SwaCache) (key : RadixKey) (w : MatchWalk) (vs : List NodeId) (r : Nat) : Prop where
  broke : w.broke = false
  cache : w.cache = s
  visits : Visits s key vs w.node r
  rest : w.key = key.from_ r
  dvd : cfg.pageSize ∣ w.key.len
  childKey : 0 < w.key.len → getChildKey cfg.pageSize w.key = .ok w.childKey
  noted : Noted cfg vs w

/-- The walk has come to its end. -/
structure Matched (cfg : Config) (s : SwaCache) (top : Nat → Nat) (held : List Lock) (key : RadixKey) (w : MatchWalk)
    (vs : List NodeId) (r : Nat) (live : Finset NodeId) (path : NodeId → List ChildKey) : Prop where
  inv : Inv cfg.pageSize w.cache live path none top held
  visits : Visits w.cache key vs w.node r
  stops : Stops w.cache key w.node r
  along : Along cfg.pageSize s key (vs.map w.cache.mark)
  noted : Noted cfg vs w

variable (cfg : Config)

theorem Going.matched (h : Inv cfg.pageSize s live path none top held) (hw : Going cfg s key w vs r) (hend : w.goesOn = false) :
    Matched cfg s top held key w vs r live path := by
  obtain ⟨hbroke, rfl, hvisits, hrest, hdvd, hck, hnoted⟩ := hw
  have hcases : w.key.len = 0 ∨ 0 < w.key.len ∧ (w.cache.node w.node).children.get? w.childKey = none := by
    simp only [goesOn, hbroke, Bool.not_false, Bool.true_and, Bool.and_eq_false_iff, decide_eq_false_iff_not] at hend
    rcases hend with hend | hend
    · exact .inl (by omega)
    rcases Nat.eq_zero_or_pos w.key.len with h0 | hpos
    · exact .inl h0
    · exact .inr ⟨hpos, by simpa using hend⟩
  refine ⟨h, hvisits, fun x c hc hkey => ?_, ⟨vs, w.node, r, hvisits, .inl ⟨rfl, ?_⟩⟩, hnoted⟩
  · obtain ⟨hclive, hc0, -, hcx⟩ := h.base.wf.child (hvisits.mem h.base.wf).1 hc
    have hcpos := h.base.wf.key_pos hclive hc0
    rw [← hrest] at hkey
    have hlen := congrArg len hkey
    have htake : (w.key.upto (w.cache.node c).key.len).len ≤ w.key.len := by
      simp only [len, tokenIds_upto, length_take]
      exact min_le_right _ _
    rcases hcases with h0 | ⟨hpos, hnone⟩
    · omega
    -- the child would be filed under the next page of the key
    have hps := cfg.pageSize_pos
    have hfirst := getChildKey_of_head hps (h.base.wf.aligned c hclive) hcx
    have hpage : cfg.pageSize ≤ (w.cache.node c).key.len := le_of_dvd hcpos (h.base.wf.aligned c hclive)
    have hx : x = w.childKey := by
      refine Except.ok.inj (((getChildKey_inj hfirst (ne_nil_of_length_pos hpos)).mpr ⟨?_, ?_⟩).symm.trans (hck hpos))
      · rw [← hkey]
        rfl
      · rw [← hkey, tokenIds_upto, take_take, min_eq_left hpage]
    rw [← hx, hc] at hnone
    cases hnone
  · rw [← hrest]
    rcases hcases with h0 | ⟨hpos, hnone⟩
    · exact .inl h0
    · exact .inr ⟨w.childKey, hck hpos, hnone⟩

/-- What a step notes before the child `c`: the scan behind it is known but for the child's tokens. -/
theorem Noted.tombstone (h : Noted cfg vs w) (hvisits : Visits w.cache key vs w.node r) (c : NodeId) :
    ∃ len best last,
    noteTombstone cfg w c = { w with matchLenSinceTombstone := len, bestValueLen := best, bestLastNode := last } ∧
      (0 :: vs)[best]? = some last ∧ ∀ m : Mark, m.1 = (w.cache.node c).swaTombstone →
        scanStep cfg.slidingWindowSize (SwaRadix.scan cfg.slidingWindowSize (vs.map w.cache.mark)) m =
          ⟨since len m.1 m.2, best, vs.length + 1⟩ := by
  have hcount : w.value.length = vs.length := by rw [h.value, length_map]
  unfold noteTombstone
  by_cases hreset : (w.cache.node c).swaTombstone = true ∧ reachesWindow cfg.slidingWindowSize w.matchLenSinceTombstone = true
  · rw [if_pos hreset]
    refine ⟨_, _, _, rfl, by rw [hcount]; exact hvisits.last, fun m hm => ?_⟩
    rw [scanStep, h.scan, if_pos ⟨hm.trans hreset.1, hreset.2⟩, hcount]
  · rw [if_neg hreset]
    refine ⟨_, _, _, rfl, h.best, fun m hm => ?_⟩
    rw [scanStep, h.scan, if_neg (by rw [hm]; exact hreset)]

/-- One more node is noted as the scan says. -/
theorem Noted.next {w' : MatchWalk} {c : NodeId} (h : Noted cfg vs w)
    (hold : ∀ v ∈ vs, w'.cache.mark v = w.cache.mark v ∧ (w'.cache.node v).value = (w.cache.node v).value)
    (hscan : scanStep cfg.slidingWindowSize (SwaRadix.scan cfg.slidingWindowSize (vs.map w.cache.mark)) (w'.cache.mark c) =
      ⟨w'.matchLenSinceTombstone, w'.bestValueLen, vs.length + 1⟩)
    (hbest : (0 :: vs)[w'.bestValueLen]? = some w'.bestLastNode) (hvalue : w'.value = w.value ++ [(w'.cache.node c).value]) :
    Noted cfg (vs ++ [c]) w' := by
  refine ⟨?_, ?_, ?_⟩
  · rw [map_append, map_singleton, map_congr_left fun v hv => (hold v hv).1, scan_snoc, hscan, length_append, length_singleton]
  · rw [map_append, map_singleton, map_congr_left fun v hv => (hold v hv).2, ← h.value, hvalue]
  · rw [← cons_append, getElem?_append_left (List.getElem?_eq_some_iff.mp hbest).1]
    exact hbest

/-- The walk is before the child `c`, with which the rest of the key shares `k` tokens. -/
structure Before (cfg : Config) (s : SwaCache) (key : RadixKey) (w : MatchWalk) (vs : List NodeId) (r : Nat) (c : NodeId)
    (k : Nat) : Prop
    extends Going cfg s key w vs r where
  pos : 0 < w.key.len
  child : (s.node w.node).children.get? w.childKey = some c
  shared : keyMatchFn cfg.pageSize (s.node c).key w.key = .ok k
  shared_dvd : cfg.pageSize ∣ k
  shared_pos : 0 < k
  le_child : k ≤ (s.node c).key.len
  upto : w.key.upto k = (s.node c).key.upto k
  agrees : Agrees cfg.pageSize (s.node c).key.tokenIds w.key.tokenIds k

variable {c : NodeId} {k : Nat} {x y : ChildKey}

theorem Going.before (b : Base cfg.pageSize s live path none) (hw : Going cfg s key w vs r) (hgo : w.goesOn = true) :
    ∃ c k, Before cfg s key w vs r c k := by
  have hcache := hw.cache
  subst hcache
  simp only [goesOn, hw.broke, Bool.not_false, Bool.true_and, Bool.and_eq_true, decide_eq_true_eq, isSome_iff_exists] at hgo
  obtain ⟨hpos, c, hc⟩ := hgo
  obtain ⟨k, hk, hkdvd, hk0, hkc, -, hextra, hagrees⟩ :=
    b.wf.keyMatch cfg.pageSize_pos (hw.visits.mem b.wf).1 hc hpos hw.dvd (hw.childKey hpos)
  refine ⟨c, k, hw, hpos, hc, hk, hkdvd, hk0, hkc, ?_, hagrees⟩
  show (⟨w.key.tokenIds.take k, w.key.extraKey⟩ : RadixKey) = ⟨(w.cache.node c).key.tokenIds.take k,
    (w.cache.node c).key.extraKey⟩
  rw [hagrees.take_eq, hextra]

section
variable (h : Inv cfg.pageSize s live path none top held) (hb : Before cfg s key w vs r c k)
include hb

theorem Before.from_eq (i : Nat) : w.key.from_ i = key.from_ (r + i) := by
  rw [hb.rest]
  simp [from_, drop_drop]

include h

/-- The child is passed. -/
theorem Before.whole (hall : k = (s.node c).key.len) :
    ∃ w', matchStep cfg w = .ok w' ∧ w'.key.len < w.key.len ∧ Going cfg s key w' (vs ++ [c]) (r + k) := by
  have hcache := hb.cache
  subst hcache
  obtain ⟨len, best, last, hnote, hbest, hscan⟩ := hb.noted.tombstone cfg hb.visits c
  obtain ⟨ck, hck, hck'⟩ := nextChildKey_ok cfg (w.key.from_ k) w.childKey
  have hlen : (w.key.from_ k).len = w.key.len - k := length_drop
  have hvisits : Visits w.cache key (vs ++ [c]) c (r + k) := by
    rw [hall]
    refine Visits.child hb.visits hb.child ?_
    rw [← hb.rest, ← hall, hb.upto, hall]
    show (⟨(w.cache.node c).key.tokenIds.take (w.cache.node c).key.tokenIds.length, (w.cache.node c).key.extraKey⟩ : RadixKey) = _
    rw [take_length]
  refine ⟨{ w with
      node := c
      key := w.key.from_ k
      childKey := ck
      value := w.value ++ [(w.cache.node c).value]
      matchLenSinceTombstone := since len (w.cache.node c).swaTombstone (w.cache.node c).value.length
      bestValueLen := best
      bestLastNode := last }, ?_, ?_, hb.broke, rfl, hvisits, hb.from_eq cfg k, ?_, hck', ?_⟩
  · unfold matchStep
    rw [hb.child]
    simp only [hnote, hb.shared, ok_bind]
    rw [if_neg (by omega), hck]
    rfl
  · have := hb.pos
    have := hb.shared_pos
    dsimp only
    omega
  · dsimp only
    rw [hlen]
    exact dvd_sub hb.dvd hb.shared_dvd
  · refine hb.noted.next cfg (fun _ _ => ⟨rfl, rfl⟩) ?_ hbest rfl
    rw [hscan _ rfl, h.base.wf.values c (hvisits.mem h.base.wf).1]
    rfl

/-- Where a child is cut, its rest and the rest of the key differ in the next page. -/
theorem Before.stops_cut (hcut : Cut s s' w.node c x y k) (hpart : k < (s.node c).key.len) : Stops s' key s.counter (r + k) := by
  intro z d hd hkey
  obtain ⟨hclive, -, -, -⟩ := h.base.wf.child (hb.visits.mem h.base.wf).1 hb.child
  rw [hcut.2.2, if_pos rfl] at hd
  obtain rfl : c = d := by
    rw [Dict.get?_set] at hd
    split_ifs at hd
    · exact some.inj hd
    · cases hd
  rw [← hb.from_eq, hcut.2.2, if_neg (h.base.wf.ne_counter hclive), if_pos rfl] at hkey
  have hlen := congrArg len hkey
  have htokens := congrArg tokenIds hkey
  simp only [len, tokenIds_upto, tokenIds_from, length_take, length_drop] at hlen htokens hpart
  rcases hb.agrees.stops with hstop | hstop
  · have : min (s.node c).key.tokenIds.length w.key.tokenIds.length ≤ k := hstop
    omega
  have haligned : cfg.pageSize ∣ (s.node c).key.tokenIds.length := h.base.wf.aligned c hclive
  have hpage : cfg.pageSize ≤ (s.node c).key.tokenIds.length - k := le_of_dvd (by omega) (dvd_sub haligned hb.shared_dvd)
  have htake := congrArg (take cfg.pageSize) htokens
  rw [take_take, min_eq_left hpage] at htake
  exact hstop htake.symm

/-- The child is cut where the key leaves it, and the walk ends at the new node. -/
theorem Before.cut (hpart : k < (s.node c).key.len) :
    ∃ w', matchStep cfg w = .ok w' ∧ w'.broke = true ∧ ∃ vs' r' live' path',
    Matched cfg s top held key w' vs' r' live' path' := by
  have hcache := hb.cache
  subst hcache
  have b := h.base
  obtain ⟨hnode, hvs⟩ := hb.visits.mem b.wf
  obtain ⟨hclive, hc0, hcp, -⟩ := b.wf.child hnode hb.child
  obtain ⟨-, -, hshort⟩ := b.wf.shape.parent_lt hclive hc0 hcp
  obtain ⟨len, best, last, hnote, hbest, hscan⟩ := hb.noted.tombstone cfg hb.visits c
  obtain ⟨s', y, hs', hcut, h'⟩ := h.split cfg hnode hb.child hb.shared_dvd hb.shared_pos hpart
  have hnew := (hcut.2.2 w.cache.counter).trans (if_pos rfl)
  -- the child is not on the way that was gone
  have hold : ∀ v ∈ vs, Kept (s'.node v) (w.cache.node v) := by
    intro v hv
    refine hcut.kept (b.wf.ne_counter (hvs v hv).1) ?_
    rintro rfl
    have := (hvs v hv).2.2.length_le
    omega
  have hmark : ∀ v ∈ vs, s'.mark v = w.cache.mark v := fun v hv => by
    unfold mark
    rw [(hold v hv).tombstone, (hold v hv).key]
  have hnewLen : (s'.node w.cache.counter).key.len = k := by
    rw [hnew]
    simp only [RadixKey.len, tokenIds_upto, length_take] at hpart ⊢
    omega
  have hvisits : Visits s' key (vs ++ [w.cache.counter]) w.cache.counter (r + k) := by
    have hgone : Visits s' key vs w.node r := hb.visits.transfer b.wf h'.base.wf fun v hv =>
      ⟨Finset.mem_insert_of_mem (hvs v hv).1, (hold v hv).parent, (hold v hv).key⟩
    have hpc : w.node ≠ c := fun he => by
      rw [he] at hshort
      exact lt_irrefl _ hshort
    have hparent := (hcut.2.2 w.node).trans ((if_neg (b.wf.ne_counter hnode)).trans ((if_neg hpc).trans (if_pos rfl)))
    have := Visits.child (x := w.childKey) (c := w.cache.counter) hgone
      (by rw [hparent]; exact (Dict.get?_set _ _ _ _).trans (if_pos rfl))
      (by rw [hnewLen, ← hb.rest, hb.upto, hnew])
    rwa [hnewLen] at this
  refine ⟨{ w with
      cache := s'
      node := w.cache.counter
      value := w.value ++ [(s'.node w.cache.counter).value]
      matchLenSinceTombstone := since len (s'.node w.cache.counter).swaTombstone (s'.node w.cache.counter).value.length
      bestValueLen := best
      bestLastNode := last
      broke := true }, ?_, rfl, _, _, _, _, h', hvisits, hb.stops_cut cfg h hcut hpart, ?_, ?_⟩
  · unfold matchStep
    rw [hb.child]
    simp only [hnote, hb.shared, ok_bind]
    rw [if_pos hpart, hs']
    rfl
  · -- what the walk has passed can be read off the cache before
    refine ⟨vs, w.node, r, hb.visits, .inr ⟨w.childKey, c, k, ?_, ?_, hb.child, ?_, hpart, ?_⟩⟩
    · rw [← hb.rest]
      exact hb.pos
    · rw [← hb.rest]
      exact hb.childKey hb.pos
    · rw [← hb.rest]
      exact hb.shared
    · dsimp only
      rw [map_append, map_singleton, map_congr_left hmark]
      congr 2
      unfold mark
      rw [hnewLen, hnew]
  · refine hb.noted.next cfg (fun v hv => ⟨hmark v hv, (hold v hv).value⟩) ?_ hbest rfl
    rw [hscan _ (by simp only [mark, hnew])]
    dsimp only
    rw [h'.base.wf.values _ (Finset.mem_insert_self _ _)]
    rfl

end

theorem matchStep_spec (h : Inv cfg.pageSize s live path none top held) (hw : Going cfg s key w vs r) (hgo : w.goesOn = true) :
    ∃ w' vs' r', matchStep cfg w = .ok w' ∧ ((Going cfg s key w' vs' r' ∧ w'.key.len < w.key.len) ∨
      (w'.broke = true ∧ ∃ live' path', Matched cfg s top held key w' vs' r' live' path')) := by
  obtain ⟨c, k, hb⟩ := hw.before cfg h.base hgo
  rcases lt_or_eq_of_le hb.le_child with hpart | hall
  · obtain ⟨w', hs', hbroke, vs', r', hm⟩ := hb.cut cfg h hpart
    exact ⟨w', vs', r', hs', .inr ⟨hbroke, hm⟩⟩
  · obtain ⟨w', hs', hlt, hw'⟩ := hb.whole cfg h hall
    exact ⟨w', _, _, hs', .inl ⟨hw', hlt⟩⟩

theorem noteEnd_spec (h : Noted cfg vs w) (hvisits : Visits w.cache key vs w.node r) :
    (noteEnd cfg w).cache = w.cache ∧ (noteEnd cfg w).value = w.value ∧
      (noteEnd cfg w).bestValueLen = scanned cfg.slidingWindowSize (vs.map w.cache.mark) ∧
      (0 :: vs)[scanned cfg.slidingWindowSize (vs.map w.cache.mark)]? = some (noteEnd cfg w).bestLastNode := by
  have hcount : w.value.length = vs.length := by rw [h.value, length_map]
  unfold noteEnd
  by_cases hr : reachesWindow cfg.slidingWindowSize w.matchLenSinceTombstone = true
  · have hscanned : scanned cfg.slidingWindowSize (vs.map w.cache.mark) = vs.length := by
      rw [scanned, h.scan]
      exact if_pos hr
    rw [if_pos hr, hscanned]
    exact ⟨rfl, rfl, hcount, hvisits.last⟩
  have hscanned : scanned cfg.slidingWindowSize (vs.map w.cache.mark) = w.bestValueLen := by
    rw [scanned, h.scan]
    exact if_neg hr
  rw [if_neg hr, hscanned]
  exact ⟨rfl, rfl, rfl, h.best⟩

/-- What a lookup returns: the slots of the way that the scan finds, and the node at its end. -/
structure Found (cfg : Config) (s : SwaCache) (key : RadixKey) (s' : SwaCache) (value : List (List Nat)) (n : NodeId)
    (vs : List NodeId) (last : NodeId) (r : Nat) : Prop where
  visits : Visits s' key vs last r
  stops : Stops s' key last r
  along : Along cfg.pageSize s key (vs.map s'.mark)
  node : (0 :: vs)[scanned cfg.slidingWindowSize (vs.map s'.mark)]? = some n
  value : value = (vs.take (scanned cfg.slidingWindowSize (vs.map s'.mark))).map fun v => (s'.node v).value

theorem Inv.matchPrefixHelper (h : Inv cfg.pageSize s live path none top held) (hdvd : cfg.pageSize ∣ key.len)
    {ck : ChildKey} (hck : getChildKey cfg.pageSize key = .ok ck) :
    ∃ s' value n vs last r live' path', matchPrefixHelper cfg s key = .ok (s', value, n) ∧
    Inv cfg.pageSize s' live' path' none top held ∧
      Found cfg s key s' value n vs last r := by
  obtain ⟨w, m, hrun, hw, hend⟩ := whileLoop_bound PyError.outOfFuel goesOn (matchStep cfg)
    (fun w m => ∃ vs r, (Going cfg s key w vs r ∧ m = w.key.len) ∨
    (w.broke = true ∧ ∃ live' path', Matched cfg s top held key w vs r live' path'))
    (by
      intro w m hw hgo
      obtain ⟨vs, r, ⟨hw, rfl⟩ | ⟨hbroke, -⟩⟩ := hw
      · obtain ⟨w', vs', r', hs', ⟨hw', hlt⟩ | hw'⟩ := matchStep_spec cfg h hw hgo
        · exact ⟨w', _, hs', ⟨vs', r', .inl ⟨hw', rfl⟩⟩, hlt⟩
        · refine ⟨w', 0, hs', ⟨vs', r', .inr hw'⟩, ?_⟩
          simp only [goesOn, Bool.and_eq_true, decide_eq_true_eq] at hgo
          exact hgo.1.2
      · simp [goesOn, hbroke] at hgo)
    key.len { cache := s, node := 0, key, childKey := ck, bestLastNode := 0 } _
    ⟨[], 0, .inl ⟨⟨rfl, rfl, root, rfl, hdvd, fun _ => hck, ⟨rfl, rfl, rfl⟩⟩, rfl⟩⟩ (le_refl _)
  obtain ⟨vs, r, live', path', hm⟩ : ∃ vs r live' path', Matched cfg s top held key w vs r live' path' := by
    obtain ⟨vs, r, ⟨hw, -⟩ | ⟨-, live', path', hw⟩⟩ := hw
    · exact ⟨vs, r, live, path, hw.matched cfg h hend⟩
    · exact ⟨vs, r, live', path', hw⟩
  obtain ⟨hcache, hvalue, hbest, hnode⟩ := noteEnd_spec cfg hm.noted hm.visits
  obtain ⟨n, q, hvis, hn⟩ := hm.visits.take (scanned cfg.slidingWindowSize (vs.map w.cache.mark)) (by
    have := scanned_le cfg.slidingWindowSize (vs.map w.cache.mark)
    rwa [length_map] at this)
  obtain rfl : n = (noteEnd cfg w).bestLastNode := some.inj (hn.symm.trans hnode)
  obtain ⟨s', hs', b', hnodes, huuid⟩ := hm.inv.base.refreshLists (hvis.mem hm.inv.base.wf).1
  have hmark : s'.mark = w.cache.mark := by
    unfold mark
    rw [hnodes]
  refine ⟨s', (noteEnd cfg w).value.take (noteEnd cfg w).bestValueLen, (noteEnd cfg w).bestLastNode, vs, w.node, r, live', path',
    ?_, hm.inv.of_node b' hnodes huuid, hm.visits.of_node hnodes, ?_, ?_, ?_, ?_⟩
  · unfold SwaCache.matchPrefixHelper
    simp only [hck, hrun, hcache, hs', ok_bind]
    rfl
  · unfold Stops
    rw [hnodes]
    exact hm.stops
  · rw [hmark]
    exact hm.along
  · rw [hmark]
    exact hnode
  · rw [hmark, hvalue, hbest, hm.noted.value, hnodes, map_take]

end DynaSpec.MemCache.SwaRadix
