/-
  DynaSpec.Speculative.DraftTree — how the EAGLE draft steps choose the candidates of the
  draft tree: `select_top_k_tokens` (srt/speculative/spec_utils.py), the loop of
  `EAGLEWorker.draft_forward` and `organize_draft_results` (srt/speculative/eagle_utils.py).

  All three work on each request's rows alone, so they are read for one request. A step
  expands each of the `topk` beam entries by its `topk` best tokens; the candidate of
  step `i >= 1` with beam entry `r` and rank `c` has the flat index
  `topk + topk^2 * (i - 1) + r * topk + c`, those of step 0 the indices below `topk`.
  `draftBeams` names the candidates that are the beam of each step, and
  `candidateParent` is the beam entry a candidate was expanded from.

  - `parentList_lookup`: entry `f / topk` of `parent_list` is the parent of candidate `f`.
  - `candidateParent_lt`: a parent has a smaller flat index.
  - `topScoresIndex_sorted`, `topScoresIndex_lt`, `topScoresIndex_length`: the selected
    candidates are `num_draft_token - 1` distinct ones in increasing order.
  - `closedUnderParents_iff`: with probabilities for scores, every way to break ties selects
    each candidate with its parent just when the cut is not among the candidates with the
    score of a candidate and its parent; `child_without_parent` is the smallest failure.
-/

import DynaSpec.Lib.Gather
import DynaSpec.Lib.TopK
import Mathlib.Tactic.Ring

namespace DynaSpec.Speculative.DraftTree

open DynaSpec.Lib List
open Nat (mod_lt succ_ne_zero)

/-- One request's rows of a step's top-k tables: one row at step 0, then one for each beam entry. -/
structure TopkTables (σ H : Type) where
  topkP : List (List σ)
  topkIndex : List (List Int)
  hiddenStates : List H

structure TopkTables.Shaped {σ H : Type} (rows topk : Nat) (t : TopkTables σ H) : Prop where
  pRows : t.topkP.length = rows
  pCols : ∀ p ∈ t.topkP, p.length = topk
  indexRows : t.topkIndex.length = rows
  indexCols : ∀ p ∈ t.topkIndex, p.length = topk

structure TreeInfo (σ : Type) where
  scores : List σ
  tokens : List Int
  parents : List Int

structure Selected (σ H : Type) where
  inputIds : List Int
  hiddenStates : List H
  scores : List σ
  treeInfo : TreeInfo σ

structure DraftResults where
  parentList : List Int
  topScoresIndex : List Nat
  draftTokens : List Int

/-- What a draft run of one request computes with: a beam of `topk` over `steps` steps,
    the tables of the first step and those the draft model's later calls return.
    `fast_topk` is `torch.max` for one entry and `torch.topk` for more. -/
structure Draft (σ H : Type) [LinearOrder σ] (topk steps : Nat) where
  fastTopk : TopK σ
  torchTopk : TopK σ
  first : TopkTables σ H
  forward : Nat → List Int → List H → TopkTables σ H
  topk_pos : 0 < topk
  steps_pos : 0 < steps
  first_shaped : first.Shaped 1 topk
  forward_shaped : ∀ i ids hidden, (forward i ids hidden).Shaped topk topk

section
variable {σ H : Type} [LinearOrder σ] [Mul σ] [Zero σ] [Inhabited H] {topk steps : Nat}

/-! ## The code -/

/-- `expand_scores`, flattened. -/
def expandScores (scores : List σ) (topkP : List (List σ)) : List σ :=
  (zipWith (fun s p => p.map (s * ·)) scores topkP).flatten

def selectTopKTokens (d : Draft σ H topk steps) (i : Nat) (t : TopkTables σ H) (scores : List σ) : Selected σ H :=
  if i = 0 then
    { inputIds := t.topkIndex.flatten
      hiddenStates := t.hiddenStates.flatMap (replicate topk)
      scores := t.topkP.flatten
      treeInfo := ⟨t.topkP.flatten, t.topkIndex.flatten, (range (topk + 1)).map fun j : Nat => (j : Int) - 1⟩ }
  else
    let expand := expandScores scores t.topkP
    let topkCsIndex := d.fastTopk.run expand topk
    let topkIndex := t.topkIndex.flatten
    { inputIds := gatherD 0 topkIndex topkCsIndex
      hiddenStates := gatherD default t.hiddenStates (topkCsIndex.map (· / topk))
      scores := gatherD 0 expand topkCsIndex
      treeInfo := ⟨expand, topkIndex, topkCsIndex.map fun j : Nat => (j : Int) + (topk ^ 2 * (i - 1) + topk : Nat)⟩ }

/-- The loop of `draft_forward` from step `i` on, with the steps left. After the last step
    there is no forward call: its tables go unused. -/
def draftLoop (d : Draft σ H topk steps) : Nat → Nat → TopkTables σ H → List σ → List (TreeInfo σ)
  | 0, _, _, _ => []
  | left + 1, i, t, scores =>
    let sel := selectTopKTokens d i t scores
    sel.treeInfo :: draftLoop d left (i + 1) (d.forward i sel.inputIds sel.hiddenStates) sel.scores

def organizeDraftResults (torchTopk : TopK σ) (infos : List (TreeInfo σ)) (numDraftToken : Nat) : DraftResults :=
  let scoreList := infos.flatMap (·.scores)
  let ssTokenList := infos.flatMap (·.tokens)
  let topScoresIndex := (torchTopk.run scoreList (numDraftToken - 1)).insertionSort (· ≤ ·)
  { parentList := if 1 < infos.length then infos.dropLast.flatMap (·.parents) else []
    topScoresIndex := topScoresIndex
    draftTokens := gatherD 0 ssTokenList topScoresIndex }

def draftInfos (d : Draft σ H topk steps) : List (TreeInfo σ) := draftLoop d steps 0 d.first []

def draftForward (d : Draft σ H topk steps) (numDraftToken : Nat) : DraftResults :=
  organizeDraftResults d.torchTopk (draftInfos d) numDraftToken

/-! ## Beams and parents -/

/-- The flat indices of the candidates that step `i` keeps as its beam. -/
def beam (d : Draft σ H topk steps) (i : Nat) (t : TopkTables σ H) (scores : List σ) : List Nat :=
  if i = 0 then range topk
  else (d.fastTopk.run (expandScores scores t.topkP) topk).map (topk + topk ^ 2 * (i - 1) + ·)

def beamLoop (d : Draft σ H topk steps) : Nat → Nat → TopkTables σ H → List σ → List (List Nat)
  | 0, _, _, _ => []
  | left + 1, i, t, scores =>
    let sel := selectTopKTokens d i t scores
    beam d i t scores :: beamLoop d left (i + 1) (d.forward i sel.inputIds sel.hiddenStates) sel.scores

def draftBeams (d : Draft σ H topk steps) : List (List Nat) := beamLoop d steps 0 d.first []

/-- The beam entry that candidate `f` was expanded from; `none` for the root. -/
def candidateParent (d : Draft σ H topk steps) (f : Nat) : Option Nat :=
  if f < topk then none
  else ((draftBeams d)[(f - topk) / topk ^ 2]?).bind fun entries => entries[(f - topk) % topk ^ 2 / topk]?

/-! ## Rows of equal length -/

theorem length_flatten_rows {α : Type} {k : Nat} {rows : List (List α)} (h : ∀ l ∈ rows, l.length = k) :
    rows.flatten.length = rows.length * k := by
  rw [length_flatten, map_congr_left h, map_const', sum_replicate_nat]

/-! ## The loop -/

/-- What holds at the start of step `i`. -/
structure Ready (d : Draft σ H topk steps) (i : Nat) (t : TopkTables σ H) (scores : List σ) : Prop where
  first : i = 0 → t.Shaped 1 topk
  later : 0 < i → t.Shaped topk topk ∧ scores.length = topk

variable {t : TopkTables σ H} {scores : List σ} {d : Draft σ H topk steps} {f : Nat} {i : Nat}

omit [LinearOrder σ] [Zero σ] [Inhabited H] in
theorem expandScores_rows (ht : t.Shaped topk topk) : ∀ l ∈ zipWith (fun s p => p.map (s * ·)) scores t.topkP,
    l.length = topk := by
  intro l hl
  obtain ⟨j, hj, rfl⟩ := getElem_of_mem hl
  rw [getElem_zipWith, length_map]
  exact ht.pCols _ (getElem_mem _)

omit [LinearOrder σ] [Zero σ] [Inhabited H] in
theorem expandScores_length (ht : t.Shaped topk topk) (hs : scores.length = topk) :
    (expandScores scores t.topkP).length = topk ^ 2 := by
  rw [expandScores, length_flatten_rows (expandScores_rows ht), length_zipWith, hs, ht.pRows, min_self, sq]

omit [Zero σ] [Inhabited H] in
theorem run_expandScores (d : Draft σ H topk steps) (ht : t.Shaped topk topk)
    (hs : scores.length = topk) : (d.fastTopk.run (expandScores scores t.topkP) topk).length = topk ∧
      ∀ j ∈ d.fastTopk.run (expandScores scores t.topkP) topk, j < topk ^ 2 := by
  have hlen := expandScores_length ht hs
  refine ⟨d.fastTopk.length _ _ ?_, fun j hj => hlen ▸ d.fastTopk.lt _ _ j hj⟩
  rw [hlen, sq]
  exact Nat.le_mul_of_pos_left topk d.topk_pos

theorem Ready.next (h : Ready d i t scores) :
    Ready d (i + 1) (d.forward i (selectTopKTokens d i t scores).inputIds (selectTopKTokens d i t scores).hiddenStates)
      (selectTopKTokens d i t scores).scores where
  first := fun h0 => absurd h0 (succ_ne_zero i)
  later := by
    intro _
    refine ⟨d.forward_shaped .., ?_⟩
    unfold selectTopKTokens
    split
    · rename_i h0
      have := h.first h0
      rw [length_flatten_rows this.pCols, this.pRows, one_mul]
    obtain ⟨ht, hs⟩ := h.later (by omega)
    simp only [gatherD, length_map]
    exact (run_expandScores d ht hs).1

/-- The candidates before step `i`. -/
def firstCandidate (topk i : Nat) : Nat := if i = 0 then 0 else topk + topk ^ 2 * (i - 1)

theorem treeInfo_scores_length (h : Ready d i t scores) :
    firstCandidate topk i + (selectTopKTokens d i t scores).treeInfo.scores.length = firstCandidate topk (i + 1) := by
  unfold selectTopKTokens
  split
  · rename_i h0
    have := h.first h0
    simp only [length_flatten_rows this.pCols, this.pRows, h0, firstCandidate, one_mul, if_true]
    simp
  rename_i h0
  obtain ⟨ht, hs⟩ := h.later (by omega)
  simp only [expandScores_length ht hs, firstCandidate, h0, if_false, succ_ne_zero]
  obtain ⟨i, rfl⟩ := Nat.exists_eq_succ_of_ne_zero h0
  simp only [Nat.succ_eq_add_one, Nat.add_sub_cancel]
  ring

omit [Zero σ] [Inhabited H] in
theorem beam_spec (h : Ready d i t scores) :
    (beam d i t scores).length = topk ∧ ∀ f ∈ beam d i t scores, f < firstCandidate topk (i + 1) := by
  unfold beam
  split
  · rename_i h0
    simp [h0, firstCandidate]
  obtain ⟨ht, hs⟩ := h.later (by omega)
  obtain ⟨hlen, hlt⟩ := run_expandScores d ht hs
  refine ⟨by rw [length_map]; exact hlen, fun f hf => ?_⟩
  obtain ⟨j, hj, rfl⟩ := mem_map.mp hf
  have := hlt j hj
  rename_i h0
  obtain ⟨i, rfl⟩ := Nat.exists_eq_succ_of_ne_zero h0
  simp only [firstCandidate, succ_ne_zero, if_false, Nat.succ_eq_add_one, Nat.add_sub_cancel, Nat.mul_succ]
  omega

variable (d : Draft σ H topk steps)

/-- The tables and scores that step `i` starts with. -/
def stateAt : Nat → TopkTables σ H × List σ
  | 0 => (d.first, [])
  | i + 1 =>
    let sel := selectTopKTokens d i (stateAt i).1 (stateAt i).2
    (d.forward i sel.inputIds sel.hiddenStates, sel.scores)

def step (i : Nat) : Selected σ H := selectTopKTokens d i (stateAt d i).1 (stateAt d i).2

def stepBeam (i : Nat) : List Nat := beam d i (stateAt d i).1 (stateAt d i).2

theorem ready_stateAt (i : Nat) : Ready d i (stateAt d i).1 (stateAt d i).2 := by
  induction i with
  | zero => exact ⟨fun _ => d.first_shaped, fun h => absurd h (lt_irrefl 0)⟩
  | succ i ih => exact ih.next

theorem draftInfos_eq : draftInfos d = (range steps).map fun i => (step d i).treeInfo := by
  have h : ∀ left i, draftLoop d left i (stateAt d i).1 (stateAt d i).2 = (range' i left).map fun i => (step d i).treeInfo := by
    intro left
    induction left with
    | zero => intro i; rfl
    | succ left ih =>
      intro i
      rw [range'_succ, map_cons, ← ih (i + 1)]
      rfl
  rw [range_eq_range']
  exact h steps 0

theorem draftBeams_eq : draftBeams d = (range steps).map (stepBeam d) := by
  have h : ∀ left i, beamLoop d left i (stateAt d i).1 (stateAt d i).2 = (range' i left).map (stepBeam d) := by
    intro left
    induction left with
    | zero => intro i; rfl
    | succ left ih =>
      intro i
      rw [range'_succ, map_cons, ← ih (i + 1)]
      rfl
  rw [range_eq_range']
  exact h steps 0

theorem draftBeams_get (h : i < steps) : (draftBeams d)[i]? = some (stepBeam d i) := by
  rw [draftBeams_eq, getElem?_map, getElem?_range h, Option.map_some]

/-- The parents a step appends are the flat indices of its beam; step 0 puts the root before them. -/
theorem treeInfo_parents (i : Nat) (t : TopkTables σ H) (scores : List σ) : (selectTopKTokens d i t scores).treeInfo.parents =
      (if i = 0 then [-1] else []) ++ (beam d i t scores).map Int.ofNat := by
  unfold selectTopKTokens beam
  split
  · simp only [range_succ_eq_map, map_cons, map_map, singleton_append]
    congr 1
    exact map_congr_left fun j _ => by simp
  simp only [map_map, nil_append]
  refine map_congr_left fun j _ => ?_
  simp only [Function.comp_apply, Int.ofNat_eq_natCast]
  push_cast
  ring

/-! ## Parents -/

/-- The candidates of the steps before `i`. -/
theorem scores_length (i : Nat) : ((range i).flatMap fun j => (step d j).treeInfo.scores).length = firstCandidate topk i := by
  induction i with
  | zero => rfl
  | succ i ih =>
    rw [range_succ, flatMap_append, length_append, ih, flatMap_singleton]
    exact treeInfo_scores_length (ready_stateAt d i)

theorem candidates_length : ((draftInfos d).flatMap (·.scores)).length = firstCandidate topk steps := by
  rw [draftInfos_eq, flatMap_map]
  exact scores_length d steps

theorem parentList_eq (nd : Nat) (h : 1 < steps) :
    (draftForward d nd).parentList = -1 :: (draftBeams d).dropLast.flatten.map Int.ofNat := by
  obtain ⟨m, rfl⟩ : ∃ m, steps = m + 1 + 1 := ⟨steps - 2, by omega⟩
  have hparents : ∀ n, (range (n + 1)).flatMap (fun i => (step d i).treeInfo.parents) =
      -1 :: (((range (n + 1)).map (stepBeam d)).flatten.map Int.ofNat) := by
    intro n
    induction n with
    | zero => simpa [step, stepBeam] using treeInfo_parents d 0 (stateAt d 0).1 (stateAt d 0).2
    | succ n ih =>
      rw [range_succ, flatMap_append, ih, flatMap_singleton, map_append, flatten_append, map_append, step, treeInfo_parents]
      simp [stepBeam]
  simp only [draftForward, organizeDraftResults]
  rw [draftInfos_eq, length_map, length_range, if_pos h, draftBeams_eq, range_succ, map_append, map_append, map_singleton,
    map_singleton, dropLast_concat, dropLast_concat, flatMap_map]
  exact hparents m

/-- Where candidate `f` is in the grid of its step. -/
theorem div_topk (h : 0 < topk) (hf : topk ≤ f) : f / topk = (f - topk) / topk ^ 2 * topk + (f - topk) % topk ^ 2 / topk + 1 := by
  obtain ⟨a, rfl⟩ := Nat.exists_eq_add_of_le hf
  rw [Nat.add_div_left _ h, Nat.add_sub_cancel_left, sq]
  congr 1
  rw [Nat.mod_mul_right_div_self, ← Nat.div_div_eq_div_mul, mul_comm, Nat.div_add_mod]

theorem draftBeams_at (hf : topk ≤ f) (hlt : f < firstCandidate topk steps) :
    (f - topk) / topk ^ 2 < steps - 1 ∧ ∃ entries, (draftBeams d)[(f - topk) / topk ^ 2]? = some entries ∧
      entries.length = topk ∧ (∀ q ∈ entries, q < f) ∧ (f - topk) % topk ^ 2 / topk < topk := by
  have hk := d.topk_pos
  have hk2 : 0 < topk ^ 2 := Nat.pow_pos hk
  have hi : (f - topk) / topk ^ 2 < steps - 1 := by
    rw [Nat.div_lt_iff_lt_mul hk2, mul_comm]
    have := d.steps_pos
    simp only [firstCandidate, show steps ≠ 0 by omega, if_false] at hlt
    omega
  obtain ⟨hl, hb⟩ := beam_spec (ready_stateAt d ((f - topk) / topk ^ 2))
  refine ⟨hi, _, draftBeams_get d (by omega), hl, fun q hq => ?_, ?_⟩
  · have := hb q hq
    have hmul := Nat.div_mul_le_self (f - topk) (topk ^ 2)
    rw [mul_comm] at hmul
    simp only [firstCandidate, succ_ne_zero, if_false, Nat.add_sub_cancel] at this
    omega
  · rw [Nat.div_lt_iff_lt_mul hk, ← sq]
    exact mod_lt _ hk2

theorem candidateParent_lt (hf : topk ≤ f) (hlt : f < firstCandidate topk steps) : ∃ q, candidateParent d f = some q ∧ q < f := by
  obtain ⟨-, entries, he, hlen, hq, hr⟩ := draftBeams_at d hf hlt
  have hr' : (f - topk) % topk ^ 2 / topk < entries.length := hr.trans_eq hlen.symm
  refine ⟨entries.get ⟨_, hr'⟩, ?_, hq _ (get_mem ..)⟩
  rw [candidateParent, if_neg (by omega), he, Option.bind_some, getElem?_eq_getElem hr']
  rfl

variable {d} in
theorem lt_of_candidateParent {q : Nat} (hlt : f < firstCandidate topk steps) (hq : candidateParent d f = some q) :
    topk ≤ f ∧ q < f := by
  have hf : topk ≤ f := by
    by_contra hf
    rw [candidateParent, if_pos (Nat.lt_of_not_le hf)] at hq
    cases hq
  obtain ⟨q', hq', hlt⟩ := candidateParent_lt d hf hlt
  exact ⟨hf, Option.some.inj (hq.symm.trans hq') ▸ hlt⟩

/-- Entry `f / topk` of the parent list is the parent of candidate `f`. -/
theorem parentList_lookup (nd : Nat) (hf : topk ≤ f) (hlt : f < firstCandidate topk steps) :
    (draftForward d nd).parentList[f / topk]? = (candidateParent d f).map Int.ofNat := by
  obtain ⟨hi, entries, he, hlen, hq, hr⟩ := draftBeams_at d hf hlt
  have hrows : ∀ l ∈ (draftBeams d).dropLast, l.length = topk := by
    intro l hl
    have hl := dropLast_subset _ hl
    rw [draftBeams_eq] at hl
    obtain ⟨j, -, rfl⟩ := mem_map.mp hl
    exact (beam_spec (ready_stateAt d j)).1
  have hsteps : 0 < steps - 1 := Nat.zero_lt_of_lt hi
  have hi' : (f - topk) / topk ^ 2 < (draftBeams d).length - 1 := by rwa [draftBeams_eq, length_map, length_range]
  rw [parentList_eq d nd (by omega), div_topk d.topk_pos hf, getElem?_cons_succ, getElem?_map,
    getElem?_flatten_rows hr _ hrows, getElem?_dropLast, if_pos hi', candidateParent, if_neg (by omega)]

/-! ## The selected candidates -/

theorem topScoresIndex_sorted (nd : Nat) : (draftForward d nd).topScoresIndex.Pairwise (· < ·) := by
  have hle := pairwise_insertionSort (· ≤ ·) (d.torchTopk.run ((draftInfos d).flatMap (·.scores)) (nd - 1))
  have hnd : (draftForward d nd).topScoresIndex.Nodup :=
    (perm_insertionSort _ _).nodup_iff.mpr (d.torchTopk.nodup _ _)
  refine (hle.and hnd).imp fun h => ?_
  omega

theorem topScoresIndex_lt (nd : Nat) : ∀ f ∈ (draftForward d nd).topScoresIndex, f < firstCandidate topk steps := by
  intro f hf
  rw [← candidates_length d]
  exact d.torchTopk.lt _ _ f ((perm_insertionSort _ _).mem_iff.mp hf)

theorem topScoresIndex_length {nd : Nat} (h : nd - 1 ≤ firstCandidate topk steps) :
    (draftForward d nd).topScoresIndex.length = nd - 1 := by
  rw [← candidates_length d] at h
  exact (perm_insertionSort _ _).length_eq.trans (d.torchTopk.length _ _ h)

/-! ## Scores along a path -/

/-- The scores of all candidates. -/
def scoreList : List σ := (draftInfos d).flatMap (·.scores)

theorem scoreList_at {x : Nat} (hi : i < steps) (hx : x < (step d i).treeInfo.scores.length) :
    (scoreList d)[firstCandidate topk i + x]? = (step d i).treeInfo.scores[x]? := by
  -- the candidates of the steps after `i` come behind
  have h : ∀ n, i < n → ((range n).flatMap fun j => (step d j).treeInfo.scores)[firstCandidate topk i + x]? =
      (step d i).treeInfo.scores[x]? := by
    intro n hn
    induction n, hn using Nat.le_induction with
    | base =>
      rw [range_succ, flatMap_append, getElem?_append_right (by rw [scores_length]; omega), scores_length,
        Nat.add_sub_cancel_left, flatMap_singleton]
    | succ n _ ih =>
      rw [range_succ, flatMap_append, getElem?_append_left, ih]
      exact (List.getElem?_eq_some_iff.mp (ih.trans (getElem?_eq_getElem hx))).1
  rw [scoreList, draftInfos_eq, flatMap_map]
  exact h steps hi

omit [LinearOrder σ] [Zero σ] [Inhabited H] in
/-- An expanded score is a beam entry's score times one of its probabilities. -/
theorem expandScores_at (hk : 0 < topk) (ht : t.Shaped topk topk) {y : Nat} {z : σ}
    (h : (expandScores scores t.topkP)[y]? = some z) :
    ∃ a p, scores[y / topk]? = some a ∧ z = a * p ∧ ∃ row ∈ t.topkP, p ∈ row := by
  rw [expandScores, ← Nat.div_add_mod' y topk, getElem?_flatten_rows (mod_lt y hk) _ (expandScores_rows ht),
    getElem?_zipWith] at h
  obtain ⟨l, hl, hz⟩ := Option.bind_eq_some_iff.mp h
  cases hs : scores[y / topk]? with
  | none => rw [hs] at hl; cases hl
  | some a =>
    cases hp : t.topkP[y / topk]? with
    | none => rw [hs, hp] at hl; cases hl
    | some row =>
      rw [hs, hp] at hl
      cases hl
      obtain ⟨p, hpr, rfl⟩ := Option.map_eq_some_iff.mp (getElem?_map.symm.trans hz)
      exact ⟨a, p, rfl, rfl, row, mem_of_getElem? hp, mem_of_getElem? hpr⟩

/-- A step's scores are those of the candidates of its beam. -/
theorem scores_beam {r : Nat} {a : σ} (h : (step d i).scores[r]? = some a) :
    ∃ x, (stepBeam d i)[r]? = some (firstCandidate topk i + x) ∧ (step d i).treeInfo.scores[x]? = some a := by
  have hready := ready_stateAt d i
  unfold step selectTopKTokens at h ⊢
  unfold stepBeam beam firstCandidate
  by_cases h0 : i = 0
  · have hs := hready.first h0
    simp only [h0, if_true] at h hs ⊢
    have hlt := (List.getElem?_eq_some_iff.mp h).1
    rw [length_flatten_rows hs.pCols, hs.pRows, one_mul] at hlt
    exact ⟨r, by rw [getElem?_range hlt, zero_add], h⟩
  simp only [h0, if_false, gatherD, getElem?_map] at h ⊢
  obtain ⟨x, hx, rfl⟩ := Option.map_eq_some_iff.mp h
  have hlt := d.fastTopk.lt _ _ x (mem_of_getElem? hx)
  exact ⟨x, by rw [hx]; rfl, by rw [getElem?_eq_getElem hlt, getD_eq_getElem _ _ hlt]⟩

end

section
variable {H : Type} [Inhabited H] {topk steps : Nat} {d : Draft ℚ H topk steps}

/-- What the draft model returns are probabilities. -/
structure Probabilities (d : Draft ℚ H topk steps) : Prop where
  first : ∀ row ∈ d.first.topkP, ∀ p ∈ row, 0 ≤ p ∧ p ≤ 1
  forward : ∀ i ids hidden, ∀ row ∈ (d.forward i ids hidden).topkP, ∀ p ∈ row, 0 ≤ p ∧ p ≤ 1

theorem Probabilities.nonneg (h : Probabilities d) (i : Nat) : ∀ z ∈ (step d i).treeInfo.scores, 0 ≤ z := by
  induction i with
  | zero =>
    intro z hz
    obtain ⟨row, hrow, hz⟩ := mem_flatten.mp hz
    exact (h.first row hrow z hz).1
  | succ i ih =>
    intro z hz
    obtain ⟨y, hy⟩ := mem_iff_getElem?.mp hz
    obtain ⟨a, p, ha, rfl, row, hrow, hp⟩ := expandScores_at d.topk_pos ((ready_stateAt d (i + 1)).later i.succ_pos).1 hy
    obtain ⟨x, -, hx⟩ := scores_beam d ha
    exact mul_nonneg (ih a (mem_of_getElem? hx)) (h.forward _ _ _ row hrow p hp).1

/-- A candidate's score is at most its parent's. -/
theorem Probabilities.score_le (h : Probabilities d) {f q : Nat} (hf : f < firstCandidate topk steps)
    (hq : candidateParent d f = some q) :
    ∃ a z, (scoreList d)[q]? = some a ∧ (scoreList d)[f]? = some z ∧ z ≤ a := by
  have hk := (lt_of_candidateParent hf hq).1
  have hi := (draftBeams_at d hk hf).1
  rw [candidateParent, if_neg (Nat.not_lt.mpr hk)] at hq
  -- `f` is entry `y` of step `i + 1`
  generalize hi' : (f - topk) / topk ^ 2 = i at hi hq
  generalize hy : (f - topk) % topk ^ 2 = y at hq
  have hfy : firstCandidate topk (i + 1) + y = f := by
    have := Nat.div_add_mod (f - topk) (topk ^ 2)
    rw [hi', hy] at this
    simp only [firstCandidate, succ_ne_zero, if_false, Nat.add_sub_cancel]
    omega
  obtain ⟨ht, hs⟩ := (ready_stateAt d (i + 1)).later i.succ_pos
  have hylt : y < (step d (i + 1)).treeInfo.scores.length := by
    rw [show (step d (i + 1)).treeInfo.scores = expandScores _ _ from rfl, expandScores_length ht hs, ← hy]
    exact mod_lt _ (Nat.pow_pos d.topk_pos)
  have hz := getElem?_eq_getElem hylt
  obtain ⟨a, p, ha, hap, row, hrow, hp⟩ := expandScores_at d.topk_pos ht hz
  obtain ⟨x, hx, hxa⟩ := scores_beam d ha
  rw [draftBeams_get d (by omega), Option.bind_some, hx] at hq
  refine ⟨a, _, ?_, (hfy ▸ scoreList_at d (by omega) hylt).trans hz, ?_⟩
  · rw [← Option.some.inj hq, scoreList_at d (by omega) (List.getElem?_eq_some_iff.mp hxa).1, hxa]
  · rw [hap]
    exact mul_le_of_le_one_right (h.nonneg i a (mem_of_getElem? hxa)) (h.forward _ _ _ row hrow p hp).2

/-- With each selected candidate its parent is selected. -/
def ClosedUnderParents (d : Draft ℚ H topk steps) (torchTopk : TopK ℚ) (numDraftToken : Nat) : Prop :=
  let selected := (organizeDraftResults torchTopk (draftInfos d) numDraftToken).topScoresIndex
  ∀ f ∈ selected, ∀ q, candidateParent d f = some q → q ∈ selected

theorem closedUnderParents_iff (hp : Probabilities d) (nd : Nat) (hlen : nd - 1 ≤ firstCandidate topk steps) :
    (∀ torchTopk, ClosedUnderParents d torchTopk nd) ↔ ∀ f q s, candidateParent d f = some q →
      (scoreList d)[f]? = some s → (scoreList d)[q]? = some s →
        nd - 1 ≤ (scoreList d).countP (s < ·) ∨ (scoreList d).countP (s ≤ ·) ≤ nd - 1 := by
  have hN : (scoreList d).length = firstCandidate topk steps := candidates_length d
  have hmem : ∀ (T : TopK ℚ) g, g ∈ (organizeDraftResults T (draftInfos d) nd).topScoresIndex ↔
    g ∈ T.run (scoreList d) (nd - 1) :=
    fun T g => (perm_insertionSort _ _).mem_iff
  have htie : ∀ {f q s}, candidateParent d f = some q → (scoreList d)[f]? = some s → (scoreList d)[q]? = some s → _ :=
    fun hq hf => TopK.forall_mem_iff (hN ▸ hlen) (lt_of_candidateParent (hN ▸ (List.getElem?_eq_some_iff.mp hf).1) hq).2.ne' hf
  constructor
  · intro h f q s hq hf hs
    refine (htie hq hf hs).mp fun T hfT => ?_
    exact (hmem T q).mp (h T f ((hmem T f).mpr hfT) q hq)
  · intro h T f hf q hq
    rw [hmem] at hf ⊢
    obtain ⟨a, z, ha, hz, hle⟩ := hp.score_le (hN ▸ T.lt _ _ f hf) hq
    rcases hle.eq_or_lt with rfl | hlt
    · exact (htie hq hz ha).mpr (h f q z hq hz ha) T hf
    · by_contra hno
      exact (T.le_of_notMem hz ha hf hno).not_gt hlt

end

/-- Two steps of a draft model that is sure of its first token. -/
def sure : Draft ℚ Unit 2 2 where
  fastTopk := TopK.stable
  torchTopk := TopK.stable
  first := ⟨[[1, 0]], [[0, 1]], [()]⟩
  forward := fun _ _ _ => ⟨[[1, 0], [1, 0]], [[0, 1], [0, 1]], [(), ()]⟩
  topk_pos := Nat.two_pos
  steps_pos := Nat.two_pos
  first_shaped := ⟨rfl, by simp, rfl, by simp⟩
  forward_shaped := fun _ _ _ => ⟨rfl, by simp, rfl, by simp⟩

theorem scoreList_sure : scoreList sure = [1, 0, 1, 0, 0, 0] := by
  simp [scoreList, draftInfos, draftLoop, selectTopKTokens, sure, expandScores]

theorem score_sure {f : Nat} {s : ℚ} (h : (scoreList sure)[f]? = some s) : s = 1 ∨ s = 0 := by
  have hs := mem_of_getElem? h
  simp only [scoreList_sure, mem_cons, not_mem_nil, or_false] at hs
  tauto

/-- With two candidates the two of score 1 are selected. -/
theorem closedUnderParents_sure : Probabilities sure ∧ ∀ torchTopk, ClosedUnderParents sure torchTopk 3 := by
  have hp : Probabilities sure := ⟨by simp [sure], by simp [sure]⟩
  refine ⟨hp, (closedUnderParents_iff hp 3 (by decide)).mpr fun f q s _ hs _ => ?_⟩
  rcases score_sure hs with rfl | rfl <;> simp [scoreList_sure]

/-- With one it may be the second of them, without its parent. -/
theorem child_without_parent : candidateParent sure 2 = some 0 ∧ ∃ torchTopk : TopK ℚ,
    (organizeDraftResults torchTopk (draftInfos sure) 2).topScoresIndex = [2] := by
  obtain ⟨T, hT⟩ := TopK.exists_run (l := scoreList sure) (S := {2}) (v := 1) (by simp [scoreList_sure]) (by
    intro j x hx hlt
    rcases score_sure hx with rfl | rfl
    · exact absurd hlt (lt_irrefl 1)
    · exact absurd hlt zero_lt_one.not_gt)
  obtain ⟨i, hi⟩ := length_eq_one_iff.mp (T.length (scoreList sure) 1 (by rw [scoreList_sure]; decide))
  have htwo : i = 2 := Finset.mem_singleton.mp ((hT i).mp (hi ▸ mem_singleton_self i))
  refine ⟨by decide, T, ?_⟩
  show insertionSort _ (T.run (scoreList sure) 1) = [2]
  rw [hi, htwo]
  rfl

end DynaSpec.Speculative.DraftTree
