/-
  DynaSpec.Speculative.DraftVocab — the draft worker under a reduced draft vocabulary:
  the static vocabulary of `ModelConfig` (srt/configs/model_config.py), the reduced logits
  of `LogitsProcessor._get_logits` (srt/layers/logits_processor.py), the top-k over them in
  `EAGLEWorker.capture_for_decode` and `draft_forward` (srt/speculative/eagle_worker.py),
  and the mapping of the sampled column in `Sampler.forward` (srt/layers/sampler.py).

  Column `i` of the reduced logits is row `static_vocab_indices[i]` of the head. The
  sampler maps its column through that list; the draft worker only maps columns through
  `hot_token_id`, so that what it proposes are columns.

  - `configIndices_accepted`: the list the configuration uses is that of the distinct usable
    ids of the file or, if these are none or all, a range; `configIndices_file`: a file can
    give every duplicate-free list of ids below the vocabulary size that is shorter than it.
  - `draft_emits_column`: a worker with the list `[2]` proposes token 0.
  - `draft_global_iff`: for every logits the proposed tokens are the ones whose rows
    produced the selected logits exactly when the list is the identity on its columns (up
    to `hot_token_id`), as a ratio makes it (`ratioIndices_identity`).
-/

import DynaSpec.Speculative.DraftTree
import Mathlib.Algebra.Order.BigOperators.Group.List
import Mathlib.Data.Rat.Floor

namespace DynaSpec.Speculative.DraftVocab

open DynaSpec.Lib DynaSpec.Speculative.DraftTree List

variable {indices : List Nat} {ratio : Rat} {step : Nat}

/-! ## The configuration -/

/-- A line of a vocabulary file: blank or a comment, no integer, or a token id. -/
inductive VocabLine where
  | skipped
  | nonInteger
  | tokenId (id : Int)

variable (vocabSize : Nat)

def addLine (indices : List Nat) : VocabLine → List Nat
  | .tokenId id =>
    if id < 0 ∨ vocabSize ≤ id then indices
    else if id.toNat ∈ indices then indices
    else indices ++ [id.toNat]
  | _ => indices

def loadStaticVocabFromFile (lines : List VocabLine) : Option (List Nat) :=
  let indices := lines.foldl (addLine vocabSize) []
  if indices = [] then none else some indices

/-- The ratio mode, where `product` is `int(vocab_size * ratio)`, a product of floats. -/
def ratioIndices (product : Rat → Nat) (ratio : Rat) : Option (List Nat) :=
  let ratio := if 0 < ratio ∧ ratio ≤ 1 then ratio else 1
  let staticVocabSize := min (max 1 (product ratio)) vocabSize
  if staticVocabSize < vocabSize then some (range staticVocabSize) else none

/-- `static_vocab_indices`, when the static vocabulary is used. A file that lists the whole
    vocabulary, or no usable id, falls back to the ratio. -/
def configIndices (product : Rat → Nat) (file : Option (List VocabLine)) (ratio : Rat) : Option (List Nat) :=
  match file.bind (loadStaticVocabFromFile vocabSize) with
  | some indices =>
    if vocabSize ≤ indices.length then ratioIndices vocabSize product ratio else some indices
  | none => ratioIndices vocabSize product ratio

def usableId : VocabLine → Option Nat
  | .tokenId id => if id < 0 ∨ vocabSize ≤ id then none else some id.toNat
  | _ => none

/-- The distinct ids of the file that are in the vocabulary, in the order in which they first stand there. -/
def fileIds (file : Option (List VocabLine)) : List Nat :=
  ((file.getD []).filterMap (usableId vocabSize)).eraseDups

structure StaticVocab (vocabSize : Nat) where
  indices : List Nat
  nodup : indices.Nodup
  lt : ∀ id ∈ indices, id < vocabSize
  nonempty : indices ≠ []
  shorter : indices.length < vocabSize

variable {vocabSize : Nat}

theorem addLine_spec (h : indices.Nodup ∧ ∀ id ∈ indices, id < vocabSize)
    (line : VocabLine) : (addLine vocabSize indices line).Nodup ∧ ∀ id ∈ addLine vocabSize indices line, id < vocabSize := by
  unfold addLine
  split
  · rename_i id
    split
    · exact h
    split
    · exact h
    rename_i hrange hnew
    refine ⟨nodup_append.mpr ⟨h.1, nodup_singleton _, fun a ha b hb => ?_⟩, fun a ha => ?_⟩
    · rw [mem_singleton.mp hb]
      exact fun e => hnew (e ▸ ha)
    · rcases mem_append.mp ha with ha | ha
      · exact h.2 a ha
      · rw [mem_singleton.mp ha]
        omega
  · exact h

theorem loadStaticVocab_spec {lines : List VocabLine} (h : loadStaticVocabFromFile vocabSize lines = some indices) :
    indices.Nodup ∧ ∀ id ∈ indices, id < vocabSize := by
  obtain ⟨h1, h2⟩ := foldlRecOn (motive := fun acc => acc.Nodup ∧ ∀ id ∈ acc, id < vocabSize) lines (addLine vocabSize)
    ⟨nodup_nil, by simp⟩ fun acc hacc line _ => addLine_spec hacc line
  simp only [loadStaticVocabFromFile] at h
  split at h
  · cases h
  · cases h
    exact ⟨h1, h2⟩

theorem foldl_addLine (lines : List VocabLine) :
    lines.foldl (addLine vocabSize) [] = (lines.filterMap (usableId vocabSize)).eraseDups := by
  induction lines using reverseRecOn with
  | nil => rfl
  | append_singleton lines line ih =>
    rw [foldl_append, ih, filterMap_append, eraseDups_append]
    generalize lines.filterMap (usableId vocabSize) = ids
    cases line with
    | tokenId id =>
      by_cases hid : id < 0 ∨ vocabSize ≤ id
      · simp [addLine, usableId, hid]
      by_cases hm : id.toNat ∈ ids <;> simp [addLine, usableId, hid, hm, removeAll, eraseDups_cons]
    | skipped => simp [addLine, usableId, filterMap_cons]
    | nonInteger => simp [addLine, usableId, filterMap_cons]

theorem bind_loadStaticVocab (vocabSize : Nat) (file : Option (List VocabLine)) : file.bind (loadStaticVocabFromFile vocabSize) =
    if fileIds vocabSize file = [] then none else some (fileIds vocabSize file) := by
  cases file with
  | none => rfl
  | some lines => simp only [Option.bind_some, loadStaticVocabFromFile, foldl_addLine]; rfl

/-- As many distinct ids as the vocabulary has are all of them. -/
theorem length_ge_iff (h : indices.Nodup) (hlt : ∀ id ∈ indices, id < vocabSize) :
    vocabSize ≤ indices.length ↔ ∀ id < vocabSize, id ∈ indices := by
  constructor
  · intro hle id hid
    have hsub : indices <+~ range vocabSize := h.subperm fun a ha => mem_range.mpr (hlt a ha)
    exact (hsub.perm_of_length_le (by simpa using hle)).mem_iff.mpr (mem_range.mpr hid)
  · intro hall
    simpa using (nodup_range.subperm fun a ha => hall a (mem_range.mp ha)).length_le

/-- In ratio mode the list is the identity on its columns. -/
theorem ratioIndices_identity (product : Rat → Nat) : ratioIndices vocabSize product ratio = some indices ↔
    ∃ v : StaticVocab vocabSize, v.indices = indices ∧
      indices = range (max 1 (product (if 0 < ratio ∧ ratio ≤ 1 then ratio else 1))) := by
  simp only [ratioIndices]
  generalize max 1 (product _) = size, (Nat.le_max_left 1 _ : 1 ≤ max 1 (product _)) = hsize
  constructor
  · intro h
    split at h
    · rename_i hlt
      obtain rfl : range _ = indices := by simpa using h
      refine ⟨⟨_, nodup_range, fun id hid => (mem_range.mp hid).trans hlt, by simp; omega, by simpa using hlt⟩, rfl, ?_⟩
      congr
      omega
    · cases h
  · rintro ⟨v, rfl, hv⟩
    have := v.shorter
    rw [hv, length_range] at this
    rw [hv, min_eq_left this.le, if_pos this]

/-- What the configuration accepts is a static vocabulary: the ids of the file, or the range that the
    ratio gives if the file has no usable id or the whole vocabulary. -/
theorem configIndices_accepted (product : Rat → Nat) (file : Option (List VocabLine)) :
    configIndices vocabSize product file ratio = some indices ↔ ∃ v : StaticVocab vocabSize, v.indices = indices ∧
      (indices = fileIds vocabSize file ∨
        (fileIds vocabSize file = [] ∨ ∀ id < vocabSize, id ∈ fileIds vocabSize file) ∧
          indices = range (max 1 (product (if 0 < ratio ∧ ratio ≤ 1 then ratio else 1)))) := by
  have hload := bind_loadStaticVocab vocabSize file
  rw [configIndices, hload]
  by_cases hnil : fileIds vocabSize file = []
  · simp only [hnil, if_true, ratioIndices_identity, true_or, true_and]
    refine exists_congr fun v => and_congr_right fun hv => (or_iff_right fun h => v.nonempty (hv.trans h)).symm
  rw [if_neg hnil] at hload ⊢
  obtain ⟨lines, -, hl⟩ := Option.bind_eq_some_iff.mp hload
  obtain ⟨hnodup, hlt⟩ := loadStaticVocab_spec hl
  simp only [hnil, false_or, ← length_ge_iff hnodup hlt]
  split
  · rename_i hle
    simp only [hle, true_and, ratioIndices_identity]
    refine exists_congr fun v => and_congr_right fun hv => (or_iff_right fun h => ?_).symm
    have := v.shorter
    rw [hv, h] at this
    omega
  · rename_i hle
    simp only [hle, false_and, or_false, Option.some.injEq]
    constructor
    · rintro rfl
      exact ⟨⟨_, hnodup, hlt, hnil, by omega⟩, rfl, rfl⟩
    · rintro ⟨v, -, h⟩
      exact h.symm

/-- Every static vocabulary is accepted, from the file that lists it. -/
theorem configIndices_file (v : StaticVocab vocabSize) (product : Rat → Nat) (ratio : Rat) :
    configIndices vocabSize product (some (v.indices.map fun id : Nat => .tokenId id)) ratio = some v.indices := by
  have hfold : ∀ (l acc : List Nat), (acc ++ l).Nodup → (∀ id ∈ l, id < vocabSize) →
      (l.map fun id : Nat => VocabLine.tokenId id).foldl (addLine vocabSize) acc = acc ++ l := by
    intro l
    induction l with
    | nil => intro acc _ _; simp
    | cons id l ih =>
      intro acc hnd hlt
      have hnew : id ∉ acc := fun hm => (nodup_append.mp hnd).2.2 id hm id mem_cons_self rfl
      have hid := hlt id mem_cons_self
      have hadd : addLine vocabSize acc (.tokenId id) = acc ++ [id] := by
        simp only [addLine, Int.toNat_natCast, hnew, if_false]
        rw [if_neg (by omega)]
      rw [map_cons, foldl_cons, hadd, ih _ (by simpa using hnd) fun a ha => hlt a (mem_cons_of_mem id ha)]
      simp
  have hload : loadStaticVocabFromFile vocabSize (v.indices.map fun id : Nat => .tokenId id) = some v.indices := by
    simp only [loadStaticVocabFromFile, hfold v.indices [] (by simpa using v.nodup) v.lt, nil_append]
    rw [if_neg v.nonempty]
  simp only [configIndices, Option.bind_some, hload]
  rw [if_neg (by have := v.shorter; omega)]

/-! ## The worker -/

/-- What the tensor operations compute with. Which of equal entries a top-k returns is
    left open, and the exponential is any positive increasing function. -/
structure Arith (σ : Type) [Field σ] [LinearOrder σ] where
  fastTopk : TopK σ
  torchTopk : TopK σ
  exp : σ → σ
  exp_pos : ∀ x, 0 < exp x
  exp_lt : ∀ x y, x < y → exp x < exp y

/-- The draft model: the logits row of the draft extend, and one row for each beam entry
    from each later call, over the whole vocabulary. -/
structure DraftModel (σ H : Type) (vocabSize topk : Nat) where
  extendLogits : List σ
  extendHidden : H
  forward : Nat → List Int → List H → List (List σ) × List H
  extend_cols : extendLogits.length = vocabSize
  forward_rows : ∀ i ids hidden, (forward i ids hidden).1.length = topk
  forward_cols : ∀ i ids hidden, ∀ row ∈ (forward i ids hidden).1, row.length = vocabSize

section
variable {σ H : Type} [Field σ] [LinearOrder σ] {vocabSize topk steps : Nat}

/-- The reduced logits. -/
def getLogits (v : StaticVocab vocabSize) (logits : List σ) : List σ := gatherD 0 logits v.indices

def softmax (exp : σ → σ) (logits : List σ) : List σ := logits.map fun x => exp x / (logits.map exp).sum

variable (A : Arith σ) (v : StaticVocab vocabSize)

def probs (logits : List σ) : List σ := softmax A.exp (getLogits v logits)

/-- The columns that `fast_topk` selects in a row. -/
def columns (topk : Nat) (logits : List σ) : List Nat :=
  A.fastTopk.run (probs A v logits) topk

/-- `hot_token_id[column]`, or the column without a token map. -/
def hotToken (hotTokenId : Option (List Int)) (column : Nat) : Int :=
  match hotTokenId with
  | none => column
  | some ids => ids.getD column 0

/-- The mapping of the sampler. -/
def samplerToken (v : StaticVocab vocabSize) (column : Nat) : Nat := v.indices.getD column 0

/-- The top-k tables of a call's rows, as `capture_for_decode` and the loop of
    `draft_forward` compute them, mapped through `hot_token_id`. -/
def captureForDecode (hotTokenId : Option (List Int)) (topk : Nat)
    (rows : List (List σ)) (hidden : List H) : TopkTables σ H where
  topkP := rows.map fun row => gatherD 0 (probs A v row) (columns A v topk row)
  topkIndex := rows.map fun row => (columns A v topk row).map (hotToken hotTokenId)
  hiddenStates := hidden

theorem probs_length (row : List σ) : (probs A v row).length = v.indices.length := by
  simp [probs, softmax, getLogits, gatherD]

theorem columns_length (h : topk ≤ v.indices.length) (row : List σ) : (columns A v topk row).length = topk :=
  A.fastTopk.length _ _ (by rw [probs_length]; exact h)

theorem mem_columns_lt {row : List σ} {c : Nat} (hc : c ∈ columns A v topk row) : c < v.indices.length := by
  rw [← probs_length A v row]
  exact A.fastTopk.lt _ _ c hc

theorem captureForDecode_shaped (hotTokenId : Option (List Int)) (h : topk ≤ v.indices.length) (rows : List (List σ))
    (hidden : List H) :
    (captureForDecode A v hotTokenId topk rows hidden).Shaped rows.length topk where
  pRows := by simp [captureForDecode]
  pCols := by
    intro p hp
    obtain ⟨row, -, rfl⟩ := mem_map.mp hp
    simp [gatherD, columns_length A v h]
  indexRows := by simp [captureForDecode]
  indexCols := by
    intro p hp
    obtain ⟨row, -, rfl⟩ := mem_map.mp hp
    simp [columns_length A v h]

end

structure Worker (σ H : Type) [Field σ] [LinearOrder σ] (vocabSize topk steps : Nat) where
  arith : Arith σ
  vocab : StaticVocab vocabSize
  hotTokenId : Option (List Int)
  model : DraftModel σ H vocabSize topk
  topk_pos : 0 < topk
  topk_le : topk ≤ vocab.indices.length
  steps_pos : 0 < steps

namespace Worker

variable {σ H : Type} [Field σ] [LinearOrder σ] {vocabSize topk steps : Nat} (w : Worker σ H vocabSize topk steps)

def tables (rows : List (List σ)) (hidden : List H) : TopkTables σ H :=
  captureForDecode w.arith w.vocab w.hotTokenId topk rows hidden

/-- The worker's draft run. -/
def draft : Draft σ H topk steps where
  fastTopk := w.arith.fastTopk
  torchTopk := w.arith.torchTopk
  first := w.tables [w.model.extendLogits] [w.model.extendHidden]
  forward := fun i ids hidden => w.tables (w.model.forward i ids hidden).1 (w.model.forward i ids hidden).2
  topk_pos := w.topk_pos
  steps_pos := w.steps_pos
  first_shaped := captureForDecode_shaped w.arith w.vocab w.hotTokenId w.topk_le [w.model.extendLogits] _
  forward_shaped := by
    intro i ids hidden
    have h := captureForDecode_shaped w.arith w.vocab w.hotTokenId w.topk_le (w.model.forward i ids hidden).1
      (w.model.forward i ids hidden).2
    rwa [w.model.forward_rows] at h

variable [Inhabited H]

/-- The columns of each step's candidates, in the order of their flat indices. -/
def columnLoop : Nat → Nat → List (List σ) → List H → List σ → List (List Nat)
  | 0, _, _, _, _ => []
  | left + 1, i, rows, hidden, scores =>
    let sel := selectTopKTokens w.draft i (w.tables rows hidden) scores
    let next := w.model.forward i sel.inputIds sel.hiddenStates
    rows.flatMap (columns w.arith w.vocab topk) :: columnLoop left (i + 1) next.1 next.2 sel.scores

def candidateColumns : List Nat := (w.columnLoop steps 0 [w.model.extendLogits] [w.model.extendHidden] []).flatten

/-- The column of each proposed token. -/
def selectedColumns (numDraftToken : Nat) : List Nat :=
  gatherD 0 w.candidateColumns (draftForward w.draft numDraftToken).topScoresIndex

/-- Each proposed token is the global id whose row of the head produced the selected logit,
    as the sampler maps it. -/
def ProposesGlobal (numDraftToken : Nat) : Prop :=
  (draftForward w.draft numDraftToken).draftTokens =
    (w.selectedColumns numDraftToken).map fun i => hotToken w.hotTokenId (samplerToken w.vocab i)

/-! ## What it proposes -/

omit [Inhabited H] in
theorem flatMap_columns_length (rows : List (List σ)) :
    (rows.flatMap (columns w.arith w.vocab topk)).length = rows.length * topk := by
  rw [flatMap_def, length_flatten_rows (k := topk), length_map]
  intro l hl
  obtain ⟨row, -, rfl⟩ := mem_map.mp hl
  exact columns_length w.arith w.vocab w.topk_le row

theorem treeInfo_scores {i : Nat} {rows : List (List σ)} {hidden : List H} {scores : List σ}
    (h : Ready w.draft i (w.tables rows hidden) scores) :
    (selectTopKTokens w.draft i (w.tables rows hidden) scores).treeInfo.scores.length =
      (rows.flatMap (columns w.arith w.vocab topk)).length := by
  rw [flatMap_columns_length]
  unfold selectTopKTokens
  split
  · rename_i h0
    have ht := h.first h0
    have hrows : (w.tables rows hidden).topkP.length = rows.length := by simp [tables, captureForDecode]
    simp [length_flatten_rows ht.pCols, hrows]
  · obtain ⟨ht, hs⟩ := h.later (by omega)
    have hrows : (w.tables rows hidden).topkP.length = rows.length := by simp [tables, captureForDecode]
    simp [expandScores_length ht hs, ← hrows, ht.pRows, sq]

theorem treeInfo_tokens (i : Nat) (rows : List (List σ)) (hidden : List H) (scores : List σ) :
    (selectTopKTokens w.draft i (w.tables rows hidden) scores).treeInfo.tokens =
      (rows.flatMap (columns w.arith w.vocab topk)).map (hotToken w.hotTokenId) := by
  have hflat : (w.tables rows hidden).topkIndex.flatten = (rows.flatMap (columns w.arith w.vocab topk)).map
    (hotToken w.hotTokenId) := by
    simp only [tables, captureForDecode, flatMap_def, map_flatten, map_map]
    rfl
  unfold selectTopKTokens
  split <;> exact hflat

theorem columnLoop_spec : ∀ left i rows hidden scores, Ready w.draft i (w.tables rows hidden) scores →
    (draftLoop w.draft left i (w.tables rows hidden) scores).flatMap (·.tokens) =
      ((w.columnLoop left i rows hidden scores).flatten).map (hotToken w.hotTokenId) ∧
    ((draftLoop w.draft left i (w.tables rows hidden) scores).flatMap (·.scores)).length =
      (w.columnLoop left i rows hidden scores).flatten.length := by
  intro left
  induction left with
  | zero => intro i rows hidden scores _; exact ⟨rfl, rfl⟩
  | succ left ih =>
    intro i rows hidden scores h
    obtain ⟨htok, hlen⟩ := ih _ _ _ _ h.next
    simp only [draftLoop, columnLoop, flatMap_cons, flatten_cons, map_append, length_append]
    exact ⟨by rw [treeInfo_tokens, ← htok]; rfl, by rw [treeInfo_scores w h, ← hlen]; rfl⟩

theorem candidateColumns_length : w.candidateColumns.length = ((draftInfos w.draft).flatMap (·.scores)).length :=
  (w.columnLoop_spec steps 0 _ _ [] (ready_stateAt w.draft 0)).2.symm

variable (numDraftToken : Nat)

/-- The worker proposes the columns themselves, up to `hot_token_id`. -/
theorem draftTokens_eq :
    (draftForward w.draft numDraftToken).draftTokens = (w.selectedColumns numDraftToken).map (hotToken w.hotTokenId) := by
  have htok : (draftInfos w.draft).flatMap (·.tokens) = w.candidateColumns.map (hotToken w.hotTokenId) :=
    (w.columnLoop_spec steps 0 _ _ [] (ready_stateAt w.draft 0)).1
  have hlt : ∀ f ∈ (draftForward w.draft numDraftToken).topScoresIndex, f < w.candidateColumns.length := by
    intro f hf
    rw [candidateColumns_length, candidates_length]
    exact topScoresIndex_lt w.draft _ f hf
  show gatherD 0 ((draftInfos w.draft).flatMap (·.tokens)) _ = _
  rw [htok, selectedColumns, gatherD, gatherD, map_map]
  refine map_congr_left fun f hf => ?_
  simp [getD_eq_getElem?_getD, getElem?_eq_getElem (hlt f hf)]

theorem mem_selectedColumns {numDraftToken f c : Nat} (hf : f ∈ (draftForward w.draft numDraftToken).topScoresIndex)
    (hc : w.candidateColumns[f]? = some c) : c ∈ w.selectedColumns numDraftToken :=
  mem_map.mpr ⟨f, hf, by rw [getD_eq_getElem?_getD, hc]; rfl⟩

theorem columnLoop_lt : ∀ left i rows hidden scores, ∀ c ∈ (w.columnLoop left i rows hidden scores).flatten,
    c < w.vocab.indices.length := by
  intro left
  induction left with
  | zero => intro i rows hidden scores c hc; simp [columnLoop] at hc
  | succ left ih =>
    intro i rows hidden scores c hc
    rcases mem_append.mp hc with hc | hc
    · obtain ⟨row, -, hc⟩ := mem_flatMap.mp hc
      exact mem_columns_lt w.arith w.vocab hc
    · exact ih _ _ _ _ c hc

theorem selectedColumns_lt : ∀ c ∈ w.selectedColumns numDraftToken, c < w.vocab.indices.length := by
  intro c hc
  obtain ⟨f, hf, rfl⟩ := mem_map.mp hc
  have hlt := topScoresIndex_lt w.draft _ f hf
  rw [← candidates_length w.draft, ← candidateColumns_length] at hlt
  rw [getD_eq_getElem?_getD, getElem?_eq_getElem hlt]
  exact w.columnLoop_lt _ _ _ _ _ _ (getElem_mem hlt)

theorem proposesGlobal_iff : w.ProposesGlobal numDraftToken ↔
    ∀ i ∈ w.selectedColumns numDraftToken, hotToken w.hotTokenId (samplerToken w.vocab i) = hotToken w.hotTokenId i := by
  rw [ProposesGlobal, draftTokens_eq, map_inj_left]
  exact ⟨fun h i hi => (h i hi).symm, fun h i hi => (h i hi).symm⟩

end Worker

/-! ## Logits that select a given column -/

/-- Scored columns among which every other column is outscored by column `i`. -/
def Peaked {σ : Type} [Zero σ] [LT σ] (i : Nat) (l : List (σ × Nat)) : Prop :=
  ∀ x ∈ l, 0 < x.1 ∧ (x.2 ≠ i → ∃ y ∈ l, y.2 = i ∧ x.1 < y.1)

theorem Peaked.append {σ : Type} [Zero σ] [LT σ] {i : Nat} {l m : List (σ × Nat)} (hl : Peaked i l) (hm : Peaked i m) :
    Peaked i (l ++ m) := by
  intro x hx
  rcases mem_append.mp hx with hx | hx
  · refine ⟨(hl x hx).1, fun hne => ?_⟩
    obtain ⟨y, hy, h⟩ := (hl x hx).2 hne
    exact ⟨y, mem_append_left m hy, h⟩
  refine ⟨(hm x hx).1, fun hne => ?_⟩
  obtain ⟨y, hy, h⟩ := (hm x hx).2 hne
  exact ⟨y, mem_append_right l hy, h⟩

section
variable {σ : Type} [Field σ] [LinearOrder σ] {vocabSize topk : Nat} (A : Arith σ) (v : StaticVocab vocabSize)

/-- Logits with the one row of the head that column `i` selects above all others. -/
def peakedRow (σ : Type) [Field σ] {vocabSize : Nat} (v : StaticVocab vocabSize) (i : Nat) : List σ :=
  (range vocabSize).map fun id => if id = v.indices.getD i 0 then 1 else 0

/-- The table row of those logits. -/
def peakedP (topk i : Nat) : List σ := gatherD 0 (probs A v (peakedRow σ v i)) (columns A v topk (peakedRow σ v i))

variable [IsStrictOrderedRing σ] {i : Nat}

theorem probs_peaked (hi : i < v.indices.length) {j : Nat} (hj : j < v.indices.length) :
    0 < (probs A v (peakedRow σ v i)).getD j 0 ∧
      (j ≠ i → (probs A v (peakedRow σ v i)).getD j 0 < (probs A v (peakedRow σ v i)).getD i 0) := by
  have hval : ∀ k, k < v.indices.length → (probs A v (peakedRow σ v i)).getD k 0 =
      A.exp (if k = i then 1 else 0) / ((getLogits v (peakedRow σ v i)).map A.exp).sum := by
    intro k hk
    have hid : v.indices.get ⟨k, hk⟩ < vocabSize := v.lt _ (get_mem ..)
    have heq : v.indices[k] = v.indices[i] ↔ k = i := v.nodup.getElem_inj_iff
    simp only [get_eq_getElem] at hid
    simp [probs, softmax, getLogits, gatherD, peakedRow, hk, hid, hi, heq]
  have hsum : 0 < ((getLogits v (peakedRow σ v i)).map A.exp).sum := by
    refine sum_pos _ (fun x hx => ?_) ?_
    · obtain ⟨y, -, rfl⟩ := mem_map.mp hx
      exact A.exp_pos y
    · simp only [getLogits, gatherD, ne_eq, map_eq_nil_iff]
      exact v.nonempty
  refine ⟨?_, fun hne => ?_⟩
  · rw [hval j hj]
    exact div_pos (A.exp_pos _) hsum
  · rw [hval j hj, hval i hi, if_neg hne, if_pos rfl]
    exact div_lt_div_of_pos_right (A.exp_lt 0 1 zero_lt_one) hsum

section
variable (hi : i < v.indices.length) (h0 : 0 < topk) (hv : topk ≤ v.indices.length)
include hi h0 hv

theorem mem_columns_peaked : i ∈ columns A v topk (peakedRow σ v i) := by
  by_contra hno
  have hlen := columns_length A v hv (peakedRow σ v i)
  obtain ⟨c, hc⟩ := exists_mem_of_length_pos (hlen ▸ h0)
  have hcv := mem_columns_lt A v hc
  have hne : c ≠ i := fun e => hno (e ▸ hc)
  have hlt := (probs_peaked A v hi hcv).2 hne
  have hpl := probs_length A v (peakedRow σ v i)
  have hle := A.fastTopk.best _ topk c i (hpl ▸ hcv) (hpl ▸ hi) hc hno
  simp only [getD_eq_getElem?_getD, getElem?_eq_getElem (hpl ▸ hcv), getElem?_eq_getElem (hpl ▸ hi), Option.getD_some] at hlt
  exact absurd hlt (not_lt.mpr hle)

/-- A row of candidates under a parent of positive score. -/
theorem row_peaked {s : σ} (hs : 0 < s) :
    Peaked i (((peakedP A v topk i).map (s * ·)).zip (columns A v topk (peakedRow σ v i))) := by
  rw [peakedP, gatherD, map_map, ← map_prod_right_eq_zip]
  intro x hx
  obtain ⟨c, hc, rfl⟩ := mem_map.mp hx
  obtain ⟨hpos, hlt⟩ := probs_peaked A v hi (mem_columns_lt A v hc)
  refine ⟨mul_pos hs hpos, fun hne => ⟨_, mem_map.mpr ⟨i, mem_columns_peaked A v hi h0 hv, rfl⟩, rfl, ?_⟩⟩
  exact mul_lt_mul_of_pos_left (hlt hne) hs

/-- The candidates of a later step. -/
theorem step_peaked (scores : List σ) (hpos : ∀ s ∈ scores, 0 < s) :
    Peaked i ((expandScores scores (replicate scores.length (peakedP A v topk i))).zip
      ((replicate scores.length (peakedRow σ v i)).flatMap (columns A v topk))) := by
  induction scores with
  | nil => intro x hx; simp [expandScores] at hx
  | cons s scores ih =>
    simp only [expandScores, length_cons, replicate_succ, zipWith_cons_cons, flatten_cons, flatMap_cons]
    rw [zip_append (by simp [peakedP, gatherD])]
    exact (row_peaked A v hi h0 hv (hpos s mem_cons_self)).append (ih fun t ht => hpos t (mem_cons_of_mem s ht))

end

theorem peakedP_pos (hi : i < v.indices.length) : ∀ p ∈ peakedP A v topk i, 0 < p := by
  intro p hp
  obtain ⟨c, hc, rfl⟩ := mem_map.mp hp
  exact (probs_peaked A v hi (mem_columns_lt A v hc)).1

theorem expandScores_pos {P : List (List σ)} {scores : List σ} (hs : ∀ s ∈ scores, 0 < s) (hP : ∀ p ∈ P, ∀ x ∈ p, 0 < x) :
    ∀ x ∈ expandScores scores P, 0 < x := by
  intro x hx
  obtain ⟨l, hl, hxl⟩ := mem_flatten.mp hx
  obtain ⟨j, hj, rfl⟩ := getElem_of_mem hl
  rw [getElem_zipWith] at hxl
  obtain ⟨y, hy, rfl⟩ := mem_map.mp hxl
  exact mul_pos (hs _ (getElem_mem _)) (hP _ (getElem_mem _) y hy)

end

namespace Worker

variable {σ H : Type} [Field σ] [LinearOrder σ] [IsStrictOrderedRing σ] [Inhabited H] {vocabSize topk steps : Nat}
  (w : Worker σ H vocabSize topk steps)

/-- A model whose every row has column `i` on top. -/
def peakedModel (i : Nat) : DraftModel σ H vocabSize topk where
  extendLogits := peakedRow σ w.vocab i
  extendHidden := default
  forward := fun _ _ _ => (replicate topk (peakedRow σ w.vocab i), replicate topk default)
  extend_cols := by simp [peakedRow]
  forward_rows := by simp
  forward_cols := by
    intro _ _ _ row hrow
    rw [eq_of_mem_replicate hrow]
    simp [peakedRow]

def peaked (i : Nat) : Worker σ H vocabSize topk steps := { w with model := w.peakedModel i }

/-- The rows of a step of that model. -/
def peakedRows (i step : Nat) : List (List σ) := replicate (if step = 0 then 1 else topk) (peakedRow σ w.vocab i)

omit [IsStrictOrderedRing σ] in
theorem peaked_topkP (i step : Nat) (hidden : List H) : ((w.peaked i).tables (w.peakedRows i step) hidden).topkP =
    replicate (if step = 0 then 1 else topk) (peakedP w.arith w.vocab topk i) := by
  simp only [tables, captureForDecode, peakedRows, map_replicate]
  rfl

variable {scores : List σ}

omit [IsStrictOrderedRing σ] in
theorem peaked_ready (i : Nat) (hidden : List H) (hlen : 0 < step → scores.length = topk) :
    Ready (w.peaked i).draft step ((w.peaked i).tables (w.peakedRows i step) hidden) scores := by
  have hshape := captureForDecode_shaped w.arith w.vocab w.hotTokenId w.topk_le (w.peakedRows i step) hidden
  refine ⟨fun h0 => ?_, fun h0 => ⟨?_, hlen h0⟩⟩
  · rwa [show (w.peakedRows i step).length = 1 by simp [peakedRows, h0]] at hshape
  · rwa [show (w.peakedRows i step).length = topk by simp [peakedRows, Nat.pos_iff_ne_zero.mp h0]] at hshape

variable {i : Nat}

theorem select_peaked (hi : i < w.vocab.indices.length) (hidden : List H)
    (hlen : 0 < step → scores.length = topk) (hpos : ∀ s ∈ scores, 0 < s) :
    Peaked i ((selectTopKTokens (w.peaked i).draft step ((w.peaked i).tables (w.peakedRows i step) hidden)
    scores).treeInfo.scores.zip
      ((w.peakedRows i step).flatMap (columns w.arith w.vocab topk))) ∧
    ∀ s ∈ (selectTopKTokens (w.peaked i).draft step ((w.peaked i).tables (w.peakedRows i step) hidden) scores).scores, 0 < s := by
  have hP : ∀ p ∈ peakedP w.arith w.vocab topk i, 0 < p := peakedP_pos w.arith w.vocab hi
  unfold selectTopKTokens
  split
  · rename_i h0
    simp only [peaked_topkP]
    simp only [peakedRows, h0, if_true, replicate_one, flatten_singleton, flatMap_singleton]
    have hrow := row_peaked w.arith w.vocab hi w.topk_pos w.topk_le (one_pos (α := σ))
    simp only [one_mul, map_id'] at hrow
    exact ⟨hrow, hP⟩
  rename_i h0
  have hs := hlen (Nat.pos_of_ne_zero h0)
  simp only [peaked_topkP]
  simp only [peakedRows, h0, if_false]
  constructor
  · have hstep := step_peaked w.arith w.vocab hi w.topk_pos w.topk_le scores hpos
    rwa [hs] at hstep
  intro s hmem
  obtain ⟨j, hj, rfl⟩ := mem_map.mp hmem
  have hjl := (w.peaked i).draft.fastTopk.lt _ _ j hj
  rw [getD_eq_getElem?_getD, getElem?_eq_getElem hjl, Option.getD_some]
  refine expandScores_pos hpos (fun p hp => ?_) _ (getElem_mem hjl)
  rw [eq_of_mem_replicate hp]
  exact hP

theorem loop_peaked (hi : i < w.vocab.indices.length) : ∀ left step hidden scores,
    (0 < step → scores.length = topk) → (∀ s ∈ scores, 0 < s) →
    Peaked i (((draftLoop (w.peaked i).draft left step ((w.peaked i).tables (w.peakedRows i step) hidden) scores).flatMap
        (·.scores)).zip ((w.peaked i).columnLoop left step (w.peakedRows i step) hidden scores).flatten) := by
  intro left
  induction left with
  | zero => intro step hidden scores _ _ x hx; simp [draftLoop] at hx
  | succ left ih =>
    intro step hidden scores hlen hpos
    have hready := w.peaked_ready i hidden hlen
    obtain ⟨hblock, hnext⟩ := w.select_peaked hi hidden hlen hpos
    simp only [draftLoop, columnLoop, flatMap_cons, flatten_cons]
    rw [zip_append ((w.peaked i).treeInfo_scores hready)]
    exact hblock.append (ih (step + 1) _ _ (fun _ => (hready.next.later (Nat.succ_pos step)).2) hnext)

/-- Column `i` is among those that the model proposes. -/
theorem mem_selectedColumns_peaked {nd : Nat} (hi : i < w.vocab.indices.length) (hnd : 2 ≤ nd)
    (hle : nd - 1 ≤ firstCandidate topk steps) : i ∈ (w.peaked i).selectedColumns nd := by
  have hpeak : Peaked i (((draftInfos (w.peaked i).draft).flatMap (·.scores)).zip (w.peaked i).candidateColumns) :=
    w.loop_peaked hi steps 0 _ [] (fun h => absurd h (lt_irrefl 0)) (by simp)
  have hlen := (w.peaked i).candidateColumns_length
  have hsel := topScoresIndex_length (w.peaked i).draft hle
  obtain ⟨f, hf⟩ := exists_mem_of_length_pos (l := (draftForward (w.peaked i).draft nd).topScoresIndex) (by omega)
  have hfl := topScoresIndex_lt (w.peaked i).draft nd f hf
  rw [← candidates_length (w.peaked i).draft] at hfl
  -- either a selected candidate is in column `i`, or column `i` of its row has a larger score
  obtain ⟨c, hc⟩ : ∃ c, (w.peaked i).candidateColumns[f]? = some c := ⟨_, getElem?_eq_getElem (hlen ▸ hfl)⟩
  by_cases hcol : c = i
  · exact (w.peaked i).mem_selectedColumns hf (hcol ▸ hc)
  obtain ⟨-, hdom⟩ := hpeak (((draftInfos (w.peaked i).draft).flatMap (·.scores)).get ⟨f, hfl⟩, c) (by
    refine mem_iff_getElem?.mpr ⟨f, ?_⟩
    rw [getElem?_zip_eq_some]
    exact ⟨getElem?_eq_getElem hfl, hc⟩)
  obtain ⟨⟨b, c'⟩, hy, rfl, hlt⟩ := hdom hcol
  obtain ⟨g, hg⟩ := mem_iff_getElem?.mp hy
  rw [getElem?_zip_eq_some] at hg
  by_cases hgs : g ∈ (draftForward (w.peaked c').draft nd).topScoresIndex
  · exact (w.peaked c').mem_selectedColumns hgs hg.2
  obtain ⟨hgl, hgb⟩ := List.getElem?_eq_some_iff.mp hg.1
  have hperm := perm_insertionSort (· ≤ ·) ((w.peaked c').draft.torchTopk.run
    ((draftInfos (w.peaked c').draft).flatMap (·.scores)) (nd - 1))
  have hbest := (w.peaked c').draft.torchTopk.best _ (nd - 1) f g hfl hgl (hperm.mem_iff.mp hf)
    (fun h => hgs (hperm.mem_iff.mpr h))
  exact absurd hlt (not_lt.mpr (hgb ▸ hbest))

/-- For every logits the proposed tokens are global ids exactly when the static vocabulary is
    the identity on its columns, up to `hot_token_id`. -/
theorem draft_global_iff (nd : Nat) (hnd : 2 ≤ nd) (hle : nd - 1 ≤ firstCandidate topk steps) :
    (∀ M : DraftModel σ H vocabSize topk, ProposesGlobal { w with model := M } nd) ↔
      ∀ i < w.vocab.indices.length, hotToken w.hotTokenId (samplerToken w.vocab i) = hotToken w.hotTokenId i := by
  constructor
  · intro h i hi
    exact ((w.peaked i).proposesGlobal_iff nd).mp (h (w.peakedModel i)) i (w.mem_selectedColumns_peaked hi hnd hle)
  · intro h M
    exact (proposesGlobal_iff { w with model := M } nd).mpr fun i hi => h i (selectedColumns_lt { w with model := M } nd i hi)

end Worker

/-! A worker over the rationals that keeps the only candidate, with a vocabulary of three. -/

def rationalArith : Arith ℚ where
  fastTopk := TopK.stable
  torchTopk := TopK.stable
  exp := fun x => if x < 0 then 1 / (1 - x) else 1 + x
  exp_pos := by
    intro x
    split
    · exact div_pos one_pos (by linarith)
    · linarith
  exp_lt := by
    intro x y hxy
    split <;> split
    · exact one_div_lt_one_div_of_lt (by linarith) (by linarith)
    · have : 1 / (1 - x) < 1 := by rw [div_lt_one (by linarith)]; linarith
      linarith
    · linarith
    · linarith

def singleWorker (v : StaticVocab 3) : Worker ℚ Unit 3 1 1 where
  arith := rationalArith
  vocab := v
  hotTokenId := none
  model := ⟨[0, 0, 1], (), fun _ _ _ => ([[0, 0, 1]], [()]), rfl, fun _ _ _ => rfl, by simp⟩
  topk_pos := Nat.one_pos
  topk_le := length_pos_iff.mpr v.nonempty
  steps_pos := Nat.one_pos

/-- The vocabulary file with the one line `2`. -/
def onlyTwo : StaticVocab 3 := ⟨[2], by decide, by decide, by decide, by decide⟩

/-- With the static vocabulary `[2]` the only logit is that of token 2, and the worker
    proposes token 0. -/
theorem draft_emits_column : (∀ product ratio, configIndices 3 product (some [.tokenId 2]) ratio = some onlyTwo.indices) ∧
    (singleWorker onlyTwo).selectedColumns 2 = [0] ∧ samplerToken onlyTwo 0 = 2 ∧
    (draftForward (singleWorker onlyTwo).draft 2).draftTokens = [0] ∧ ¬ (singleWorker onlyTwo).ProposesGlobal 2 := by
  have hcols : (singleWorker onlyTwo).selectedColumns 2 = [0] := by decide +kernel
  have htok : (draftForward (singleWorker onlyTwo).draft 2).draftTokens = [0] := by decide +kernel
  refine ⟨fun _ _ => rfl, hcols, rfl, htok, fun h => ?_⟩
  rw [Worker.ProposesGlobal, hcols, htok] at h
  revert h
  decide

/-- The first two tokens of the vocabulary, in order. -/
def firstTwo : StaticVocab 3 := ⟨[0, 1], by decide, by decide, by decide, by decide⟩

/-- With the first two tokens as the static vocabulary the proposals are right. -/
theorem draft_global_firstTwo : Worker.ProposesGlobal (singleWorker firstTwo) 2 :=
  ((singleWorker firstTwo).draft_global_iff 2 (by decide) (by decide)).mpr (by decide) (singleWorker firstTwo).model

end DynaSpec.Speculative.DraftVocab
