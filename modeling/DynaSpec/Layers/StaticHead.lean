/-
  DynaSpec.Layers.StaticHead — the vocabulary-parallel head (srt/layers/vocab_parallel_embedding.py)
  and the logits that `LogitsProcessor._get_logits` (srt/layers/logits_processor.py) computes
  with it, over the whole vocabulary or over a static list of token ids.

  Every rank holds the rows `[org_vocab_start_index, org_vocab_end_index)` of the head,
  padded with zero rows to `num_embeddings_per_partition`. Under a static vocabulary a rank
  takes the ids of the list that fall in its own rows, computes their logits only and writes
  them into the columns of its shard. What is read from the gathered columns is, id by id,
  what the whole head gives (`getLogits_static`).
-/

import DynaSpec.Lib.Gather
import Mathlib.Tactic.Ring

namespace DynaSpec.Layers

open DynaSpec.Lib List Nat
open Option (map_some)

variable {vocabSize id : Nat} {c : HeadConfig} {ids : List Nat} {S : Nat → Prop}

/-! ## Shards -/

/-- `none` is a division by zero. -/
def padVocabSize (vocabSize padTo : Nat) : Option Nat :=
  if padTo = 0 then none else some ((vocabSize + padTo - 1) / padTo * padTo)

/-- `none` is a division by zero, or the failed assertion of `ensure_divisibility`. -/
def divide (numerator denominator : Nat) : Option Nat :=
  if denominator ≠ 0 ∧ numerator % denominator = 0 then some (numerator / denominator) else none

def vocabRangeFromPerPartitionVocabSize (perPartitionVocabSize rank offset : Nat) : Nat × Nat :=
  let indexF := rank * perPartitionVocabSize
  let indexL := indexF + perPartitionVocabSize
  (indexF + offset, indexL + offset)

def vocabRangeFromGlobalVocabSize (globalVocabSize rank worldSize offset : Nat) : Option (Nat × Nat) := do
  let perPartitionVocabSize ← divide globalVocabSize worldSize
  return vocabRangeFromPerPartitionVocabSize perPartitionVocabSize rank offset

structure ShardIndices where
  paddedOrgVocabStartIndex : Nat
  paddedOrgVocabEndIndex : Nat
  paddedAddedVocabStartIndex : Nat
  paddedAddedVocabEndIndex : Nat
  orgVocabStartIndex : Nat
  orgVocabEndIndex : Nat
  addedVocabStartIndex : Nat
  addedVocabEndIndex : Nat

namespace ShardIndices

variable (s : ShardIndices)

def numOrgElements : Nat := s.orgVocabEndIndex - s.orgVocabStartIndex
def numAddedElements : Nat := s.addedVocabEndIndex - s.addedVocabStartIndex
def numOrgElementsPadded : Nat := s.paddedOrgVocabEndIndex - s.paddedOrgVocabStartIndex
def numAddedElementsPadded : Nat := s.paddedAddedVocabEndIndex - s.paddedAddedVocabStartIndex
def numElementsPadded : Nat := s.numOrgElementsPadded + s.numAddedElementsPadded

/-- The assertions of `__post_init__`. -/
def Sane : Prop :=
  s.paddedOrgVocabStartIndex ≤ s.paddedOrgVocabEndIndex ∧ s.paddedAddedVocabStartIndex ≤ s.paddedAddedVocabEndIndex ∧
  s.orgVocabStartIndex ≤ s.orgVocabEndIndex ∧ s.addedVocabStartIndex ≤ s.addedVocabEndIndex ∧
  s.orgVocabStartIndex ≤ s.paddedOrgVocabStartIndex ∧ s.addedVocabStartIndex ≤ s.paddedAddedVocabStartIndex ∧
  s.orgVocabEndIndex ≤ s.paddedOrgVocabEndIndex ∧ s.addedVocabEndIndex ≤ s.paddedAddedVocabEndIndex ∧
  s.numOrgElements ≤ s.numOrgElementsPadded ∧ s.numAddedElements ≤ s.numAddedElementsPadded

instance : Decidable s.Sane := by unfold Sane; infer_instance

end ShardIndices

def getIndices (vocabSizePadded orgVocabSizePadded vocabSize orgVocabSize tpRank tpSize : Nat) : Option ShardIndices := do
  let numAddedEmbeddingsPadded := vocabSizePadded - orgVocabSizePadded
  let org ← vocabRangeFromGlobalVocabSize orgVocabSizePadded tpRank tpSize 0
  let added ← vocabRangeFromGlobalVocabSize numAddedEmbeddingsPadded tpRank tpSize orgVocabSize
  -- remove padding
  let shard : ShardIndices := ⟨org.1, org.2, added.1, added.2, min org.1 orgVocabSize, min org.2 orgVocabSize,
    min added.1 vocabSize, min added.2 vocabSize⟩
  guard shard.Sane
  return shard

/-! ## The head -/

structure HeadConfig where
  numEmbeddings : Nat
  embeddingDim : Nat
  orgNumEmbeddings : Option Nat
  paddingSize : Nat
  tpSize : Nat
  isCpu : Bool

/-- `org_num_embeddings or num_embeddings`. -/
def HeadConfig.orgVocabSize (c : HeadConfig) : Nat :=
  match c.orgNumEmbeddings with
  | some n => if n = 0 then c.numEmbeddings else n
  | none => c.numEmbeddings

/-- One rank's part of the head. -/
structure VocabParallelEmbedding (σ : Type) where
  shardIndices : ShardIndices
  numEmbeddingsPerPartition : Nat
  numOrgEmbeddingsPerPartition : Nat
  weight : List (List σ)

section
variable {σ : Type} [Semiring σ]

/-- The rows of the shard are copied and the rest is filled with zeros. -/
def weightLoader (shard : ShardIndices) (numEmbeddingsPerPartition embeddingDim : Nat)
    (loadedWeight : List (List σ)) : List (List σ) :=
  let rows := (loadedWeight.drop shard.orgVocabStartIndex).take (shard.orgVocabEndIndex - shard.orgVocabStartIndex)
  rows ++ List.replicate (numEmbeddingsPerPartition - rows.length) (List.replicate embeddingDim 0)

/-- On a CPU the padding makes the vocabulary divisible by the ranks. -/
def HeadConfig.padding (c : HeadConfig) : Option Nat := do
  let orgVocabSizePadded ← padVocabSize c.orgVocabSize c.paddingSize
  return if c.isCpu ∧ orgVocabSizePadded % c.tpSize ≠ 0 then c.paddingSize * c.tpSize else c.paddingSize

/-- The constructor at one rank, followed by the loading of the weight; `none` is a failed assertion. -/
def VocabParallelEmbedding.init (c : HeadConfig) (tpRank : Nat)
    (loadedWeight : List (List σ)) : Option (VocabParallelEmbedding σ) := do
  let paddingSize ← c.padding
  let numAddedEmbeddings := c.numEmbeddings - c.orgVocabSize
  let orgVocabSizePadded ← padVocabSize c.orgVocabSize paddingSize
  let numEmbeddingsPadded ← padVocabSize (orgVocabSizePadded + numAddedEmbeddings) paddingSize
  guard (orgVocabSizePadded ≤ numEmbeddingsPadded)
  let shard ← getIndices numEmbeddingsPadded orgVocabSizePadded c.numEmbeddings c.orgVocabSize tpRank c.tpSize
  let numEmbeddingsPerPartition ← divide numEmbeddingsPadded c.tpSize
  guard (shard.numElementsPadded = numEmbeddingsPerPartition)
  guard (loadedWeight.length = c.orgVocabSize)
  return ⟨shard, numEmbeddingsPerPartition, shard.orgVocabEndIndex - shard.orgVocabStartIndex,
    weightLoader shard numEmbeddingsPerPartition c.embeddingDim loadedWeight⟩

open VocabParallelEmbedding (init)

/-! ## Logits -/

def dot (a b : List σ) : σ := (List.zipWith (· * ·) a b).sum

/-- `torch.matmul(hidden_states, weight.T)`. -/
def matmul (hiddenStates weight : List (List σ)) : List (List σ) := hiddenStates.map fun h => weight.map (dot h)

/-- The static ids of a shard, counted from its start. -/
def getPartitionStaticRelativeIndices (staticVocabIndices : List Nat) (localStart localEnd : Nat) : List Nat :=
  (staticVocabIndices.filter fun id => decide (localStart ≤ id ∧ id < localEnd)).map (· - localStart)

/-- `local_logits.index_copy_(1, indices, source)` for one row. -/
def indexCopy (row : List σ) : List Nat → List σ → Option (List σ)
  | [], [] => some row
  | i :: indices, v :: source => if i < row.length then indexCopy (row.set i v) indices source else none
  | _, _ => none

def matmulStaticVocabParallel (fillValue : σ) (staticVocabIndices : List Nat) (lmHead : VocabParallelEmbedding σ)
    (hiddenStates : List (List σ)) : Option (List (List σ)) := do
  let localLogits := hiddenStates.map fun _ => List.replicate lmHead.numEmbeddingsPerPartition fillValue
  let localRelativeIndices := getPartitionStaticRelativeIndices staticVocabIndices lmHead.shardIndices.orgVocabStartIndex
    lmHead.shardIndices.orgVocabEndIndex
  if localRelativeIndices = [] then return localLogits
  else
    let weightBase := lmHead.weight.take lmHead.numOrgEmbeddingsPerPartition
    let weightSlice ← gather weightBase localRelativeIndices
    let logitsSlice := matmul hiddenStates weightSlice
    (localLogits.zip logitsSlice).mapM fun rows => indexCopy rows.1 localRelativeIndices rows.2

/-- What the processor is set up with: the list of a static vocabulary that is in use, the
    scale of the logits and what the soft cap does to an entry. -/
structure LogitsProcessor (σ : Type) where
  staticVocabIndices : Option (List Nat)
  logitScale : Option σ
  finalLogitSoftcapping : Option (σ → σ)
  vocabSize : Nat
  fillValue : σ

def projectHiddenToVocab (lp : LogitsProcessor σ) (hiddenStates : List (List σ)) (lmHead : VocabParallelEmbedding σ) :
    Option (List (List σ)) :=
  match lp.staticVocabIndices with
  | some ids => matmulStaticVocabParallel lp.fillValue ids lmHead hiddenStates
  | none => some (matmul hiddenStates lmHead.weight)

def scaleLogits (logitScale : Option σ) (logits : List (List σ)) : List (List σ) :=
  match logitScale with
  | some c => logits.map (·.map (· * c))
  | none => logits

def capLogits (finalLogitSoftcapping : Option (σ → σ)) (logits : List (List σ)) : List (List σ) :=
  match finalLogitSoftcapping with
  | some cap => logits.map (·.map cap)
  | none => logits

/-- The columns of the ranks side by side. -/
def allGather (rows : Nat) (logits : List (List (List σ))) : List (List σ) :=
  (List.range rows).map fun i => logits.flatMap fun part => part.getD i []

def getLogits (lp : LogitsProcessor σ) (hiddenStates : List (List σ)) (lmHeads : List (VocabParallelEmbedding σ)) :
    Option (List (List σ)) := do
  let parts ← lmHeads.mapM fun lmHead => (projectHiddenToVocab lp hiddenStates lmHead).map (scaleLogits lp.logitScale)
  let logits := allGather hiddenStates.length parts
  let logits ← match lp.staticVocabIndices with
    | some (id :: ids) => logits.mapM fun row => gather row (id :: ids)
    | _ => some (logits.map (·.take lp.vocabSize))
  return capLogits lp.finalLogitSoftcapping logits

/-! ## What a shard holds -/

theorem guard_iff {p : Prop} [Decidable p] {u : Unit} : (guard p : Option Unit) = some u ↔ p := by
  by_cases hp : p <;> simp [guard, hp]

theorem padVocabSize_spec {n padTo m : Nat} (h : padVocabSize n padTo = some m) : 0 < padTo ∧ n ≤ m ∧ padTo ∣ m := by
  unfold padVocabSize at h
  split at h
  · cases h
  rename_i hpad
  cases h
  have hpos : 0 < padTo := pos_of_ne_zero hpad
  refine ⟨hpos, ?_, Dvd.intro_left _ rfl⟩
  have hdiv := div_add_mod (n + padTo - 1) padTo
  have hmod := mod_lt (n + padTo - 1) hpos
  rw [mul_comm] at hdiv
  omega

theorem padVocabSize_of_dvd {n padTo : Nat} (hpos : 0 < padTo) (h : padTo ∣ n) : padVocabSize n padTo = some n := by
  unfold padVocabSize
  obtain ⟨k, rfl⟩ := h
  rw [if_neg (by omega), Nat.add_sub_assoc hpos, Nat.mul_add_div hpos, Nat.div_eq_of_lt (by omega), add_zero, mul_comm]

theorem divide_spec {n d q : Nat} (h : divide n d = some q) : 0 < d ∧ n = q * d := by
  unfold divide at h
  split at h
  · rename_i hd
    cases h
    exact ⟨Nat.pos_of_ne_zero hd.1, (Nat.div_mul_cancel (Nat.dvd_of_mod_eq_zero hd.2)).symm⟩
  · cases h

/-- Without added vocabulary rank `r` holds the rows `[r * size, (r + 1) * size)` of the
    vocabulary, as far as there are any, and zero rows after them. -/
structure Shard (weight : List (List σ)) (size dim rank : Nat) (head : VocabParallelEmbedding σ) : Prop where
  partition_eq : head.numEmbeddingsPerPartition = size
  start_eq : head.shardIndices.orgVocabStartIndex = min (rank * size) weight.length
  end_eq : head.shardIndices.orgVocabEndIndex = min (rank * size + size) weight.length
  rows_eq : head.numOrgEmbeddingsPerPartition = head.shardIndices.orgVocabEndIndex - head.shardIndices.orgVocabStartIndex
  weight_eq : head.weight = weightLoader head.shardIndices size dim weight

theorem init_spec (hadded : c.orgVocabSize = c.numEmbeddings) {rank : Nat} {weight : List (List σ)}
    {head : VocabParallelEmbedding σ} (h : init c rank weight = some head) :
    weight.length = c.numEmbeddings ∧ ∃ size pad padded, c.padding = some pad ∧ padVocabSize c.orgVocabSize pad = some padded ∧
      divide padded c.tpSize = some size ∧ Shard weight size c.embeddingDim rank head := by
  unfold init at h
  simp only [Option.bind_eq_bind, Option.bind_eq_some_iff, guard_iff, Option.pure_def, Option.some.injEq] at h
  obtain ⟨pad, hpad, padded, hpadded, all, hall, -, -, shard, hshard, size, hsize, -, -, -, hlen, rfl⟩ := h
  -- no vocabulary is added, so the padded size stays
  obtain ⟨hpos, -, hdvd⟩ := padVocabSize_spec hpadded
  rw [hadded, Nat.sub_self, Nat.add_zero, padVocabSize_of_dvd hpos hdvd] at hall
  obtain rfl : padded = all := Option.some.inj hall
  refine ⟨by omega, size, pad, padded, hpad, hpadded, hsize, ?_⟩
  simp only [getIndices, vocabRangeFromGlobalVocabSize, vocabRangeFromPerPartitionVocabSize, hsize, Option.bind_eq_bind,
    Option.bind_some, Option.pure_def, Option.bind_eq_some_iff, guard_iff, Option.some.injEq] at hshard
  obtain ⟨added, -, -, -, rfl⟩ := hshard
  exact ⟨rfl, by rw [hlen]; rfl, by rw [hlen]; rfl, rfl, rfl⟩

variable {weight : List (List σ)} {size dim rank : Nat} {head : VocabParallelEmbedding σ}

theorem Shard.weight_length (h : Shard weight size dim rank head) : head.weight.length = size := by
  rw [h.weight_eq]
  unfold weightLoader
  have hs := h.start_eq
  have he := h.end_eq
  simp only [length_append, length_take, length_drop, length_replicate]
  omega

/-- The row of an id of the shard. -/
theorem Shard.weight_row (h : Shard weight size dim rank head) (hid : id < weight.length) (hlo : rank * size ≤ id)
    (hhi : id < rank * size + size) : head.weight[id - rank * size]? = weight[id]? ∧
    id - rank * size < head.numOrgEmbeddingsPerPartition ∧
      head.shardIndices.orgVocabStartIndex = rank * size ∧ id < head.shardIndices.orgVocabEndIndex := by
  have hs := h.start_eq
  have he := h.end_eq
  have hrows := h.rows_eq
  refine ⟨?_, by omega, by omega, by omega⟩
  rw [h.weight_eq]
  unfold weightLoader
  rw [getElem?_append_left (by simp only [length_take, length_drop]; omega),
    getElem?_take_of_lt (by omega), getElem?_drop]
  congr 1
  omega

/-! ## The columns of a rank -/

/-- The row has the entry `f id` in the column of each id of the shard for which `S` holds. -/
structure Serves (size vocabSize rank : Nat) (S : Nat → Prop) (f : Nat → σ) (row : List σ) : Prop where
  length_eq : row.length = size
  column : ∀ id, S id → id < vocabSize → rank * size ≤ id → id < rank * size + size → row[id - rank * size]? = some (f id)

theorem Shard.full (h : Shard weight size dim rank head) (hidden : List σ) :
    Serves size weight.length rank (fun _ => True) (fun id => dot hidden (weight.getD id [])) (head.weight.map (dot hidden)) := by
  refine ⟨by rw [length_map, h.weight_length], fun id _ hid hlo hhi => ?_⟩
  rw [getElem?_map, (h.weight_row hid hlo hhi).1, getElem?_eq_getElem hid, map_some, getD_eq_getElem _ _ hid]

omit [Semiring σ] in
theorem indexCopy_spec (value : Nat → σ) (indices : List Nat) (row : List σ) (h : ∀ i ∈ indices, i < row.length) :
    ∃ row', indexCopy row indices (indices.map value) = some row' ∧ row'.length = row.length ∧
      ∀ k, k < row.length → row'[k]? = if k ∈ indices then some (value k) else row[k]? := by
  induction indices generalizing row with
  | nil =>
    exact ⟨row, rfl, rfl, fun k _ => by simp⟩
  | cons i indices ih =>
    have hi := h i mem_cons_self
    obtain ⟨row', hrun, hlen, hget⟩ := ih (row.set i (value i)) fun j hj => by
      rw [length_set]
      exact h j (mem_cons_of_mem i hj)
    rw [length_set] at hlen hget
    refine ⟨row', ?_, hlen, fun k hk => ?_⟩
    · rw [map_cons, indexCopy, if_pos hi]
      exact hrun
    rw [hget k hk]
    by_cases hmem : k ∈ indices
    · rw [if_pos hmem, if_pos (mem_cons_of_mem i hmem)]
    rw [if_neg hmem]
    by_cases hki : k = i
    · rw [if_pos (by rw [hki]; exact mem_cons_self), hki, getElem?_set_self hi]
    · rw [if_neg (by simp [hki, hmem]), getElem?_set_ne (Ne.symm hki)]

theorem mem_relative {lo hi k : Nat} : k ∈ getPartitionStaticRelativeIndices ids lo hi ↔
    ∃ id ∈ ids, lo ≤ id ∧ id < hi ∧ k = id - lo := by
  unfold getPartitionStaticRelativeIndices
  simp only [mem_map, mem_filter, decide_eq_true_eq]
  constructor
  · intro h
    obtain ⟨id, ⟨hid, hlo, hhi⟩, hk⟩ := h
    exact ⟨id, hid, hlo, hhi, hk.symm⟩
  · intro h
    obtain ⟨id, hid, hlo, hhi, hk⟩ := h
    exact ⟨id, ⟨hid, hlo, hhi⟩, hk.symm⟩

theorem Shard.static (h : Shard weight size dim rank head) (fill : σ) (ids : List Nat) (hiddenStates : List (List σ)) :
    ∃ part, matmulStaticVocabParallel fill ids head hiddenStates = some part ∧ List.Forall₂ (fun hidden row =>
      Serves size weight.length rank (· ∈ ids) (fun id => dot hidden (weight.getD id [])) row) hiddenStates part := by
  unfold matmulStaticVocabParallel
  rw [h.partition_eq]
  generalize hrel : getPartitionStaticRelativeIndices ids head.shardIndices.orgVocabStartIndex
    head.shardIndices.orgVocabEndIndex = rel
  have hmem : ∀ id ∈ ids, id < weight.length → rank * size ≤ id → id < rank * size + size → id - rank * size ∈ rel := by
    intro id hid hlt hlo hhi
    obtain ⟨-, -, hstart, hend⟩ := h.weight_row hlt hlo hhi
    rw [← hrel, mem_relative]
    exact ⟨id, hid, by omega, hend, by rw [hstart]⟩
  have hlt : ∀ k ∈ rel, k < head.numOrgEmbeddingsPerPartition := by
    intro k hk
    rw [← hrel, mem_relative] at hk
    obtain ⟨id, -, hlo, hhi, rfl⟩ := hk
    rw [h.rows_eq]
    omega
  have hrows : head.numOrgEmbeddingsPerPartition ≤ size := by
    have hs := h.start_eq
    have he := h.end_eq
    have hr := h.rows_eq
    omega
  by_cases hnil : rel = []
  · rw [if_pos hnil]
    refine ⟨_, rfl, forall₂_map_right_iff.mpr (forall₂_same.mpr fun hidden _ => ⟨length_replicate, ?_⟩)⟩
    intro id hid hlt hlo hhi
    have := hmem id hid hlt hlo hhi
    rw [hnil] at this
    cases this
  have hbase : (head.weight.take head.numOrgEmbeddingsPerPartition).length = head.numOrgEmbeddingsPerPartition := by
    rw [length_take, h.weight_length]
    omega
  have hgather := gather_eq_gatherD [] (head.weight.take head.numOrgEmbeddingsPerPartition)
    fun k hk => by rw [hbase]; exact hlt k hk
  simp only [if_neg hnil, hgather, Option.bind_eq_bind, Option.bind_some, matmul, map_map, zip_map', mapM_map]
  refine mapM_exists (P := Eq) ?_ (forall₂_same.mpr fun _ _ => rfl)
  intro hidden _ he
  subst he
  obtain ⟨row, hrun, hlen, hget⟩ := indexCopy_spec
    (fun k => dot hidden ((head.weight.take head.numOrgEmbeddingsPerPartition).getD k []))
    rel (replicate size fill) fun k hk => by
      rw [length_replicate]
      exact (hlt k hk).trans_le hrows
  rw [length_replicate] at hlen hget
  refine ⟨row, hrun, hlen, fun id hid hlt hlo hhi => ?_⟩
  obtain ⟨hrow, hk, -, -⟩ := h.weight_row hlt hlo hhi
  rw [hget _ (by omega), if_pos (hmem id hid hlt hlo hhi), getD_eq_getElem?_getD, getElem?_take_of_lt hk, hrow,
    getD_eq_getElem?_getD]

/-! ## The gathered logits -/

variable {f : Nat → σ}

omit [Semiring σ] in
theorem Serves.map {row : List σ} (h : Serves size vocabSize rank S f row) (g : σ → σ) :
    Serves size vocabSize rank S (fun id => g (f id)) (row.map g) := by
  refine ⟨by rw [length_map, h.length_eq], fun id hS hid hlo hhi => ?_⟩
  rw [getElem?_map, h.column id hS hid hlo hhi, map_some]

omit [Semiring σ] in
/-- The columns of the ranks side by side are those of the ids. -/
theorem serves_gathered {rows : List (List σ)}
    (h : ∀ rank, rank < rows.length → Serves size vocabSize rank S f (rows.getD rank []))
    (hcover : vocabSize ≤ rows.length * size)
    (hS : S id) (hid : id < vocabSize) : rows.flatten[id]? = some (f id) := by
  have hsize : 0 < size := by
    rcases Nat.eq_zero_or_pos size with h0 | h0
    · rw [h0, mul_zero] at hcover
      omega
    · exact h0
  have hrank : id / size < rows.length := Nat.div_lt_of_lt_mul (by rw [mul_comm]; omega)
  have hsplit := div_add_mod' id size
  have hmod := mod_lt id hsize
  have hlen : ∀ l ∈ rows, l.length = size := by
    intro l hl
    obtain ⟨r, hr, rfl⟩ := mem_iff_getElem.mp hl
    have := (h r hr).length_eq
    rwa [getD_eq_getElem _ _ hr] at this
  have hcol := (h _ hrank).column id hS hid (by omega) (by omega)
  rw [getD_eq_getElem _ _ hrank] at hcol
  rw [← hsplit, getElem?_flatten_rows hmod _ hlen, hsplit, getElem?_eq_getElem hrank, Option.bind_some]
  rwa [show id - id / size * size = id % size by omega] at hcol

variable (lp : LogitsProcessor σ)

def scaled (x : σ) : σ :=
  match lp.logitScale with
  | some c => x * c
  | none => x

def capped (x : σ) : σ :=
  match lp.finalLogitSoftcapping with
  | some cap => cap x
  | none => x

theorem scaleLogits_eq (logits : List (List σ)) : scaleLogits lp.logitScale logits = logits.map (·.map (scaled lp)) := by
  unfold scaleLogits scaled
  split <;> simp

omit [Semiring σ] in
theorem capLogits_eq (lp : LogitsProcessor σ) (logits : List (List σ)) :
    capLogits lp.finalLogitSoftcapping logits = logits.map (·.map (capped lp)) := by
  unfold capLogits capped
  split <;> simp

/-- The ids whose columns a processor computes. -/
def Computed (lp : LogitsProcessor σ) (id : Nat) : Prop := ∀ ids, lp.staticVocabIndices = some ids → id ∈ ids

theorem Shard.project (h : Shard weight size dim rank head) (lp : LogitsProcessor σ) (hiddenStates : List (List σ)) :
    ∃ part, (projectHiddenToVocab lp hiddenStates head).map (scaleLogits lp.logitScale) = some part ∧
    List.Forall₂ (fun hidden row =>
      Serves size weight.length rank (Computed lp) (fun id => scaled lp (dot hidden (weight.getD id []))) row) hiddenStates
        part := by
  have hpart : ∃ part, projectHiddenToVocab lp hiddenStates head = some part ∧ List.Forall₂ (fun hidden row =>
      Serves size weight.length rank (Computed lp) (fun id => dot hidden (weight.getD id [])) row) hiddenStates part := by
    unfold projectHiddenToVocab Computed
    split
    · rename_i ids hids
      obtain ⟨part, hrun, hserve⟩ := h.static lp.fillValue ids hiddenStates
      refine ⟨part, hrun, hserve.imp fun hidden row hs => ⟨hs.length_eq, fun id hid => hs.column id (hid ids hids)⟩⟩
    · refine ⟨_, rfl, forall₂_map_right_iff.mpr (forall₂_same.mpr fun hidden _ => ?_)⟩
      exact ⟨(h.full hidden).length_eq, fun id _ => (h.full hidden).column id trivial⟩
  obtain ⟨part, hrun, hserve⟩ := hpart
  refine ⟨_, by rw [hrun, map_some, scaleLogits_eq], forall₂_map_right_iff.mpr (hserve.imp fun hidden row hs => hs.map _)⟩

/-- The gathered logits have the right entry in the column of each id that is computed. -/
theorem gathered_column {heads : List (VocabParallelEmbedding σ)} {tpSize : Nat}
    (hheads : List.Forall₂ (Shard weight size dim) (range tpSize) heads)
    (hcover : weight.length ≤ tpSize * size) (lp : LogitsProcessor σ) (hiddenStates : List (List σ)) :
    ∃ parts, heads.mapM (fun head => (projectHiddenToVocab lp hiddenStates head).map (scaleLogits lp.logitScale)) = some parts ∧
      ∀ i (hi : i < hiddenStates.length) id, Computed lp id → id < weight.length →
        ((allGather hiddenStates.length parts).getD i [])[id]? = some (scaled lp (dot hiddenStates[i] (weight.getD id []))) := by
  obtain ⟨parts, hrun, hparts⟩ := mapM_exists
    (fun rank head (h : Shard weight size dim rank head) => h.project lp hiddenStates) hheads
  refine ⟨parts, hrun, fun i hi id hc hid => ?_⟩
  have hlen : parts.length = tpSize := by rw [← hparts.length_eq, length_range]
  have hrow : (allGather hiddenStates.length parts).getD i [] = (parts.map fun part => part.getD i []).flatten := by
    simp [allGather, hi, flatMap_def]
  rw [hrow]
  have hserve : ∀ rank, rank < (parts.map fun part => part.getD i []).length → Serves size weight.length rank (Computed lp)
      (fun id => scaled lp (dot hiddenStates[i] (weight.getD id []))) ((parts.map fun part => part.getD i []).getD rank []) := by
    intro rank hr
    rw [length_map] at hr
    have hpart := (forall₂_iff_get.mp hparts).2 rank (by rw [length_range]; omega) hr
    have hlen' := hpart.length_eq
    have hone := (forall₂_iff_get.mp hpart).2 i hi (by omega)
    simp only [get_eq_getElem, getElem_range] at hone
    rw [getD_eq_getElem _ _ (by rw [length_map]; exact hr), getElem_map, getD_eq_getElem _ _ (by simpa using hlen' ▸ hi)]
    exact hone
  exact serves_gathered hserve (by rw [length_map, hlen]; exact hcover) hc hid

theorem heads_shards (hadded : c.orgVocabSize = c.numEmbeddings) {heads : List (VocabParallelEmbedding σ)}
    (hheads : (range c.tpSize).mapM (fun rank => init c rank weight) = some heads) (htp : 0 < c.tpSize) :
    weight.length = c.numEmbeddings ∧ ∃ size, weight.length ≤ c.tpSize * size ∧
      List.Forall₂ (Shard weight size c.embeddingDim) (range c.tpSize) heads := by
  have hall := mapM_forall₂ hheads
  obtain ⟨head, hhead⟩ : ∃ head, init c 0 weight = some head := by
    have hlen := hall.length_eq
    rw [length_range] at hlen
    have := (forall₂_iff_get.mp hall).2 0 (by rw [length_range]; exact htp) (by omega)
    simp only [get_eq_getElem, getElem_range] at this
    exact ⟨_, this⟩
  obtain ⟨hlen, size, pad, padded, hpad, hpadded, hsize, -⟩ := init_spec hadded hhead
  refine ⟨hlen, size, ?_, hall.imp fun rank head h => ?_⟩
  · have := (padVocabSize_spec hpadded).2.1
    rw [hlen, mul_comm, ← (divide_spec hsize).2, ← hadded]
    exact this
  · obtain ⟨-, size', pad', padded', hpad', hpadded', hsize', hshard⟩ := init_spec hadded h
    obtain rfl : pad = pad' := Option.some.inj (hpad.symm.trans hpad')
    obtain rfl : padded = padded' := Option.some.inj (hpadded.symm.trans hpadded')
    obtain rfl : size = size' := Option.some.inj (hsize.symm.trans hsize')
    exact hshard

section
variable {heads : List (VocabParallelEmbedding σ)} {tpSize : Nat} {lp : LogitsProcessor σ}

/-- The logits over the whole vocabulary. -/
theorem getLogits_full (hheads : List.Forall₂ (Shard weight size dim) (range tpSize) heads)
    (hcover : weight.length ≤ tpSize * size)
    (hall : lp.staticVocabIndices = none) (hvocab : lp.vocabSize = weight.length) (hiddenStates : List (List σ)) :
    ∃ full, getLogits lp hiddenStates heads = some full ∧ full.length = hiddenStates.length ∧
    ∀ i (hi : i < hiddenStates.length) id,
      id < weight.length → (full.getD i [])[id]? = some (capped lp (scaled lp (dot hiddenStates[i] (weight.getD id [])))) := by
  obtain ⟨parts, hparts, hcols⟩ := gathered_column hheads hcover lp hiddenStates
  have hlen : (allGather hiddenStates.length parts).length = hiddenStates.length := by simp [allGather]
  refine ⟨capLogits lp.finalLogitSoftcapping ((allGather hiddenStates.length parts).map (·.take lp.vocabSize)), ?_, ?_,
    fun i hi id hid => ?_⟩
  · simp only [getLogits, hparts, hall, Option.bind_eq_bind, Option.bind_some]
    rfl
  · rw [capLogits_eq, length_map, length_map, hlen]
  · have hcol := hcols i hi id (fun ids hids => by rw [hall] at hids; cases hids) hid
    rw [getD_eq_getElem _ _ (by omega)] at hcol
    rw [capLogits_eq, map_map, getD_eq_getElem _ _ (by rw [length_map]; omega), getElem_map]
    simp only [Function.comp_apply, getElem?_map]
    rw [getElem?_take_of_lt (by omega), hcol, map_some]

/-- The logits over a static vocabulary. -/
theorem getLogits_reduced (hheads : List.Forall₂ (Shard weight size dim) (range tpSize) heads)
    (hcover : weight.length ≤ tpSize * size)
    (hstatic : lp.staticVocabIndices = some (id :: ids)) (hrange : ∀ x ∈ id :: ids, x < weight.length)
    (hiddenStates : List (List σ)) : getLogits lp hiddenStates heads =
      some (hiddenStates.map fun hidden => (id :: ids).map fun x => capped lp (scaled lp (dot hidden (weight.getD x [])))) := by
  obtain ⟨parts, hparts, hcols⟩ := gathered_column hheads hcover lp hiddenStates
  have hlen : (allGather hiddenStates.length parts).length = hiddenStates.length := by simp [allGather]
  have hrows : List.Forall₂ (fun hidden row => ∀ x ∈ id :: ids, row[x]? = some (scaled lp (dot hidden (weight.getD x []))))
    hiddenStates
      (allGather hiddenStates.length parts) := by
    refine forall₂_iff_get.mpr ⟨hlen.symm, fun i hi hi' x hx => ?_⟩
    have hcol := hcols i hi x (fun l hl => by rw [hstatic] at hl; exact Option.some.inj hl ▸ hx) (hrange x hx)
    rwa [getD_eq_getElem _ _ hi'] at hcol
  obtain ⟨picked, hpicked, hpick⟩ := mapM_exists (f := fun row => gather row (id :: ids))
    (R := fun hidden row => row = (id :: ids).map fun x => scaled lp (dot hidden (weight.getD x [])))
    (fun hidden row h => ⟨_, gather_of_getElem? h, rfl⟩) hrows
  have hpicked' : picked = hiddenStates.map fun hidden => (id :: ids).map fun x => scaled lp (dot hidden (weight.getD x [])) := by
    rw [← forall₂_eq_eq_eq, forall₂_map_right_iff]
    exact hpick.flip
  simp only [getLogits, hparts, hstatic, Option.bind_eq_bind, Option.bind_some, hpicked, Option.pure_def, capLogits_eq,
    hpicked', map_map, Function.comp_def]

end

/-- Column `j` under a static vocabulary is column `static[j]` of the whole head. -/
theorem getLogits_static {c : HeadConfig} (hadded : c.orgVocabSize = c.numEmbeddings) (htp : 0 < c.tpSize)
    {heads : List (VocabParallelEmbedding σ)}
    (hheads : (List.range c.tpSize).mapM (fun rank => init c rank weight) = some heads)
    (lp : LogitsProcessor σ) (hvocab : lp.vocabSize = c.numEmbeddings) {static : List Nat}
    (hrange : ∀ id ∈ static, id < c.numEmbeddings) (hiddenStates : List (List σ)) :
    ∃ reduced full, getLogits { lp with staticVocabIndices := some static } hiddenStates heads = some reduced ∧
      getLogits { lp with staticVocabIndices := none } hiddenStates heads = some full ∧
      reduced.length = hiddenStates.length ∧ full.length = hiddenStates.length ∧
      ∀ i < hiddenStates.length, ∀ j (hj : j < static.length),
        ∃ v, (reduced.getD i [])[j]? = some v ∧ (full.getD i [])[static[j]]? = some v := by
  obtain ⟨hlen, size, hcover, hshards⟩ := heads_shards hadded hheads htp
  rw [← hlen] at hrange hvocab
  have hall : ({ lp with staticVocabIndices := none } : LogitsProcessor σ).staticVocabIndices = none := rfl
  obtain ⟨full, hfull, hfulllen, hcols⟩ := getLogits_full hshards hcover hall hvocab hiddenStates
  cases static with
  | nil =>
    obtain ⟨parts, hparts, -⟩ := gathered_column hshards hcover { lp with staticVocabIndices := some [] } hiddenStates
    refine ⟨capLogits lp.finalLogitSoftcapping ((allGather hiddenStates.length parts).map (·.take lp.vocabSize)), full, ?_,
      hfull, ?_, hfulllen, fun i _ j hj => absurd hj (not_lt_zero j)⟩
    · simp only [getLogits, hparts, Option.bind_eq_bind, Option.bind_some]
      rfl
    · rw [capLogits_eq, length_map, length_map, allGather, length_map, length_range]
  | cons id ids =>
    have hstatic : ({ lp with staticVocabIndices := some (id :: ids) } : LogitsProcessor σ).staticVocabIndices =
      some (id :: ids) := rfl
    refine ⟨_, full, getLogits_reduced hshards hcover hstatic hrange hiddenStates, hfull, length_map _, hfulllen, ?_⟩
    intro i hi j hj
    refine ⟨_, ?_, hcols i hi _ (hrange _ (getElem_mem hj))⟩
    rw [getD_eq_getElem _ _ (by rw [length_map]; exact hi), getElem_map, getElem?_map, getElem?_eq_getElem hj,
      map_some]
    rfl

/-- Three ranks of two columns for five ids; the second rank has no static id. -/
theorem getLogits_static_three : ∃ heads reduced full,
    (List.range 3).mapM (fun rank => init ⟨5, 1, none, 6, 3, false⟩ rank [[(1 : Nat)], [2], [3], [4], [5]]) = some heads ∧
    getLogits ⟨some [4, 0], none, none, 5, 0⟩ [[10], [20]] heads = some reduced ∧
    getLogits ⟨none, none, none, 5, 0⟩ [[10], [20]] heads = some full ∧ reduced.length = 2 ∧ full.length = 2 ∧
    ∀ i < 2, ∀ j (hj : j < 2), ∃ v, (reduced.getD i [])[j]? = some v ∧ (full.getD i [])[[4, 0][j]]? = some v := by
  have hheads : ((range 3).mapM fun rank =>
      init ⟨5, 1, none, 6, 3, false⟩ rank [[(1 : Nat)], [2], [3], [4], [5]]).isSome := by decide
  obtain ⟨heads, hheads⟩ := Option.isSome_iff_exists.mp hheads
  exact ⟨heads, (getLogits_static rfl (by decide) hheads ⟨none, none, none, 5, 0⟩ rfl (by decide) [[10], [20]]).imp
    fun reduced h => h.imp fun full h => ⟨hheads, h⟩⟩

end

end DynaSpec.Layers
