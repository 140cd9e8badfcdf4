/-
  DynaSpec.Sampling.Penalizers — the penalties of a sampling batch
  (srt/sampling/penaltylib): `_BatchedPenalizer`, its three subclasses, and the
  `BatchedPenalizerOrchestrator` that prepares, filters, merges and tears them down.

  A penalizer keeps one row per request of the batch, or nothing while it is not prepared;
  what a subclass does with a row is a `PenalizerClass`. A row tells what the request has
  put out so far (`Law.Reflects`), and then adds to a token's logit what the request's
  own output asks for (`Law.effect`). A request that does not use a penalizer is
  reflected by a row whatever it has put out, so a penalizer may be prepared late.
  Penalties are exact: elements of an additive group, with -∞ below them.
-/

import DynaSpec.Lib.Gather
import Mathlib.Data.List.Dedup

namespace DynaSpec.Sampling

open DynaSpec.Lib List
open Prod (fst)

/-! ## Sampling parameters -/

/-- What the penalizers read of a request: its `sampling_params`, and the stop tokens of
    its tokenizer. -/
structure SamplingParams (P : Type) where
  frequencyPenalty : P
  presencePenalty : P
  minNewTokens : Nat := 0
  stopTokenIds : List Nat := []
  additionalStopTokenIds : List Nat := []
  eosTokenId : Nat

variable {P : Type} [AddCommGroup P] [DecidableEq P]

/-- `stop_token_ids | additional_stop_token_ids | {eos_token_id}`. -/
def SamplingParams.stopTokens (q : SamplingParams P) : List Nat :=
  (q.stopTokenIds ++ q.additionalStopTokenIds ++ [q.eosTokenId]).dedup

/-! ## Penalizers -/

/-- A subclass of `_BatchedPenalizer`, row by row. `penalty` is what `_apply` adds to the
    logit of a token. -/
structure PenalizerClass (P : Type) where
  Row : Type
  required : SamplingParams P → Bool
  prepare : Nat → List (SamplingParams P) → List Row
  cumulate : Row → Nat → Row
  penalty : Row → Nat → WithBot P

structure FrequencyRow (P : Type) where
  frequencyPenalty : P
  cumulatedFrequencyPenalties : Nat → P

def batchedFrequencyPenalizer (P : Type) [AddCommGroup P] [DecidableEq P] : PenalizerClass P where
  Row := FrequencyRow P
  required q := decide (q.frequencyPenalty ≠ 0)
  prepare _ reqs := reqs.map fun q => ⟨q.frequencyPenalty, fun _ => 0⟩
  cumulate row t :=
    let sum := row.cumulatedFrequencyPenalties t + row.frequencyPenalty
    { row with cumulatedFrequencyPenalties := upd row.cumulatedFrequencyPenalties t sum }
  penalty row t := ((-row.cumulatedFrequencyPenalties t : P) : WithBot P)

structure PresenceRow (P : Type) where
  presencePenalty : P
  cumulatedPresencePenalties : Nat → P

def batchedPresencePenalizer (P : Type) [AddCommGroup P] [DecidableEq P] : PenalizerClass P where
  Row := PresenceRow P
  required q := decide (q.presencePenalty ≠ 0)
  prepare _ reqs := reqs.map fun q => ⟨q.presencePenalty, fun _ => 0⟩
  cumulate row t := { row with cumulatedPresencePenalties := upd row.cumulatedPresencePenalties t row.presencePenalty }
  penalty row t := ((-row.cumulatedPresencePenalties t : P) : WithBot P)

structure MinNewTokensRow (P : Type) where
  minNewTokens : Nat
  stopTokenPenalties : Nat → WithBot P
  lenOutputTokens : Nat

/-- `zeros.scatter_add_` of -∞ at the indices. -/
def scatterNegInf (indices : List Nat) : Nat → WithBot P :=
  indices.foldl (fun m i => upd m i (m i + ⊥)) fun _ => 0

/-- `pad_sequence`: the lists padded to the longest of them. -/
def padSequence (l : List (List Nat)) (value : Nat) : List (List Nat) :=
  let width := (l.map length).foldl max 0
  l.map fun x => x ++ replicate (width - x.length) value

def batchedMinNewTokensPenalizer (P : Type) [AddCommGroup P] [DecidableEq P] : PenalizerClass P where
  Row := MinNewTokensRow P
  required q := decide (q.minNewTokens > 0)
  prepare vocabSize reqs :=
    zipWith (fun q ids => ⟨q.minNewTokens, scatterNegInf ids, 0⟩) reqs
      (padSequence (reqs.map SamplingParams.stopTokens) vocabSize)
  cumulate row _ := { row with lenOutputTokens := row.lenOutputTokens + 1 }
  penalty row t := if row.lenOutputTokens < row.minNewTokens then row.stopTokenPenalties t else 0

/-! ## The orchestrator -/

inductive Kind where
  | frequency
  | minNewTokens
  | presence
  deriving DecidableEq, Repr

def Kind.all : List Kind := [.frequency, .minNewTokens, .presence]

def penalizerClass (P : Type) [AddCommGroup P] [DecidableEq P] : Kind → PenalizerClass P
  | .frequency => batchedFrequencyPenalizer P
  | .minNewTokens => batchedMinNewTokensPenalizer P
  | .presence => batchedPresencePenalizer P

/-- The state of a penalizer; `none` while it is not prepared. -/
abbrev Batched (c : PenalizerClass P) := Option (List c.Row)

namespace Batched
variable {c : PenalizerClass P}

def isRequired (c : PenalizerClass P) (reqs : List (SamplingParams P)) : Bool := reqs.any c.required

/-- The rows once `prepare` has run. -/
def prepare (vocabSize : Nat) (reqs : List (SamplingParams P)) : Batched c → List c.Row
  | none => c.prepare vocabSize reqs
  | some rows => rows

def prepareIfRequired (c : PenalizerClass P) (vocabSize : Nat) (reqs : List (SamplingParams P)) : Batched c :=
  if isRequired c reqs then some (prepare vocabSize reqs none) else none

def cumulateOutputTokens (outputIds : List Nat) (p : Batched c) : Batched c :=
  Option.map (fun rows => zipWith c.cumulate rows outputIds) p

def apply (p : Batched c) (logits : List (Nat → WithBot P)) : List (Nat → WithBot P) :=
  match p with
  | none => logits
  | some rows => zipWith (fun logit row t => logit t + c.penalty row t) logits rows

/-- `none` is an index out of range. -/
def filter (keepIndices : List Nat) : Batched c → Option (Batched c)
  | none => some none
  | some rows => (gather rows keepIndices).map some

def merge (vocabSize : Nat) (reqs theirReqs : List (SamplingParams P)) (p their : Batched c) : Batched c :=
  if p.isNone && their.isNone then none
  else some (p.prepare vocabSize reqs ++ their.prepare vocabSize theirReqs)

end Batched

abbrev Penalizers (P : Type) [AddCommGroup P] [DecidableEq P] := (k : Kind) → Batched (penalizerClass P k)

/-- `penalizers` is `none` once they have been released. -/
structure Orchestrator (P : Type) [AddCommGroup P] [DecidableEq P] where
  penalizers : Option (Penalizers P)
  isRequired : Bool

/-- The three results of a loop over the penalizers that may raise. -/
def sequence {α : Kind → Type} (f : (k : Kind) → Option (α k)) : Option ((k : Kind) → α k) := do
  let frequency ← f .frequency
  let minNewTokens ← f .minNewTokens
  let presence ← f .presence
  some fun
    | .frequency => frequency
    | .minNewTokens => minNewTokens
    | .presence => presence

namespace Orchestrator

def new (vocabSize : Nat) (reqs : List (SamplingParams P)) : Orchestrator P :=
  { penalizers := some fun k => Batched.prepareIfRequired (penalizerClass P k) vocabSize reqs
    isRequired := Kind.all.any fun k => Batched.isRequired (penalizerClass P k) reqs }

def cumulateOutputTokens (outputIds : List Nat) (o : Orchestrator P) : Orchestrator P :=
  { o with penalizers := o.penalizers.map fun ps k => (ps k).cumulateOutputTokens outputIds }

def apply (o : Orchestrator P) (logits : List (Nat → WithBot P)) : List (Nat → WithBot P) :=
  match o.penalizers with
  | none => logits
  | some ps => Kind.all.foldl (fun logits k => (ps k).apply logits) logits

/-- `reqs` are the requests that are left. -/
def filter (keepIndices : List Nat) (reqs : List (SamplingParams P)) (o : Orchestrator P) : Option (Orchestrator P) :=
  if !o.isRequired then some o
  else if keepIndices.isEmpty then some { penalizers := none, isRequired := false }
  else
    let isRequired := o.penalizers.isSome && Kind.all.any fun k => Batched.isRequired (penalizerClass P k) reqs
    match o.penalizers with
    | none => some { o with isRequired := isRequired }
    | some ps => do
      let ps ← sequence fun k =>
        if Batched.isRequired (penalizerClass P k) reqs then (ps k).filter keepIndices else some none
      some { penalizers := some ps, isRequired := isRequired }

/-- `none` is the KeyError of an orchestrator that was released. -/
def merge (vocabSize : Nat) (reqs theirReqs : List (SamplingParams P)) (o their : Orchestrator P) : Option (Orchestrator P) :=
  if !o.isRequired && !their.isRequired then some o
  else
    match their.penalizers, o.penalizers with
    | none, _ => some { o with isRequired := true }
    | some _, none => none
    | some theirs, some ps =>
      some { penalizers := some fun k => (ps k).merge vocabSize reqs theirReqs (theirs k), isRequired := true }

/-- What `apply_logits_bias` adds to the rows of a batch of `n` requests. -/
def adjustments (n : Nat) (o : Orchestrator P) : List (Nat → WithBot P) :=
  let zero := replicate n fun _ => 0
  if o.isRequired then o.apply zero else zero

end Orchestrator

/-! ## What a row tells -/

/-- What a penalizer's rows tell, and what they add to the logits: a fresh row tells that
    nothing has been put out, and any output to a request that does not use the
    penalizer. -/
structure Law (vocabSize : Nat) (c : PenalizerClass P) where
  Reflects : SamplingParams P → List Nat → c.Row → Prop
  effect : SamplingParams P → List Nat → Nat → WithBot P
  length_prepare : ∀ reqs, (c.prepare vocabSize reqs).length = reqs.length
  prepare : ∀ reqs i (h : i < reqs.length) (h' : i < (c.prepare vocabSize reqs).length),
    Reflects reqs[i] [] (c.prepare vocabSize reqs)[i]
  unused : ∀ q out row, c.required q = false → Reflects q [] row → Reflects q out row
  cumulate : ∀ q out row t, Reflects q out row → Reflects q (out ++ [t]) (c.cumulate row t)
  penalty : ∀ q out row, ∀ t < vocabSize, Reflects q out row → c.penalty row t = effect q out t
  effect_unused : ∀ q out t, c.required q = false → effect q out t = 0

def frequencyLaw (vocabSize : Nat) : Law vocabSize (batchedFrequencyPenalizer P) where
  Reflects q out row := row.frequencyPenalty = q.frequencyPenalty ∧
    ∀ t, row.cumulatedFrequencyPenalties t = out.count t • q.frequencyPenalty
  effect q out t := ((-(out.count t • q.frequencyPenalty) : P) : WithBot P)
  length_prepare reqs := length_map _
  prepare reqs i h h' := by
    simp [batchedFrequencyPenalizer]
  unused q out row hq hr := by
    have hz : q.frequencyPenalty = 0 := by simpa [batchedFrequencyPenalizer] using hq
    refine ⟨hr.1, fun t => ?_⟩
    rw [hr.2 t, hz, nsmul_zero, nsmul_zero]
  cumulate q out row t hr := by
    refine ⟨hr.1, fun t' => ?_⟩
    show upd row.cumulatedFrequencyPenalties t _ t' = _
    by_cases h : t' = t
    · subst h
      rw [upd_same, hr.1, hr.2, count_append, count_singleton_self, succ_nsmul]
    · rw [upd_ne _ _ h, hr.2, count_append, count_singleton, if_neg (by simpa using Ne.symm h), add_zero]
  penalty q out row t _ hr := by
    show ((-row.cumulatedFrequencyPenalties t : P) : WithBot P) = _
    rw [hr.2]
  effect_unused q out t hq := by
    have hz : q.frequencyPenalty = 0 := by simpa [batchedFrequencyPenalizer] using hq
    rw [hz, nsmul_zero, neg_zero, WithBot.coe_zero]

def presenceLaw (vocabSize : Nat) : Law vocabSize (batchedPresencePenalizer P) where
  Reflects q out row := row.presencePenalty = q.presencePenalty ∧
    ∀ t, row.cumulatedPresencePenalties t = if t ∈ out then q.presencePenalty else 0
  effect q out t := ((-(if t ∈ out then q.presencePenalty else 0) : P) : WithBot P)
  length_prepare reqs := length_map _
  prepare reqs i h h' := by
    simp [batchedPresencePenalizer]
  unused q out row hq hr := by
    have hz : q.presencePenalty = 0 := by simpa [batchedPresencePenalizer] using hq
    refine ⟨hr.1, fun t => ?_⟩
    rw [hr.2 t, hz, ite_self, ite_self]
  cumulate q out row t hr := by
    refine ⟨hr.1, fun t' => ?_⟩
    show upd row.cumulatedPresencePenalties t row.presencePenalty t' = _
    by_cases h : t' = t
    · subst h
      rw [upd_same, hr.1, if_pos (mem_append_right _ mem_cons_self)]
    · rw [upd_ne _ _ h, hr.2]
      simp [h]
  penalty q out row t _ hr := by
    show ((-row.cumulatedPresencePenalties t : P) : WithBot P) = _
    rw [hr.2]
  effect_unused q out t hq := by
    have hz : q.presencePenalty = 0 := by simpa [batchedPresencePenalizer] using hq
    rw [hz, ite_self, neg_zero, WithBot.coe_zero]

omit [DecidableEq P] in
theorem scatterNegInf_eq (indices : List Nat) (t : Nat) :
    (scatterNegInf indices t : WithBot P) = if t ∈ indices then ⊥ else 0 := by
  have hfold : ∀ (l : List Nat) (m : Nat → WithBot P), l.foldl (fun m i => upd m i (m i + ⊥)) m t = if t ∈ l then ⊥ else m t := by
    intro l
    induction l with
    | nil => intro m; rfl
    | cons i l ih =>
      intro m
      rw [foldl_cons, ih]
      by_cases ht : t ∈ l
      · rw [if_pos ht, if_pos (mem_cons_of_mem i ht)]
      rw [if_neg ht]
      by_cases hi : t = i
      · subst hi
        rw [upd_same, WithBot.add_bot, if_pos mem_cons_self]
      · rw [upd_ne _ _ hi, if_neg (by simp [hi, ht])]
  exact hfold indices _

def minNewTokensLaw (vocabSize : Nat) : Law vocabSize (batchedMinNewTokensPenalizer P) where
  Reflects q out row := row.minNewTokens = q.minNewTokens ∧
    (∀ t < vocabSize, row.stopTokenPenalties t = if t ∈ q.stopTokens then ⊥ else 0) ∧
    (q.minNewTokens = 0 ∨ row.lenOutputTokens = out.length)
  effect q out t := if t ∈ q.stopTokens ∧ out.length < q.minNewTokens then ⊥ else 0
  length_prepare reqs := by
    simp [batchedMinNewTokensPenalizer, padSequence]
  prepare reqs i h h' := by
    simp only [batchedMinNewTokensPenalizer, padSequence, getElem_zipWith, getElem_map]
    refine ⟨trivial, fun t ht => ?_, .inr rfl⟩
    rw [scatterNegInf_eq]
    congr 1
    simp only [mem_append, mem_replicate, eq_iff_iff, or_iff_left_iff_imp]
    intro hpad
    omega
  unused q out row hq hr := by
    have hz : q.minNewTokens = 0 := by simpa [batchedMinNewTokensPenalizer] using hq
    exact ⟨hr.1, hr.2.1, .inl hz⟩
  cumulate q out row t hr := by
    refine ⟨hr.1, hr.2.1, ?_⟩
    rcases hr.2.2 with h0 | h
    · exact .inl h0
    refine .inr ?_
    show row.lenOutputTokens + 1 = _
    rw [h, length_append, length_singleton]
  penalty q out row t ht hr := by
    show (if row.lenOutputTokens < row.minNewTokens then row.stopTokenPenalties t else 0) = _
    rw [hr.1, hr.2.1 t ht]
    rcases hr.2.2 with h0 | h
    · simp [h0]
    · rw [h]
      by_cases hlt : out.length < q.minNewTokens <;> simp [hlt]
  effect_unused q out t hq := by
    have hz : q.minNewTokens = 0 := by simpa [batchedMinNewTokensPenalizer] using hq
    simp [hz]

def penalizerLaw (vocabSize : Nat) : (k : Kind) → Law vocabSize (penalizerClass P k)
  | .frequency => frequencyLaw vocabSize
  | .minNewTokens => minNewTokensLaw vocabSize
  | .presence => presenceLaw vocabSize

/-! ## What the orchestrator tells -/

/-- The rows of the penalizers tell `l`: the requests of the batch with what each of them
    has put out; a penalizer that is not prepared is used by none of them. -/
def Tracks (vocabSize : Nat) (l : List (SamplingParams P × List Nat)) (o : Orchestrator P) : Prop :=
  ∃ ps, o.penalizers = some ps ∧ ∀ k, (ps k = none ∧ ∀ x ∈ l, (penalizerClass P k).required x.1 = false) ∨
    ∃ rows, ps k = some rows ∧ o.isRequired = true ∧
    List.Forall₂ (fun x row => (penalizerLaw vocabSize k).Reflects x.1 x.2 row) l rows

section
variable {vocabSize : Nat} {l l' : List (SamplingParams P × List Nat)} {o o' : Orchestrator P}

theorem mem_kinds (k : Kind) : k ∈ Kind.all := by cases k <;> decide

/-- Rows prepared for `l` tell it, if who uses the penalizer has put out nothing yet. -/
theorem reflects_prepare (k : Kind) (h : ∀ x ∈ l, x.2 = [] ∨ (penalizerClass P k).required x.1 = false) :
    List.Forall₂ (fun x row => (penalizerLaw vocabSize k).Reflects x.1 x.2 row) l
      ((penalizerClass P k).prepare vocabSize (l.map fst)) := by
  have hlen := (penalizerLaw vocabSize k).length_prepare (l.map fst)
  rw [forall₂_iff_get]
  refine ⟨by rw [hlen, length_map], ?_⟩
  intro i h1 h2
  have hfresh := (penalizerLaw vocabSize k).prepare (l.map fst) i (by rwa [length_map]) h2
  rw [getElem_map] at hfresh
  rcases h l[i] (getElem_mem h1) with hnil | hun
  · rw [get_eq_getElem, hnil]
    exact hfresh
  · exact (penalizerLaw vocabSize k).unused _ _ _ hun hfresh

theorem tracks_new (h : ∀ x ∈ l, x.2 = [] ∨ ∀ k, (penalizerClass P k).required x.1 = false) :
    Tracks vocabSize l (Orchestrator.new vocabSize (l.map fst)) := by
  refine ⟨_, rfl, fun k => ?_⟩
  by_cases hreq : Batched.isRequired (penalizerClass P k) (l.map fst) = true
  · refine .inr ⟨_, if_pos hreq, any_eq_true.mpr ⟨k, mem_kinds k, hreq⟩, ?_⟩
    exact reflects_prepare k fun x hx => (h x hx).imp_right fun hu => hu k
  refine .inl ⟨if_neg hreq, fun x hx => ?_⟩
  have := any_eq_false.mp (Bool.eq_false_iff.mpr hreq) x.1 (mem_map_of_mem hx)
  exact Bool.eq_false_iff.mpr this

/-- Each request with one more token. -/
def putOut (l : List (SamplingParams P × List Nat)) (outputIds : List Nat) : List (SamplingParams P × List Nat) :=
  zipWith (fun x t => (x.1, x.2 ++ [t])) l outputIds

theorem Tracks.cumulate (h : Tracks vocabSize l o) (outputIds : List Nat) :
    Tracks vocabSize (putOut l outputIds) (o.cumulateOutputTokens outputIds) := by
  obtain ⟨ps, hps, hk⟩ := h
  refine ⟨fun k => (ps k).cumulateOutputTokens outputIds, by rw [Orchestrator.cumulateOutputTokens, hps]; rfl, fun k => ?_⟩
  rcases hk k with ⟨hnone, hun⟩ | ⟨rows, hrows, hreq, hrefl⟩
  · refine .inl ⟨by dsimp only; rw [hnone]; rfl, fun x hx => ?_⟩
    obtain ⟨i, hi, rfl⟩ := getElem_of_mem hx
    simp only [putOut, getElem_zipWith]
    exact hun _ (getElem_mem _)
  refine .inr ⟨_, by dsimp only; rw [hrows]; rfl, hreq, ?_⟩
  rw [forall₂_iff_get] at hrefl ⊢
  refine ⟨by simp [putOut, hrefl.1], fun i h1 h2 => ?_⟩
  simp only [putOut, get_eq_getElem, getElem_zipWith]
  exact (penalizerLaw vocabSize k).cumulate _ _ _ _ (hrefl.2 i _ _)

/-- Penalizers that nobody uses tell any output. -/
theorem Tracks.of_not_required (h : Tracks vocabSize l o) (hreq : o.isRequired = false) (hl : l.map fst = l'.map fst) :
    Tracks vocabSize l' o := by
  obtain ⟨ps, hps, hk⟩ := h
  refine ⟨ps, hps, fun k => ?_⟩
  rcases hk k with ⟨hnone, hun⟩ | ⟨_, _, hr, _⟩
  · refine .inl ⟨hnone, fun x hx => ?_⟩
    have hmem : x.1 ∈ l.map fst := hl ▸ mem_map_of_mem hx
    obtain ⟨y, hy, hxy⟩ := mem_map.mp hmem
    rw [← hxy]
    exact hun y hy
  · rw [hreq] at hr
    cases hr

theorem sequence_eq {α : Kind → Type} {f : (k : Kind) → Option (α k)} {g : (k : Kind) → α k} (h : ∀ k, f k = some (g k)) :
    sequence f = some g := by
  simp only [sequence, h, Option.bind_eq_bind, Option.bind_some, Option.some.injEq]
  funext k
  cases k <;> rfl

theorem Tracks.filter (h : Tracks vocabSize l o) {keepIndices : List Nat} (hne : keepIndices ≠ [])
    (hl : gather l keepIndices = some l') :
    ∃ o', o.filter keepIndices (l'.map fst) = some o' ∧ Tracks vocabSize l' o' := by
  obtain ⟨ps, hps, hk⟩ := h
  unfold Orchestrator.filter
  by_cases hreq : o.isRequired = true
  · -- each penalizer that is still used keeps the rows of the requests that are left
    have hstep : ∀ k, ∃ p : Batched (penalizerClass P k),
        (if Batched.isRequired (penalizerClass P k) (l'.map fst) then (ps k).filter keepIndices else some none) = some p ∧
        ((p = none ∧ ∀ x ∈ l', (penalizerClass P k).required x.1 = false) ∨
          ∃ rows, p = some rows ∧ Batched.isRequired (penalizerClass P k) (l'.map fst) = true ∧
            List.Forall₂ (fun x row => (penalizerLaw vocabSize k).Reflects x.1 x.2 row) l' rows) := by
      intro k
      by_cases hr : Batched.isRequired (penalizerClass P k) (l'.map fst) = true
      · rw [if_pos hr]
        rcases hk k with ⟨hnone, hun⟩ | ⟨rows, hrows, -, hrefl⟩
        · exact ⟨none, by rw [hnone]; rfl, .inl ⟨rfl, fun x hx => hun x (gather_mem hl hx)⟩⟩
        · obtain ⟨rows', hg, hrefl'⟩ := gather_forall₂ hrefl hl
          exact ⟨some rows', by rw [hrows, Batched.filter, hg]; rfl, .inr ⟨rows', rfl, hr, hrefl'⟩⟩
      · refine ⟨none, if_neg hr, .inl ⟨rfl, fun x hx => ?_⟩⟩
        exact Bool.eq_false_iff.mpr (any_eq_false.mp (Bool.eq_false_iff.mpr hr) x.1 (mem_map_of_mem hx))
    choose g hg hspec using hstep
    refine ⟨⟨some g, Kind.all.any fun k => Batched.isRequired (penalizerClass P k) (l'.map fst)⟩, ?_, g, rfl, fun k => ?_⟩
    · rw [if_neg (by simp [hreq]), if_neg (by simpa using hne), hps]
      simp only [sequence_eq hg]
      rfl
    · rcases hspec k with hn | ⟨rows, hrows, hr, hrefl⟩
      · exact .inl hn
      · exact .inr ⟨rows, hrows, any_eq_true.mpr ⟨k, mem_kinds k, hr⟩, hrefl⟩
  · refine ⟨o, if_pos (by simp [hreq]), ps, hps, fun k => ?_⟩
    rcases hk k with ⟨hnone, hun⟩ | ⟨_, _, hr, _⟩
    · exact .inl ⟨hnone, fun x hx => hun x (gather_mem hl hx)⟩
    · exact absurd hr hreq

theorem Tracks.merge (h : Tracks vocabSize l o) (h' : Tracks vocabSize l' o') :
    ∃ o'', o.merge vocabSize (l.map fst) (l'.map fst) o' = some o'' ∧ Tracks vocabSize (l ++ l') o'' := by
  obtain ⟨ps, hps, hk⟩ := h
  obtain ⟨ps', hps', hk'⟩ := h'
  have hboth : ∀ k, ps k = none → ps' k = none → ∀ x ∈ l ++ l', (penalizerClass P k).required x.1 = false := by
    intro k hn hn' x hx
    rcases hk k with ⟨-, hun⟩ | ⟨_, hr, _⟩
    · rcases hk' k with ⟨-, hun'⟩ | ⟨_, hr', _⟩
      · exact (mem_append.mp hx).elim (hun x) (hun' x)
      · rw [hn'] at hr'
        cases hr'
    · rw [hn] at hr
      cases hr
  unfold Orchestrator.merge
  by_cases hreq : (!o.isRequired && !o'.isRequired) = true
  · obtain ⟨h1, h2⟩ : o.isRequired = false ∧ o'.isRequired = false := by simpa using hreq
    refine ⟨o, if_pos hreq, ps, hps, fun k => .inl ?_⟩
    rcases hk k with ⟨hnone, -⟩ | ⟨_, _, hr, _⟩
    · rcases hk' k with ⟨hnone', -⟩ | ⟨_, _, hr', _⟩
      · exact ⟨hnone, hboth k hnone hnone'⟩
      · rw [h2] at hr'
        cases hr'
    · rw [h1] at hr
      cases hr
  rw [if_neg hreq, hps, hps']
  refine ⟨_, rfl, _, rfl, fun k => ?_⟩
  by_cases hnn : ((ps k).isNone && (ps' k).isNone) = true
  · obtain ⟨hn, hn'⟩ : ps k = none ∧ ps' k = none := by simpa using hnn
    exact .inl ⟨if_pos hnn, hboth k hn hn'⟩
  -- rows prepared late tell any output of requests that do not use the penalizer
  refine .inr ⟨_, if_neg hnn, rfl, rel_append ?_ ?_⟩
  · rcases hk k with ⟨hnone, hun⟩ | ⟨rows, hrows, -, hrefl⟩
    · rw [hnone]
      exact reflects_prepare k fun x hx => .inr (hun x hx)
    · rw [hrows]
      exact hrefl
  · rcases hk' k with ⟨hnone, hun⟩ | ⟨rows, hrows, -, hrefl⟩
    · rw [hnone]
      exact reflects_prepare k fun x hx => .inr (hun x hx)
    · rw [hrows]
      exact hrefl

/-- What a request with the output `out` asks to be added to the logit of `t`. -/
def expectedPenalty (q : SamplingParams P) (out : List Nat) (t : Nat) : WithBot P :=
  if t ∈ q.stopTokens ∧ out.length < q.minNewTokens then ⊥
  else ((-(out.count t • q.frequencyPenalty) - (if t ∈ out then q.presencePenalty else 0) : P) : WithBot P)

theorem sum_effects (vocabSize : Nat) (q : SamplingParams P) (out : List Nat) (t : Nat) :
    0 + (penalizerLaw vocabSize .frequency).effect q out t + (penalizerLaw vocabSize .minNewTokens).effect q out t +
      (penalizerLaw vocabSize .presence).effect q out t = expectedPenalty q out t := by
  show 0 + ((-(out.count t • q.frequencyPenalty) : P) : WithBot P) + (if t ∈ q.stopTokens ∧ out.length < q.minNewTokens
    then ⊥ else 0) +
    ((-(if t ∈ out then q.presencePenalty else 0) : P) : WithBot P) = _
  unfold expectedPenalty
  split
  · rw [WithBot.add_bot, WithBot.bot_add]
  · rw [zero_add, add_zero, ← WithBot.coe_add, sub_eq_add_neg]

/-- One penalizer adds its effect to every row. -/
theorem apply_tracks (k : Kind) {p : Batched (penalizerClass P k)}
    (hp : (p = none ∧ ∀ x ∈ l, (penalizerClass P k).required x.1 = false) ∨
      ∃ rows, p = some rows ∧ List.Forall₂ (fun x row => (penalizerLaw vocabSize k).Reflects x.1 x.2 row) l rows)
    {logits : List (Nat → WithBot P)} {e : SamplingParams P × List Nat → Nat → WithBot P}
    (hlog : List.Forall₂ (fun x logit => ∀ t < vocabSize, logit t = e x t) l logits) :
    List.Forall₂ (fun x logit => ∀ t < vocabSize, logit t = e x t + (penalizerLaw vocabSize k).effect x.1 x.2 t) l
      (p.apply logits) := by
  rcases hp with ⟨rfl, hun⟩ | ⟨rows, rfl, hrefl⟩
  · rw [forall₂_iff_get] at hlog ⊢
    refine ⟨hlog.1, fun i h1 h2 t ht => ?_⟩
    rw [(penalizerLaw vocabSize k).effect_unused _ _ _ (hun _ (get_mem l ⟨i, h1⟩)), add_zero]
    exact hlog.2 i h1 h2 t ht
  show List.Forall₂ _ l (zipWith (fun logit row t => logit t + (penalizerClass P k).penalty row t) logits rows)
  rw [forall₂_iff_get] at hlog hrefl ⊢
  refine ⟨by simp [← hlog.1, ← hrefl.1], fun i h1 h2 t ht => ?_⟩
  have hpen := (penalizerLaw vocabSize k).penalty _ _ _ t ht (hrefl.2 i h1 (hrefl.1 ▸ h1))
  have hl := hlog.2 i h1 (hlog.1 ▸ h1) t ht
  simp only [get_eq_getElem, getElem_zipWith] at hpen hl ⊢
  rw [hpen, hl]

/-- The rows of a batch are adjusted as the outputs that the penalizers tell ask for. -/
theorem Tracks.adjustments (h : Tracks vocabSize l o) :
    List.Forall₂ (fun x row => ∀ t < vocabSize, row t = expectedPenalty x.1 x.2 t) l (o.adjustments l.length) := by
  obtain ⟨ps, hps, hk⟩ := h
  have hzero : List.Forall₂ (fun _ row => ∀ t < vocabSize, row t = (0 : WithBot P)) l
      (replicate l.length fun _ => 0) := by
    rw [forall₂_iff_get]
    exact ⟨by simp, fun i _ _ t _ => by simp⟩
  have hp : ∀ k, (ps k = none ∧ ∀ x ∈ l, (penalizerClass P k).required x.1 = false) ∨
      ∃ rows, ps k = some rows ∧ List.Forall₂ (fun x row => (penalizerLaw vocabSize k).Reflects x.1 x.2 row) l rows := by
    intro k
    rcases hk k with hn | ⟨rows, hrows, -, hrefl⟩
    · exact .inl hn
    · exact .inr ⟨rows, hrows, hrefl⟩
  unfold Orchestrator.adjustments
  by_cases hreq : o.isRequired = true
  · rw [if_pos hreq, Orchestrator.apply, hps]
    have h3 := apply_tracks .presence (hp .presence) (apply_tracks .minNewTokens (hp .minNewTokens)
      (apply_tracks .frequency (hp .frequency) hzero))
    exact h3.imp fun x row hx t ht => by rw [hx t ht, sum_effects]
  rw [if_neg hreq]
  have hun : ∀ k, ∀ x ∈ l, (penalizerClass P k).required x.1 = false := by
    intro k
    rcases hk k with ⟨-, hun⟩ | ⟨_, _, hr, _⟩
    · exact hun
    · exact absurd hr hreq
  rw [forall₂_iff_get] at hzero ⊢
  refine ⟨hzero.1, fun i h1 h2 t ht => ?_⟩
  have heff := fun k => (penalizerLaw vocabSize k).effect_unused _ (l.get ⟨i, h1⟩).2 t (hun k _ (get_mem l ⟨i, h1⟩))
  rw [hzero.2 i h1 h2 t ht, ← sum_effects vocabSize, heff, heff, heff, add_zero, add_zero, add_zero]

end

end DynaSpec.Sampling
