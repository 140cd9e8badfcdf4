/-
  DynaSpec.Managers.CheckFinished — when a request is finished, for tokens that come in groups
  (python/sglang/srt/managers/schedule_batch.py, Req.check_finished and its helpers, and
  scheduler_output_processor_mixin.py, process_batch_result_decode and
  stream_output_generation).

  `check_finished` looks at a whole group at once: first at the length of the output, then at
  the stop tokens of the group, then for tokens outside the vocabulary, and last for stop
  strings at the end of the output. Token by token the cause that comes first wins instead.

  `grouping_agrees_iff`: the reason and the output through the stop are those of single tokens
  exactly if, for the group with the first token that finishes the request, nothing that the
  check looks at before can be seen in the rest of the group, and a stop string ends with the
  group (`Fits`). `length_hides_stop_token` is a group on which they differ.
-/

import DynaSpec.Lib.Search

namespace DynaSpec.Managers.CheckFinished

open DynaSpec.Lib List Option

variable {groups : List (List Int)} {ids : List Int} {c : Cause}

inductive FinishReason where
  | matchedToken (matched : Int)
  | matchedStr (matched : List Char)
  | matchedRegex (matched : List Char)
  | length (length : Nat)
  | abort (message : String)
  deriving DecidableEq

/-- What stays the same about a request. A request without a tokenizer has no ids of one and no stop strings. -/
structure Params where
  maxNewTokens : Nat
  ignoreEos : Bool
  stopTokenIds : List Int
  eosTokenIds : List Int
  tokenizerEosTokenId : Option Int
  additionalStopTokenIds : List Int
  decode : List Int → List Char
  stopStrs : List (List Char)
  stopRegexStrs : List (List Char)
  search : List Char → List Char → Bool
  stopStrMaxLen : Nat
  stopRegexMaxLen : Nat
  vocabSize : Int
  decodedText : List Char

structure Req where
  params : Params
  outputIds : List Int
  finishedReason : Option FinishReason
  finishedLen : Option Nat
  toFinish : Option FinishReason := none
  /-- Whether the grammar of the request has ended after an output. -/
  grammar : Option (List Int → Bool) := none

namespace Params

variable (p : Params)

/-- `token_id` ends the request. -/
def isStop (t : Int) : Bool :=
  !p.ignoreEos && (p.stopTokenIds.contains t || p.eosTokenIds.contains t || p.tokenizerEosTokenId == some t ||
    p.additionalStopTokenIds.contains t)

def outside (t : Int) : Bool := decide (t > p.vocabSize) || decide (t < 0)

/-- The token that is put in the place of one outside the vocabulary. -/
def substitute (t : Int) : Int := (p.eosTokenIds.head? <|> p.stopTokenIds.head?).getD t

def tailStr (outputIds : List Int) : List Char :=
  let tailLen := min (max (p.stopStrMaxLen + 1) (p.stopRegexMaxLen + 1) + 1) outputIds.length
  p.decode (outputIds.drop (outputIds.length - tailLen))

/-- The stop string or pattern that `_check_str_based_finish` finds. -/
def strMatch (outputIds : List Int) : Option FinishReason :=
  if p.stopStrs = [] ∧ p.stopRegexStrs = [] then none
  else
    let tailStr := p.tailStr outputIds
    (p.stopStrs.find? fun s => (find s tailStr).isSome || (find s p.decodedText).isSome).map .matchedStr <|>
      (p.stopRegexStrs.find? fun s => p.search s tailStr).map .matchedRegex

end Params

namespace Req

variable (r : Req)

def finished : Bool := r.finishedReason.isSome

def outputIdsThroughStop : List Int :=
  match r.finishedLen with
  | some n => r.outputIds.take n
  | none => r.outputIds

/-- `output_ids[-n:]`. -/
def lastIds (n : Nat) (ids : List Int) : List Int := if n = 0 then ids else ids.drop (ids.length - n)

def checkTokenBasedFinish (newAcceptedTokens : List Int) : Option Req :=
  (newAcceptedTokens.zipIdx.find? fun e => r.params.isStop e.1).map fun e =>
    { r with
      finishedReason := some (.matchedToken e.1)
      finishedLen := some (r.outputIds.length - newAcceptedTokens.length + e.2 + 1) }

def checkVocabBoundaryFinish (newAcceptedTokens : List Int) : Option Req :=
  (newAcceptedTokens.zipIdx.find? fun e => r.params.outside e.1).map fun e =>
    let offset := r.outputIds.length - newAcceptedTokens.length + e.2
    { r with
      outputIds := r.outputIds.set offset (r.params.substitute e.1)
      finishedReason := some (.matchedStr "NaN happened".toList)
      finishedLen := some (offset + 1) }

def checkStrBasedFinish : Option Req := (r.params.strMatch r.outputIds).map fun reason => { r with finishedReason := some reason }

def checkFinished (newAcceptedLen : Nat) : Req :=
  if r.finished then r
  else match r.toFinish with
    | some reason => { r with finishedReason := some reason, toFinish := none }
    | none =>
      if r.outputIds.length ≥ r.params.maxNewTokens then
        { r with finishedReason := some (.length r.params.maxNewTokens), finishedLen := some r.params.maxNewTokens }
      else if r.grammar.any fun terminated => terminated r.outputIds then
        { r with finishedReason := r.outputIds.getLast?.map .matchedToken }
      else
        let newAcceptedTokens := lastIds newAcceptedLen r.outputIds
        (r.checkTokenBasedFinish newAcceptedTokens <|> r.checkVocabBoundaryFinish
          newAcceptedTokens <|> r.checkStrBasedFinish).getD r

/-- A group of accepted tokens of one step; a request that is finished takes no more. -/
def deliver (group : List Int) : Req :=
  if r.finished then r else checkFinished { r with outputIds := r.outputIds ++ group } group.length

/-- What `stream_output_generation` does to the length of a finished request. -/
def setFinishedLen : Req :=
  if r.finished && r.finishedLen.isNone then { r with finishedLen := some r.outputIds.length } else r

end Req

open Req (deliver finished)

/-- Tokens accepted in one step; there is always at least one. -/
structure Group where
  tokens : List Int
  nonempty : tokens ≠ []

/-- A request that has put out the ids and is not finished. -/
def running (p : Params) (outputIds : List Int) : Req := { params := p, outputIds, finishedReason := none, finishedLen := none }

/-- The reason and the output through the stop after the groups, in their order. -/
def result (p : Params) (groups : List (List Int)) : Option FinishReason × List Int :=
  let r := (groups.foldl deliver (running p [])).setFinishedLen
  (r.finishedReason, r.outputIdsThroughStop)

/-! ## When the groups do not matter -/

/-- Why a single token finishes a request. -/
inductive Cause where
  | length
  | token
  | outside
  | string

/-- The cause for the last token of an output. -/
def cause (p : Params) (outputIds : List Int) : Option Cause :=
  if outputIds.length ≥ p.maxNewTokens then some .length
  else if outputIds.getLast?.any p.isStop then some .token
  else if outputIds.getLast?.any p.outside then some .outside
  else if (p.strMatch outputIds).isSome then some .string
  else none

/-- The rest of the group does not show the check anything that it looks at before the cause. -/
def Settled (p : Params) (outputIds rest : List Int) : Cause → Prop
  | .length => True
  | .token => outputIds.length + rest.length < p.maxNewTokens
  | .outside => outputIds.length + rest.length < p.maxNewTokens ∧ ∀ t ∈ rest, p.isStop t = false
  | .string => rest = []

/-- The tokens of a group up to the first that finishes the request, then the groups after it. -/
def FitsGroup (p : Params) (next : Prop) : List Int → List Int → Prop
  | _, [] => next
  | outputIds, t :: rest =>
    match cause p (outputIds ++ [t]) with
    | some c => Settled p (outputIds ++ [t]) rest c
    | none => FitsGroup p next (outputIds ++ [t]) rest

def Fits (p : Params) : List Int → List Group → Prop
  | _, [] => True
  | outputIds, g :: groups => FitsGroup p (Fits p (outputIds ++ g.tokens) groups) outputIds g.tokens

/-! ## The outcome of one check -/

/-- What a check finds: the reason and the output through the stop. -/
def outcome (p : Params) (outputIds : List Int) (n : Nat) : Option (FinishReason × List Int) :=
  if outputIds.length ≥ p.maxNewTokens then some (.length p.maxNewTokens, outputIds.take p.maxNewTokens)
  else
    let new := outputIds.drop (outputIds.length - n)
    match new.zipIdx.find? fun e => p.isStop e.1 with
    | some e => some (.matchedToken e.1, outputIds.take (outputIds.length - n + e.2 + 1))
    | none =>
      match new.zipIdx.find? fun e => p.outside e.1 with
      | some e => some (.matchedStr "NaN happened".toList,
          (outputIds.set (outputIds.length - n + e.2) (p.substitute e.1)).take (outputIds.length - n + e.2 + 1))
      | none => (p.strMatch outputIds).map fun reason => (reason, outputIds)

/-- The outcomes of the groups up to the first that finishes the request. -/
def outcomes (p : Params) : List Int → List (List Int) → Option FinishReason × List Int
  | outputIds, [] => (none, outputIds)
  | outputIds, g :: groups =>
    match outcome p (outputIds ++ g) g.length with
    | some (reason, ids) => (some reason, ids)
    | none => outcomes p (outputIds ++ g) groups

variable {p : Params}

def summary (r : Req) : Option FinishReason × List Int := (r.setFinishedLen.finishedReason, r.setFinishedLen.outputIdsThroughStop)

theorem deliver_finished {r : Req} (h : r.finished = true) (groups : List (List Int)) : groups.foldl deliver r = r := by
  induction groups with
  | nil => rfl
  | cons g groups ih =>
    rw [foldl_cons, show r.deliver g = r from if_pos h]
    exact ih

theorem deliver_spec (p : Params) (outputIds : List Int) {g : List Int} (hg : g ≠ []) :
    match outcome p (outputIds ++ g) g.length with
    | some o => (deliver (running p outputIds) g).finished = true ∧
        summary (deliver (running p outputIds) g) = (some o.1, o.2)
    | none => deliver (running p outputIds) g = running p (outputIds ++ g) := by
  have hlen : g.length ≠ 0 := fun h => hg (length_eq_zero_iff.mp h)
  have hdrop : (outputIds ++ g).drop ((outputIds ++ g).length - g.length) = g := by
    rw [length_append, Nat.add_sub_cancel, drop_left]
  unfold outcome deliver Req.checkFinished running
  simp only [finished, isSome_none, Bool.false_eq_true, if_false, any_none, Req.lastIds, if_neg hlen, hdrop]
  by_cases hmax : (outputIds ++ g).length ≥ p.maxNewTokens
  · simp only [if_pos hmax]
    exact ⟨rfl, rfl⟩
  simp only [if_neg hmax, Req.checkTokenBasedFinish, Req.checkVocabBoundaryFinish, Req.checkStrBasedFinish]
  cases hstop : g.zipIdx.find? fun e => p.isStop e.1 with
  | some e => exact ⟨rfl, rfl⟩
  | none =>
    cases hout : g.zipIdx.find? fun e => p.outside e.1 with
    | some e => exact ⟨rfl, rfl⟩
    | none =>
      cases hstr : p.strMatch (outputIds ++ g) with
      | some reason =>
        refine ⟨rfl, ?_⟩
        simp [summary, Req.setFinishedLen, finished, Req.outputIdsThroughStop]
      | none => rfl

theorem result_eq (outputIds : List Int) (hg : ∀ g ∈ groups, g ≠ []) :
    summary (groups.foldl deliver (running p outputIds)) = outcomes p outputIds groups := by
  induction groups generalizing outputIds with
  | nil => rfl
  | cons g groups ih =>
    have hspec := deliver_spec p outputIds (hg g mem_cons_self)
    rw [foldl_cons, outcomes]
    cases ho : outcome p (outputIds ++ g) g.length with
    | some o =>
      rw [ho] at hspec
      rw [deliver_finished hspec.1]
      exact hspec.2
    | none =>
      rw [ho] at hspec
      rw [show deliver _ g = _ from hspec]
      exact ih _ fun g' hg' => hg g' (mem_cons_of_mem _ hg')

/-! ## Where a check finds something -/

theorem find_zipIdx_first (q : Int → Bool) {before after : List Int} {t : Int} (hb : ∀ x ∈ before, q x = false)
    (ht : q t = true) (k : Nat) :
    ((before ++ t :: after).zipIdx k).find? (fun e => q e.1) = some (t, k + before.length) := by
  induction before generalizing k with
  | nil => simp [ht]
  | cons x before ih =>
    have hx : q x = false := hb x mem_cons_self
    rw [cons_append, zipIdx_cons, find?_cons_of_neg (by simp [hx]), ih fun y hy => hb y (mem_cons_of_mem _ hy)]
    simp [Nat.add_assoc, Nat.add_comm 1]

theorem find_zipIdx_none (q : Int → Bool) {l : List Int} (h : ∀ x ∈ l, q x = false) : l.zipIdx.find? (fun e => q e.1) = none := by
  rw [find?_eq_none]
  intro e he
  rw [h e.1 (fst_mem_of_mem_zipIdx he)]
  exact Bool.false_ne_true

/-- What is found lies after the tokens for which nothing holds. -/
theorem find_zipIdx_bounds (q : Int → Bool) {mid rest : List Int} (hmid : ∀ x ∈ mid, q x = false) {e : Int × Nat}
    (he : (mid ++ rest).zipIdx.find? (fun e => q e.1) = some e) : mid.length ≤ e.2 := by
  have hq : q e.1 = true := by simpa using find?_some he
  have hmem := mem_of_find?_eq_some he
  rw [mem_zipIdx_iff_getElem?] at hmem
  by_contra hlt
  rw [getElem?_append_left (by omega)] at hmem
  rw [hmid e.1 (mem_of_getElem? hmem)] at hq
  cases hq

/-- The tokens of a group that do not end the request by themselves. -/
def Quiet (p : Params) (tokens : List Int) : Prop := ∀ t ∈ tokens, p.isStop t = false ∧ p.outside t = false

/-- The check of a whole group. -/
theorem outcome_group (pre g : List Int) : outcome p (pre ++ g) g.length =
    if (pre ++ g).length ≥ p.maxNewTokens then some (.length p.maxNewTokens, (pre ++ g).take p.maxNewTokens) else
      match g.zipIdx.find? fun e => p.isStop e.1 with
      | some e => some (.matchedToken e.1, (pre ++ g).take (pre.length + e.2 + 1))
      | none =>
        match g.zipIdx.find? fun e => p.outside e.1 with
        | some e =>
          some (.matchedStr "NaN happened".toList,
          ((pre ++ g).set (pre.length + e.2) (p.substitute e.1)).take (pre.length + e.2 + 1))
        | none => (p.strMatch (pre ++ g)).map fun reason => (reason, pre ++ g) := by
  have hlen : (pre ++ g).length - g.length = pre.length := by rw [length_append, Nat.add_sub_cancel]
  unfold outcome
  rw [hlen, drop_left]

/-- With quiet tokens at the start of the group the output through the stop goes on past them. -/
theorem outcome_length (pre mid rest : List Int) (hmax : (pre ++ mid).length < p.maxNewTokens) (hmid : Quiet p mid)
    (hrest : rest ≠ [])
    {o : FinishReason × List Int} (ho : outcome p (pre ++ (mid ++ rest)) (mid ++ rest).length = some o) :
    (pre ++ mid).length < o.2.length := by
  have hpos := length_pos_iff.mpr hrest
  rw [outcome_group] at ho
  split at ho
  · cases ho
    simp only [length_take, length_append] at *
    omega
  split at ho
  · rename_i e he
    have hle := find_zipIdx_bounds p.isStop (fun x hx => (hmid x hx).1) he
    cases ho
    simp only [length_take, length_append] at *
    omega
  split at ho
  · rename_i e he
    have hle := find_zipIdx_bounds p.outside (fun x hx => (hmid x hx).2) he
    cases ho
    simp only [length_take, length_set, length_append] at *
    omega
  · obtain ⟨reason, -, rfl⟩ := map_eq_some_iff.mp ho
    simp only [length_append] at *
    omega

/-- Later groups never shorten the output, while its length is below the limit. -/
theorem length_le_outcomes {outputIds : List Int} (hg : ∀ g ∈ groups, g ≠ [])
    (hmax : outputIds.length < p.maxNewTokens) : outputIds.length ≤ (outcomes p outputIds groups).2.length := by
  induction groups generalizing outputIds with
  | nil => exact le_refl _
  | cons g groups ih =>
    have hne := hg g mem_cons_self
    rw [outcomes]
    cases ho : outcome p (outputIds ++ g) g.length with
    | some o =>
      rw [← append_nil outputIds] at hmax
      have hlt := outcome_length outputIds [] g hmax (fun x hx => absurd hx not_mem_nil) hne ho
      rw [append_nil] at hlt
      exact le_of_lt hlt
    | none =>
      dsimp only
      by_cases hlt : (outputIds ++ g).length < p.maxNewTokens
      · have := ih (fun g' hg' => hg g' (mem_cons_of_mem _ hg')) hlt
        rw [length_append] at this
        omega
      unfold outcome at ho
      rw [if_pos (by omega)] at ho
      cases ho

/-! ## One token at a time -/

theorem cause_spec (ids : List Int) (t : Int) : match cause p (ids ++ [t]) with
    | some .length => p.maxNewTokens ≤ ids.length + 1
    | some .token => ids.length + 1 < p.maxNewTokens ∧ p.isStop t = true
    | some .outside => ids.length + 1 < p.maxNewTokens ∧ p.isStop t = false ∧ p.outside t = true
    | some .string =>
      ids.length + 1 < p.maxNewTokens ∧ p.isStop t = false ∧ p.outside t = false ∧ (p.strMatch (ids ++ [t])).isSome = true
    | none => ids.length + 1 < p.maxNewTokens ∧ p.isStop t = false ∧ p.outside t = false ∧ p.strMatch (ids ++ [t]) = none := by
  unfold cause
  simp only [getLast?_concat, any_some, length_append, length_singleton]
  by_cases hmax : ids.length + 1 ≥ p.maxNewTokens
  · rw [if_pos hmax]
    exact hmax
  have hlt := Nat.lt_of_not_le hmax
  rw [if_neg hmax]
  cases hstop : p.isStop t with
  | true => exact ⟨hlt, rfl⟩
  | false =>
    cases hout : p.outside t with
    | true => exact ⟨hlt, rfl, rfl⟩
    | false =>
      cases hstr : p.strMatch (ids ++ [t]) with
      | none => exact ⟨hlt, rfl, rfl, rfl⟩
      | some reason => exact ⟨hlt, rfl, rfl, rfl⟩

/-- The outcome for a single token, by its cause. -/
theorem outcome_single (ids : List Int) (t : Int) : outcome p (ids ++ [t]) 1 =
      match cause p (ids ++ [t]) with
      | some .length => some (.length p.maxNewTokens, (ids ++ [t]).take p.maxNewTokens)
      | some .token => some (.matchedToken t, ids ++ [t])
      | some .outside => some (.matchedStr "NaN happened".toList, ids ++ [p.substitute t])
      | some .string => (p.strMatch (ids ++ [t])).map fun reason => (reason, ids ++ [t])
      | none => none := by
  have hlen : (ids ++ [t]).length - 1 = ids.length := by simp
  have htake : (ids ++ [t]).take (ids.length + 0 + 1) = ids ++ [t] := take_of_length_le (by simp)
  unfold outcome cause
  rw [hlen, drop_left]
  simp only [getLast?_concat, any_some, zipIdx_singleton, find?_singleton]
  by_cases hmax : (ids ++ [t]).length ≥ p.maxNewTokens
  · simp only [if_pos hmax]
  simp only [if_neg hmax]
  cases hstop : p.isStop t with
  | true => simp [htake]
  | false =>
    cases hout : p.outside t with
    | true => simp
    | false =>
      simp only [Bool.false_eq_true, if_false]
      cases hstr : p.strMatch (ids ++ [t]) with
      | none => rfl
      | some reason => rfl

/-- The tokens of the groups as groups of their own. -/
def singles (tokens : List Int) : List (List Int) := tokens.map fun t => [t]

theorem singles_ne_nil {tokens g : List Int} (h : g ∈ singles tokens) : g ≠ [] := by
  obtain ⟨t, -, rfl⟩ := mem_map.mp h
  exact cons_ne_nil t []

/-! ## A group against its tokens -/

section Group

variable {pre before rest : List Int} {t : Int}

theorem group_token (hquiet : Quiet p before) (hstop : p.isStop t = true)
    (hmax : (pre ++ (before ++ t :: rest)).length < p.maxNewTokens) :
    outcome p (pre ++ (before ++ t :: rest)) (before ++ t :: rest).length = some (.matchedToken t, pre ++ before ++ [t]) := by
  rw [outcome_group, if_neg (by omega), find_zipIdx_first p.isStop (fun x hx => (hquiet x hx).1) hstop]
  have hsplit : pre ++ (before ++ t :: rest) = (pre ++ before ++ [t]) ++ rest := by simp
  have hidx : pre.length + (0 + before.length) + 1 = (pre ++ before ++ [t]).length := by
    simp only [length_append, length_singleton]
    omega
  dsimp only
  rw [hsplit, hidx, take_left]

theorem group_outside (hquiet : Quiet p before) (hstop : p.isStop t = false) (hout : p.outside t = true)
    (hrest : ∀ x ∈ rest, p.isStop x = false) (hmax : (pre ++ (before ++ t :: rest)).length < p.maxNewTokens) :
    outcome p (pre ++ (before ++ t :: rest)) (before ++ t :: rest).length =
      some (.matchedStr "NaN happened".toList, pre ++ before ++ [p.substitute t]) := by
  have hnone : ∀ x ∈ before ++ t :: rest, p.isStop x = false :=
    forall_mem_append.mpr ⟨fun x hx => (hquiet x hx).1, forall_mem_cons.mpr ⟨hstop, hrest⟩⟩
  rw [outcome_group, if_neg (by omega), find_zipIdx_none p.isStop hnone,
    find_zipIdx_first p.outside (fun x hx => (hquiet x hx).2) hout]
  have hsplit : pre ++ (before ++ t :: rest) = (pre ++ before) ++ t :: rest := by simp
  have hidx : pre.length + (0 + before.length) = (pre ++ before).length := by simp
  have hidx' : (pre ++ before).length + 1 = (pre ++ before ++ [p.substitute t]).length := by
    simp only [length_append, length_singleton]
  dsimp only
  rw [hsplit, hidx, set_append_right _ _ (Nat.le_refl _), Nat.sub_self, set_cons_zero, ← singleton_append, ← append_assoc,
    hidx', take_left]

/-- A string that is found before the end of its group: the group is cut later. -/
theorem group_string_ne (hquiet : Quiet p (before ++ [t])) (hmax : (pre ++ (before ++ [t])).length < p.maxNewTokens)
    (hrest : rest ≠ []) (hg : ∀ g ∈ groups, g ≠ []) (reason : Option FinishReason) :
    outcomes p pre ((before ++ t :: rest) :: groups) ≠ (reason, pre ++ before ++ [t]) := by
  intro h
  have hpos := length_pos_iff.mpr hrest
  have hgroup : before ++ t :: rest = before ++ [t] ++ rest := by simp
  have hlen : (pre ++ before ++ [t]).length = (pre ++ (before ++ [t])).length := by rw [append_assoc]
  rw [outcomes] at h
  cases ho : outcome p (pre ++ (before ++ t :: rest)) (before ++ t :: rest).length with
  | some o =>
    have hlt := outcome_length pre (before ++ [t]) rest hmax hquiet hrest (hgroup ▸ ho)
    rw [ho] at h
    have hids : o.2 = pre ++ before ++ [t] := congrArg Prod.snd h
    rw [hids, hlen] at hlt
    omega
  | none =>
    rw [ho] at h
    have hshort : (pre ++ (before ++ t :: rest)).length < p.maxNewTokens := by
      by_contra hlong
      rw [outcome_group, if_pos (by omega)] at ho
      cases ho
    have hle := length_le_outcomes hg hshort
    have hids : (outcomes p (pre ++ (before ++ t :: rest)) groups).2 = pre ++ before ++ [t] := congrArg Prod.snd h
    rw [hids, hlen, hgroup] at hle
    simp only [length_append] at hle
    omega

theorem group_string (hquiet : Quiet p (before ++ [t])) (hmax : (pre ++ (before ++ [t])).length < p.maxNewTokens) :
    outcome p (pre ++ (before ++ [t])) (before ++ [t]).length =
      (p.strMatch (pre ++ before ++ [t])).map fun reason => (reason, pre ++ before ++ [t]) := by
  rw [outcome_group, if_neg (by omega), find_zipIdx_none p.isStop fun x hx => (hquiet x hx).1,
    find_zipIdx_none p.outside fun x hx => (hquiet x hx).2, append_assoc]

theorem settled_iff (hquiet : Quiet p before) (hc : cause p (pre ++ before ++ [t]) = some c)
    (hg : ∀ g ∈ groups, g ≠ []) (more : List (List Int)) :
    outcomes p pre ((before ++ t :: rest) :: groups) = outcomes p (pre ++ before) ([t] :: more) ↔
    Settled p (pre ++ before ++ [t]) rest c := by
  have hspec := cause_spec (p := p) (pre ++ before) t
  have hsingle := outcome_single (p := p) (pre ++ before) t
  have hk : (pre ++ before ++ [t]).length = (pre ++ before).length + 1 := by rw [length_append, length_singleton]
  have hb : (pre ++ (before ++ t :: rest)).length = (pre ++ before).length + 1 + rest.length := by
    simp only [length_append, length_cons]
    omega
  have hlong : p.maxNewTokens ≤ (pre ++ before).length + 1 + rest.length →
      outcome p (pre ++ (before ++ t :: rest)) (before ++ t :: rest).length =
        some (.length p.maxNewTokens, (pre ++ (before ++ t :: rest)).take p.maxNewTokens) :=
        fun h => by rw [outcome_group, if_pos (by omega)]
  have hright : outcomes p (pre ++ before) ([t] :: more) = match outcome p (pre ++ before ++ [t]) 1 with
    | some (reason, ids) => (some reason, ids)
    | none => outcomes p (pre ++ before ++ [t]) more := rfl
  rw [hc] at hsingle hspec
  rw [hright, hsingle]
  cases c with
  | length =>
    rw [outcomes, hlong (by omega)]
    refine ⟨fun _ => trivial, fun _ => ?_⟩
    have hsplit : pre ++ (before ++ t :: rest) = (pre ++ before ++ [t]) ++ rest := by simp
    rw [hsplit, take_append_of_le_length (by omega)]
  | token =>
    rw [outcomes, Settled, hk]
    by_cases hmax : p.maxNewTokens ≤ (pre ++ before).length + 1 + rest.length
    · rw [hlong hmax]
      exact ⟨nofun, fun h => absurd hmax (by omega)⟩
    · rw [group_token hquiet hspec.2 (by omega)]
      exact ⟨fun _ => by omega, fun _ => rfl⟩
  | outside =>
    rw [outcomes, Settled, hk]
    by_cases hmax : p.maxNewTokens ≤ (pre ++ before).length + 1 + rest.length
    · rw [hlong hmax]
      exact ⟨nofun, fun h => absurd hmax (by omega)⟩
    by_cases hrest : ∀ x ∈ rest, p.isStop x = false
    · rw [group_outside hquiet hspec.2.1 hspec.2.2 hrest (by omega)]
      exact ⟨fun _ => ⟨by omega, hrest⟩, fun _ => rfl⟩
    refine ⟨fun h => ?_, fun h => absurd h.2 hrest⟩
    -- a stop token later in the group is found first
    rw [outcome_group, if_neg (by omega)] at h
    cases hfind : (before ++ t :: rest).zipIdx.find? fun e => p.isStop e.1 with
    | some e =>
      rw [hfind] at h
      cases h
    | none =>
      rw [find?_eq_none] at hfind
      refine absurd (fun x hx => ?_) hrest
      have hmem : x ∈ before ++ t :: rest := mem_append_right _ (mem_cons_of_mem _ hx)
      obtain ⟨i, hi⟩ := mem_iff_getElem?.mp hmem
      simpa using hfind (x, i) (mem_zipIdx_iff_getElem?.mpr hi)
  | string =>
    obtain ⟨hmax, hstop, hout, hstr⟩ := hspec
    obtain ⟨reason, hreason⟩ := isSome_iff_exists.mp hstr
    have hquiet' : Quiet p (before ++ [t]) := forall_mem_append.mpr ⟨hquiet, forall_mem_singleton.mpr ⟨hstop, hout⟩⟩
    have hmax' : (pre ++ (before ++ [t])).length < p.maxNewTokens := by
      rw [← append_assoc]
      omega
    rw [hreason, map_some, Settled]
    constructor
    · intro h
      by_contra hrest
      exact group_string_ne hquiet' hmax' hrest hg _ h
    · intro h
      rw [h, outcomes, group_string hquiet' hmax', hreason]
      rfl

/-- A group from its first token that has not been looked at, with the tokens before it quiet. -/
theorem group_iff (hg : ∀ g ∈ groups, g ≠ []) {later : List Int} {next : Prop}
    (hnext : outcomes p (pre ++ before ++ rest) groups = outcomes p (pre ++ before ++ rest) (singles later) ↔ next)
    (hquiet : Quiet p before) (hlast : rest = [] → (pre ++ before).length < p.maxNewTokens ∧ p.strMatch (pre ++ before) = none) :
    outcomes p pre ((before ++ rest) :: groups) = outcomes p (pre ++ before) (singles rest ++ singles later) ↔
      FitsGroup p next (pre ++ before) rest := by
  induction rest generalizing before with
  | nil =>
    obtain ⟨hmax, hstr⟩ := hlast rfl
    have hnone : outcome p (pre ++ (before ++ [])) (before ++ []).length = none := by
      rw [append_nil, outcome_group, if_neg (by omega), find_zipIdx_none p.isStop fun x hx => (hquiet x hx).1,
        find_zipIdx_none p.outside fun x hx => (hquiet x hx).2, hstr]
      rfl
    rw [FitsGroup, outcomes, hnone]
    rw [append_nil] at hnext ⊢
    exact hnext
  | cons t rest ih =>
    rw [FitsGroup]
    cases hc : cause p (pre ++ before ++ [t]) with
    | some c => exact settled_iff hquiet hc hg _
    | none =>
      have hspec := cause_spec (p := p) (pre ++ before) t
      have hsingle := outcome_single (p := p) (pre ++ before) t
      rw [hc] at hspec hsingle
      obtain ⟨hmax, hstop, hout, hstr⟩ := hspec
      have hquiet' : Quiet p (before ++ [t]) := forall_mem_append.mpr ⟨hquiet, forall_mem_singleton.mpr ⟨hstop, hout⟩⟩
      have hgroup : before ++ t :: rest = before ++ [t] ++ rest := by simp
      have hids : pre ++ before ++ [t] = pre ++ (before ++ [t]) := append_assoc _ _ _
      have hright : outcomes p (pre ++ before) (singles (t :: rest) ++ singles later) =
          outcomes p (pre ++ before ++ [t]) (singles rest ++ singles later) := by
        show (match outcome p (pre ++ before ++ [t]) 1 with
          | some (reason, ids) => (some reason, ids)
          | none => outcomes p (pre ++ before ++ [t]) (singles rest ++ singles later)) = _
        rw [hsingle]
      rw [hright, hgroup, hids]
      refine ih ?_ hquiet' fun _ => ?_
      · rw [← hids, append_assoc, singleton_append]
        exact hnext
      · rw [← hids, length_append]
        exact ⟨hmax, hstr⟩

end Group

theorem outcomes_iff (outputIds : List Int) (groups : List Group) :
    outcomes p outputIds (groups.map Group.tokens) = outcomes p outputIds (singles (groups.flatMap Group.tokens)) ↔
    Fits p outputIds groups := by
  induction groups generalizing outputIds with
  | nil => exact ⟨fun _ => trivial, fun _ => rfl⟩
  | cons g groups ih =>
    have hg : ∀ g' ∈ groups.map Group.tokens, g' ≠ [] := fun g' hg' => by
      obtain ⟨g'', -, rfl⟩ := mem_map.mp hg'
      exact g''.nonempty
    have hsplit : singles ((g :: groups).flatMap Group.tokens) = singles g.tokens ++ singles (groups.flatMap Group.tokens) := by
      rw [flatMap_cons, singles, map_append]
      rfl
    rw [map_cons, hsplit, Fits]
    have hnext := ih (outputIds ++ g.tokens)
    rw [← append_nil outputIds] at hnext ⊢
    have h := group_iff hg hnext (fun x hx => absurd hx not_mem_nil) fun h => absurd h g.nonempty
    simp only [nil_append, append_nil] at h ⊢
    exact h

/-- The finish reason and the output through the stop do not depend on the groups exactly if nothing in the
    rest of the group hides or
moves the first finish. -/
theorem grouping_agrees_iff (p : Params) (groups : List Group) :
    result p (groups.map Group.tokens) = result p ((groups.flatMap Group.tokens).map fun t => [t]) ↔ Fits p [] groups := by
  have hgroups : result p (groups.map Group.tokens) = outcomes p [] (groups.map Group.tokens) := result_eq [] fun g hg => by
    obtain ⟨g', -, rfl⟩ := mem_map.mp hg
    exact g'.nonempty
  have hsingles : result p ((groups.flatMap Group.tokens).map fun t => [t]) =
    outcomes p [] (singles (groups.flatMap Group.tokens)) :=
    result_eq [] fun g hg => singles_ne_nil hg
  rw [hgroups, hsingles]
  exact outcomes_iff [] groups

/-- Two new tokens at most, and token 7 stops. -/
def twoTokens : Params where
  maxNewTokens := 2
  ignoreEos := false
  stopTokenIds := [7]
  eosTokenIds := []
  tokenizerEosTokenId := none
  additionalStopTokenIds := []
  decode _ := []
  stopStrs := []
  stopRegexStrs := []
  search _ _ := false
  stopStrMaxLen := 0
  stopRegexMaxLen := 0
  vocabSize := 100
  decodedText := []

/-- The stop token comes first, but with the token after it in the same group the request ends by its length. -/
theorem length_hides_stop_token :
    result twoTokens [[7], [5]] = (some (.matchedToken 7), [7]) ∧ result twoTokens [[7, 5]] = (some (.length 2), [7, 5]) := by
  decide

end DynaSpec.Managers.CheckFinished
