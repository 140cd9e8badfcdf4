/-
  DynaSpec.Managers.SchedulePolicy — the choice of the requests of a prefill batch
  (managers/schedule_policy.py, `PrefillAdder`).

  The tree cache with its allocator is any state with the sizes and calls of `Memory`.
  What is multiplied by `new_token_ratio` is a float: products, sums and differences of such
  are rounded by any function, and counts of tokens alone are exact. No running batch is an
  empty one.

  - `addChunkedReq_progresses_iff`: when the chunk of a chunked request is at least one token.
  - `ignoreEos_sound_iff`: when the check for requests that ignore EOS tells how a simulation
    ends. In it a request that ends gives back `tokens_occupied`, which can be read with the
    tokens that it took in the simulation or without them; both are stated.
-/

import Mathlib.Algebra.BigOperators.Ring.Finset
import Mathlib.Algebra.Order.BigOperators.Group.List
import Mathlib.Tactic.Linarith
import Mathlib.Tactic.Positivity

namespace DynaSpec.Managers.SchedulePolicy

open List

structure Req where
  originInputIds : List Nat
  outputIds : List Nat
  fillIds : List Nat
  prefixIndices : List Nat
  extendInputLen : Int
  maxNewTokens : Int
  ignoreEos : Bool

inductive CacheKind where
  | plain | hybrid | hybridGdn
  deriving DecidableEq

structure Memory (M : Type) where
  kind : CacheKind
  availableSize : M → Int
  evictableSize : M → Int
  fullAvailableSize : M → Int
  fullEvictableSize : M → Int
  swaAvailableSize : M → Int
  swaEvictableSize : M → Int

structure PrefillAdder (M : Type) where
  pageSize : Nat
  mem : M
  runningBatch : List Req
  newTokenRatio : Rat
  remInputTokens : Int
  remChunkTokens : Option Int
  remTotalTokenOffset : Rat
  curRemTokenOffset : Int
  reqStates : Option (List (Rat × Int)) := none
  canRunList : List Req := []
  newChunkedReq : Option Req := none

inductive AddReqResult where
  | continue | noToken | other
  deriving DecidableEq

/-- `l[:k]`. -/
def upTo (l : List Nat) (k : Int) : List Nat := if 0 ≤ k then l.take k.toNat else l.take (l.length - k.natAbs)

/-- `int(q)`. -/
def truncated (q : Rat) : Int := q.num.tdiv q.den

theorem one_le_truncated {q : Rat} : 1 ≤ truncated q ↔ 1 ≤ q := by
  have hden : (0 : Int) < q.den := by exact_mod_cast q.den_pos
  rw [truncated, Rat.le_iff, Rat.num_one, Rat.den_one, Nat.cast_one, one_mul, mul_one]
  by_cases hnum : 0 ≤ q.num
  · rw [Int.tdiv_eq_ediv_of_nonneg hnum, Int.le_ediv_iff_mul_le hden, one_mul]
  · have : q.num.tdiv q.den ≤ 0 := by
      rw [← Int.neg_nonneg, ← Int.neg_tdiv]
      exact Int.tdiv_nonneg (by omega) hden.le
    omega

/-- The arithmetic of floats: the rounding of one operation, and the built-in `sum`, which
    may keep more than it returns. -/
structure Arith where
  round : Rat → Rat
  sum : List Rat → Rat

def Arith.exact : Arith := ⟨id, List.sum⟩

section
variable {M : Type} (fl : Arith) (io : Memory M) (clip : Int)

/-- `_get_running_request_total_token_offset`. -/
def totalTokenOffset (ratio : Rat) (r : Req) : Rat := fl.round ((min (r.maxNewTokens - r.outputIds.length) clip : Int) * ratio)

def PrefillAdder.new (pageSize : Nat) (mem : M) (runningBatch : List Req) (newTokenRatio : Rat) (remInputTokens : Int)
    (remChunkTokens : Option Int) (mixedWithDecodeTokens : Int) : PrefillAdder M where
  pageSize := pageSize
  mem := mem
  runningBatch := runningBatch
  newTokenRatio := newTokenRatio
  remInputTokens := remInputTokens - mixedWithDecodeTokens
  remChunkTokens := remChunkTokens.map (· - mixedWithDecodeTokens)
  remTotalTokenOffset := fl.round (mixedWithDecodeTokens + fl.sum (runningBatch.map (totalTokenOffset fl clip newTokenRatio)))
  curRemTokenOffset := mixedWithDecodeTokens

def availableAndEvictable (m : M) : Int :=
  match io.kind with
  | .hybrid => min (io.fullAvailableSize m + io.fullEvictableSize m) (io.swaAvailableSize m + io.swaEvictableSize m)
  | .hybridGdn => io.availableSize m + io.fullEvictableSize m
  | .plain => io.availableSize m + io.evictableSize m

variable (a : PrefillAdder M)

def remTotalTokens : Rat := fl.round (availableAndEvictable io a.mem - a.remTotalTokenOffset)

def curRemTokens : Int := availableAndEvictable io a.mem - a.curRemTokenOffset

def ceilPagedTokens (tokens : Int) : Int := -(-tokens).fdiv a.pageSize * a.pageSize

def budgetState : AddReqResult :=
  if remTotalTokens fl io a ≤ 0 ∨ curRemTokens io a ≤ 0 then .noToken
  else if a.remInputTokens ≤ 0 ∨ a.remChunkTokens.any (· ≤ 0) then .other
  else .continue

/-- `can_run_list.append(req)` and `_update_prefill_budget`. -/
def append (req : Req) (extendInputLen maxNewTokens : Int) : PrefillAdder M :=
  let extend := ceilPagedTokens a extendInputLen
  { a with
    canRunList := a.canRunList ++ [req]
    remTotalTokenOffset := fl.round (a.remTotalTokenOffset + (extend + maxNewTokens : Int))
    curRemTokenOffset := a.curRemTokenOffset + extend
    remInputTokens := a.remInputTokens - extend
    remChunkTokens := a.remChunkTokens.map (· - extend) }

variable (req : Req)

/-! ## Chunked requests -/

/-- The answer, and the adder and the request after the call; `none` is the error of `min` when
    `rem_chunk_tokens` is `None`. -/
def addChunkedReq : Option (Option Req × PrefillAdder M × Req) := a.remChunkTokens.map fun chunk =>
  let remTokens := min chunk (truncated (remTotalTokens fl io a))
  let extend := min req.extendInputLen remTokens
  let req' := { req with extendInputLen := extend, fillIds := upTo req.fillIds (req.prefixIndices.length + extend) }
  let cut := remTokens < req.extendInputLen
  (if cut then some req' else none, append fl a req' extend (if cut then 0 else min req.maxNewTokens clip), req')

/-- The request goes on by at least one token. -/
structure Progresses (req req' : Req) (answer : Option Req) : Prop where
  pos : 1 ≤ req'.extendInputLen
  le : req'.extendInputLen ≤ req.extendInputLen
  fillIds : req'.fillIds = req.fillIds.take (req.prefixIndices.length + req'.extendInputLen).toNat
  answer : answer = if req'.extendInputLen < req.extendInputLen then some req' else none

theorem addChunkedReq_progresses {chunk : Int} (hchunk : a.remChunkTokens = some chunk) (h : 1 ≤ req.extendInputLen) :
    (∃ answer a' req', addChunkedReq fl io clip a req = some (answer, a', req') ∧ Progresses req req' answer) ↔
      1 ≤ min chunk (truncated (remTotalTokens fl io a)) := by
  unfold addChunkedReq
  rw [hchunk]
  constructor
  · intro hcall
    obtain ⟨answer, a', req', hcall, hp⟩ := hcall
    cases hcall
    exact (le_min_iff.mp hp.pos).2
  · intro hrem
    refine ⟨_, _, _, rfl, le_min h hrem, min_le_left _ _, if_pos ?_, ?_⟩
    · have := le_min h hrem
      omega
    · simp only [min_lt_iff, lt_irrefl, false_or]

theorem addChunkedReq_progresses_iff (h : 1 ≤ req.extendInputLen) (pageSize : Nat) (mem : M) (runningBatch : List Req)
    (newTokenRatio : Rat) (remInputTokens chunkedPrefillSize mixedWithDecodeTokens : Int) :
    let a := PrefillAdder.new fl clip pageSize mem runningBatch newTokenRatio remInputTokens (some chunkedPrefillSize)
      mixedWithDecodeTokens
    (∃ answer a' req', addChunkedReq fl io clip a req = some (answer, a', req') ∧ Progresses req req' answer) ↔
      mixedWithDecodeTokens < chunkedPrefillSize ∧ 1 ≤ fl.round (availableAndEvictable io mem -
        fl.round (mixedWithDecodeTokens + fl.sum (runningBatch.map (totalTokenOffset fl clip newTokenRatio)))) := by
  intro a
  have hchunk : a.remChunkTokens = some (chunkedPrefillSize - mixedWithDecodeTokens) := rfl
  rw [addChunkedReq_progresses fl io clip a req hchunk h, le_min_iff, one_le_truncated]
  exact and_congr_left' (by omega)

end

/-- A cache without a tree, whose state is the number of free slots. -/
def flat : Memory Int := ⟨.plain, id, fun _ => 0, id, fun _ => 0, id, fun _ => 0⟩

def fiveTokens : Req := ⟨[1, 2, 3, 4, 5], [], [1, 2, 3, 4, 5], [], 5, 1, false⟩

theorem addChunkedReq_progresses_fiveTokens : 1 ≤ fiveTokens.extendInputLen ∧
    ∃ answer a' req', addChunkedReq .exact flat 4096 (.new .exact 4096 1 40 [fiveTokens] 1 8 (some 3) 1) fiveTokens =
      some (answer, a', req') ∧ Progresses fiveTokens req' answer :=
  ⟨by decide, (addChunkedReq_progresses_iff .exact flat 4096 fiveTokens (by decide) 1 40 [fiveTokens] 1 8 3 1).mpr
    ⟨by decide, by decide +kernel⟩⟩

/-- The running request is estimated to need two tokens more than there are, and the chunk is of minus two tokens. -/
theorem chunk_below_zero :
    (addChunkedReq .exact flat 4096 (.new .exact 4096 1 40 [{ fiveTokens with maxNewTokens := 42 }] 1 8 (some 3) 0)
    fiveTokens).map
      (fun r => (r.2.2.extendInputLen, r.2.2.fillIds)) = some (-2, [1, 2, 3]) := by
  decide +kernel

/-! ## Requests that ignore EOS -/

section
variable {M : Type} (fl : Arith) (io : Memory M) (clip : Int) (a : PrefillAdder M) (req : Req)

/-- `tokens_left` and `tokens_occupied`. -/
def reqState (r : Req) : Option (Rat × Int) :=
  let tokensLeft := fl.round (fl.round (r.maxNewTokens * (if r.ignoreEos then 1 else a.newTokenRatio)) - r.outputIds.length)
  if tokensLeft ≤ 0 then none else some (tokensLeft, r.originInputIds.length + r.outputIds.length)

/-- The loop leaves `i` at the last index when it does not break. -/
def insertState (x : Rat × Int) : List (Rat × Int) → List (Rat × Int)
  | [] => [x]
  | [s] => [x, s]
  | s :: t :: rest => if x.1 ≤ s.1 then x :: s :: t :: rest else s :: insertState x (t :: rest)

/-- `req_states` with the request. -/
def addReqState : List (Rat × Int) :=
  match a.reqStates with
  | none => ((req :: a.runningBatch ++ a.canRunList).filterMap (reqState fl a)).mergeSort fun s t => s.1 ≤ t.1
  | some states => (reqState fl a req).elim states fun x => insertState x states

/-- The loop over `req_states`; `IGNORE_EOS_RESERVE_TOKENS` is 1. -/
def enoughFree (curRemTokens : Int) : Int → List (Rat × Int) → Bool
  | _, [] => true
  | tokensFreed, s :: rest =>
    let bs := rest.length + 1
    if fl.round (curRemTokens + tokensFreed - fl.round (s.1 * bs)) ≤ 1 * bs then false
    else enoughFree curRemTokens (tokensFreed + s.2) rest

/-- There are tokens for the input. -/
def InputFits : Prop :=
  (ceilPagedTokens a req.extendInputLen : Rat) ≤ min (curRemTokens io a : Rat) (remTotalTokens fl io a)

instance : Decidable (InputFits fl io a req) := inferInstanceAs (Decidable (_ ≤ _))

def addOneReqIgnoreEos : AddReqResult × PrefillAdder M × Req :=
  if ¬ InputFits fl io a req then (.noToken, a, req)
  else
    let states := addReqState fl a req
    let a := { a with reqStates := some states }
    if io.kind ≠ .hybrid ∧ !enoughFree fl (curRemTokens io a - ceilPagedTokens a req.extendInputLen) 0 states then
      (.noToken, a, req)
    else
      match a.remChunkTokens.filter (· < req.extendInputLen) with
      | none =>
        let a := append fl a req req.extendInputLen (min req.maxNewTokens clip)
        (budgetState fl io a, a, req)
      | some truncLen =>
        if truncLen = 0 then (.other, a, req)
        else
          let req := { req with extendInputLen := truncLen, fillIds := upTo req.fillIds truncLen }
          let a := { append fl a req truncLen 0 with newChunkedReq := some req }
          (budgetState fl io a, a, req)

/-- `P` is true at each of a sequence of calls. -/
def AtEachCall {S C : Type} (step : S → C → S) (P : S → C → Prop) : S → List C → Prop
  | _, [] => True
  | s, c :: calls => P s c ∧ AtEachCall step P (step s c) calls

abbrev Sorted (states : List (Rat × Int)) : Prop := states.Pairwise fun s t => s.1 ≤ t.1

/-- What a request has changed in the free tokens by time `t`: it takes a token in each step until it has none left, and
    then gives back what it occupied, with the tokens it took or without them. -/
def change (withTaken : Bool) (t : Rat) (s : Rat × Int) : Rat :=
  if s.1 < t then s.2 - (if withTaken then 0 else s.1) else -t

/-- Whenever a request ends there is more than one free token for each that runs. -/
def Outlasts (withTaken : Bool) (free : Int) (states : List (Rat × Int)) : Prop :=
  ∀ s ∈ states, (states.countP (s.1 ≤ ·.1) : Rat) < free + (states.map (change withTaken s.1)).sum

/-- The free tokens and the requests that the simulation of a call starts from. -/
def OutlastsCall (withTaken : Bool) : Prop :=
  Outlasts withTaken (curRemTokens io a - ceilPagedTokens a req.extendInputLen) (addReqState .exact a req)

/-- With exact ratios. -/
structure SoundCall (withTaken : Bool) : Prop where
  sorted : ∀ states, (addOneReqIgnoreEos .exact io clip a req).2.1.reqStates = some states → Sorted states
  admitted : (addOneReqIgnoreEos .exact io clip a req).2.1.canRunList ≠ a.canRunList → OutlastsCall io a req withTaken

/-- No request is inserted that has more tokens left than all the others. -/
def Inserts : Prop := InputFits .exact io a req → ∀ states x, a.reqStates = some states → reqState .exact a req = some x →
  states = [] ∨ ∃ s ∈ states, x.1 ≤ s.1

/-- If a request is to be admitted, there is room also for the tokens that ended requests took. -/
def SparesTaken : Prop := InputFits .exact io a req → a.remChunkTokens.filter (· < req.extendInputLen) ≠ some 0 →
  OutlastsCall io a req true → OutlastsCall io a req false

/-- The requests are sorted, have tokens left and occupy a number of tokens. -/
structure Tracked (states : List (Rat × Int)) : Prop where
  sorted : Sorted states
  left : ∀ s ∈ states, 0 < s.1
  occupied : ∀ s ∈ states, 0 ≤ s.2

variable {x : Rat × Int} {free : Int} {states l : List (Rat × Int)} {t : Rat}

theorem mem_insertState {s : Rat × Int} : s ∈ insertState x l ↔ s = x ∨ s ∈ l := by
  fun_induction insertState x l with
  | case1 => simp
  | case2 => simp
  | case3 => simp
  | case4 t u rest h ih =>
    rw [mem_cons, ih, mem_cons (a := s) (l := u :: rest)]
    tauto

theorem sorted_insertState (h : Sorted l) : Sorted (insertState x l) ↔ l = [] ∨ ∃ s ∈ l, x.1 ≤ s.1 := by
  fun_induction insertState x l with
  | case1 => simp
  | case2 s => simp
  | case3 s t rest hle =>
    refine iff_of_true (pairwise_cons.mpr ⟨?_, h⟩) (.inr ⟨s, mem_cons_self, hle⟩)
    intro b hb
    rcases mem_cons.mp hb with rfl | hb
    · exact hle
    · exact hle.trans ((pairwise_cons.mp h).1 b hb)
  | case4 s t rest hlt ih =>
    obtain ⟨hs, hrest⟩ := pairwise_cons.mp h
    have hall : ∀ b ∈ insertState x (t :: rest), s.1 ≤ b.1 := by
      intro b hb
      rcases mem_insertState.mp hb with rfl | hb
      · exact (lt_of_not_ge hlt).le
      · exact hs b hb
    refine pairwise_cons.trans ((and_iff_right hall).trans ((ih hrest).trans ?_))
    simp [hlt]

theorem enoughFree_append : ∀ freed, enoughFree fl free freed (pre ++ l) = true →
    enoughFree fl free (freed + (pre.map Prod.snd).sum) l = true := by
  induction pre with
  | nil => simp
  | cons s pre ih =>
    intro freed h
    rw [cons_append, enoughFree] at h
    split at h
    · cases h
    · rw [map_cons, sum_cons, ← add_assoc]
      exact ih _ h

/-- What requests that have not ended have taken. -/
theorem sum_change_running (h : ∀ p ∈ l, t ≤ p.1) : (l.map (change withTaken t)).sum = -(t * l.length) := by
  have hrun : l.map (change withTaken t) = replicate l.length (-t) := by
    rw [← map_const']
    exact map_congr_left fun p hp => if_neg (not_lt.mpr (h p hp))
  rw [hrun, sum_replicate, nsmul_eq_mul, mul_neg, mul_comm]

theorem countP_running (h : ∀ p ∈ l, t ≤ p.1) : l.countP (t ≤ ·.1) = l.length :=
  countP_eq_length.mpr fun p hp => decide_eq_true (h p hp)

/-- On a sorted list the loop tells how the simulation ends. -/
theorem outlasts_of_enoughFree (h : Sorted states) (hfree : enoughFree .exact free 0 states = true) :
    Outlasts true free states := by
  intro s hs
  -- the first entry with as many tokens left, which the loop comes to when all that have less have ended
  obtain ⟨pre, post, hsplit, hnot⟩ := eq_append_cons_of_mem (mem_map_of_mem (f := Prod.fst) hs)
  obtain ⟨pre, l, rfl, rfl, hl⟩ := map_eq_append_iff.mp hsplit
  obtain ⟨s', post, rfl, hs', rfl⟩ := map_eq_cons_iff.mp hl
  obtain ⟨-, hrest, hle⟩ := pairwise_append.mp h
  have hpre : ∀ p ∈ pre, p.1 < s.1 := by
    intro p hp
    have := hle p hp s' mem_cons_self
    rw [hs'] at this
    exact lt_of_le_of_ne this fun e => hnot (e ▸ mem_map_of_mem hp)
  have hpost : ∀ p ∈ s' :: post, s.1 ≤ p.1 := by
    intro p hp
    rw [← hs']
    rcases mem_cons.mp hp with rfl | hp
    · exact le_rfl
    · exact (pairwise_cons.mp hrest).1 p hp
  have hcount : pre.countP (s.1 ≤ ·.1) = 0 := countP_eq_zero.mpr fun p hp => by simpa using hpre p hp
  have hended : pre.map (change true s.1) = pre.map fun p => (p.2 : Rat) :=
    map_congr_left fun p hp => (if_pos (hpre p hp)).trans (sub_zero _)
  have hloop := enoughFree_append _ 0 hfree
  rw [enoughFree] at hloop
  split at hloop
  · cases hloop
  rename_i hgt
  rw [countP_append, hcount, countP_running hpost, map_append, sum_append, hended, sum_change_running hpost, length_cons]
  rw [hs', zero_add, Int.cast_list_sum, map_map] at hgt
  simp only [Function.comp_def, Arith.exact, id] at hgt
  push_cast at hgt ⊢
  linarith

/-- A request that comes later in the list has at least as much room as the simulation says. -/
theorem enoughFree_of_outlasts (pre : List (Rat × Int)) (h : Tracked (pre ++ l)) (hout : Outlasts true free (pre ++ l)) :
    enoughFree .exact free (pre.map Prod.snd).sum l = true := by
  induction l generalizing pre with
  | nil => rfl
  | cons s rest ih =>
    have hrun : ∀ p ∈ s :: rest, s.1 ≤ p.1 := by
      intro p hp
      rcases mem_cons.mp hp with rfl | hp
      · exact le_rfl
      · exact (pairwise_cons.mp (pairwise_append.mp h.sorted).2.1).1 p hp
    have hended : (pre.map (change true s.1)).sum ≤ (pre.map fun p => (p.2 : Rat)).sum := by
      refine List.sum_le_sum fun p hp => ?_
      have hocc : (0 : Rat) ≤ p.2 := by exact_mod_cast h.occupied p (mem_append_left _ hp)
      have hleft := h.left s (by simp)
      unfold change
      split
      · simp
      · linarith
    have hs := hout s (by simp)
    rw [countP_append, countP_running hrun, map_append, sum_append, sum_change_running hrun, length_cons] at hs
    rw [enoughFree, if_neg]
    · have := ih (pre ++ [s]) (by simpa using h) (by simpa using hout)
      simpa using this
    · rw [Int.cast_list_sum, map_map]
      simp only [Function.comp_def, Arith.exact, id]
      have : (0 : Rat) ≤ pre.countP (s.1 ≤ ·.1) := Nat.cast_nonneg _
      push_cast at hs ⊢
      linarith

theorem enoughFree_iff (h : Tracked states) : enoughFree .exact free 0 states = true ↔ Outlasts true free states :=
  ⟨outlasts_of_enoughFree h.sorted, fun hout => enoughFree_of_outlasts [] h hout⟩

theorem sorted_addReqState (h : ∀ states, a.reqStates = some states → Sorted states) : Sorted (addReqState fl a req) ↔
    ∀ states x, a.reqStates = some states → reqState fl a req = some x → states = [] ∨ ∃ s ∈ states, x.1 ≤ s.1 := by
  unfold addReqState
  cases hstates : a.reqStates with
  | none =>
    refine iff_of_true ?_ nofun
    refine (pairwise_mergeSort ?_ ?_ _).imp of_decide_eq_true
    · intro s t u hst htu
      exact decide_eq_true ((of_decide_eq_true hst).trans (of_decide_eq_true htu))
    · intro s t
      simpa using le_total s.1 t.1
  | some states =>
    have hs := h states hstates
    cases hx : reqState fl a req with
    | none => exact iff_of_true hs nofun
    | some x =>
      refine (sorted_insertState hs).trans ⟨fun h _ _ hs hx => ?_, fun h => h _ _ rfl rfl⟩
      cases hs
      cases hx
      exact h

theorem mem_addReqState {s : Rat × Int} (hs : s ∈ addReqState fl a req) :
    (∃ states, a.reqStates = some states ∧ s ∈ states) ∨ 0 < s.1 ∧ 0 ≤ s.2 := by
  have hstate (r : Req) (hr : reqState fl a r = some s) : 0 < s.1 ∧ 0 ≤ s.2 := by
    obtain ⟨hleft, hr⟩ := Option.ite_none_left_eq_some.mp hr
    cases hr
    exact ⟨not_le.mp hleft, by positivity⟩
  unfold addReqState at hs
  split at hs
  · obtain ⟨r, -, hr⟩ := mem_filterMap.mp (mem_mergeSort.mp hs)
    exact .inr (hstate r hr)
  · rename_i states hstates
    cases hx : reqState fl a req with
    | none =>
      rw [hx] at hs
      exact .inl ⟨states, hstates, hs⟩
    | some x =>
      rw [hx] at hs
      rcases mem_insertState.mp hs with rfl | hs
      · exact .inr (hstate req hx)
      · exact .inl ⟨states, hstates, hs⟩

theorem tracked_addReqState (h : ∀ states, a.reqStates = some states → Tracked states)
    (hsorted : Sorted (addReqState fl a req)) : Tracked (addReqState fl a req) := by
  refine ⟨hsorted, fun s hs => ?_, fun s hs => ?_⟩ <;> rcases mem_addReqState fl a req hs with ⟨states, hstates, hm⟩ | hpos
  · exact (h states hstates).left s hm
  · exact hpos.1
  · exact (h states hstates).occupied s hm
  · exact hpos.2

theorem addOneReqIgnoreEos_states : (addOneReqIgnoreEos fl io clip a req).2.1.reqStates =
    if InputFits fl io a req then some (addReqState fl a req) else a.reqStates := by
  unfold addOneReqIgnoreEos
  by_cases h : InputFits fl io a req
  · rw [if_neg (not_not.mpr h), if_pos h]
    dsimp only
    split
    · rfl
    split
    · rfl
    · split <;> rfl
  · rw [if_pos h, if_neg h]

theorem admitted_iff (hk : io.kind ≠ .hybrid) :
    (addOneReqIgnoreEos fl io clip a req).2.1.canRunList ≠ a.canRunList ↔ InputFits fl io a req ∧
      enoughFree fl (curRemTokens io a - ceilPagedTokens a req.extendInputLen) 0 (addReqState fl a req) = true ∧
      a.remChunkTokens.filter (· < req.extendInputLen) ≠ some 0 := by
  unfold addOneReqIgnoreEos
  by_cases hfits : InputFits fl io a req
  · rw [if_neg (not_not.mpr hfits)]
    dsimp only
    split
    · rename_i hfree
      exact iff_of_false (fun h => h rfl) fun h => absurd h.2.1 (Bool.eq_false_iff.mp ((Bool.not_eq_true' _).mp hfree.2))
    · rename_i hfree
      have hfree : enoughFree fl (curRemTokens io a - ceilPagedTokens a req.extendInputLen) 0 (addReqState fl a req) = true := by
        by_contra hno
        exact hfree ⟨hk, by rw [Bool.not_eq_true']; exact Bool.eq_false_iff.mpr hno⟩
      split
      · rename_i hnone
        refine iff_of_true (by simp [append]) ⟨hfits, hfree, ?_⟩
        simp [show a.remChunkTokens.filter (· < req.extendInputLen) = none from hnone]
      · rename_i truncLen hsome
        rw [show a.remChunkTokens.filter (· < req.extendInputLen) = some truncLen from hsome]
        split
        · rename_i h0
          exact iff_of_false (fun h => h rfl) fun h => h.2.2 (congrArg some h0)
        · rename_i h0
          exact iff_of_true (by simp [append]) ⟨hfits, hfree, fun h => h0 (Option.some.inj h)⟩
  · rw [if_pos hfits]
    exact iff_of_false (fun h => h rfl) fun h => hfits h.1

/-- A call keeps the requests sorted exactly if it inserts none after all others. -/
theorem sorted_iff_inserts (h : ∀ states, a.reqStates = some states → Tracked states) :
    (∀ states, (addOneReqIgnoreEos .exact io clip a req).2.1.reqStates = some states → Sorted states) ↔
      Inserts io a req := by
  have hadd := sorted_addReqState .exact a req fun states hs => (h states hs).sorted
  rw [addOneReqIgnoreEos_states]
  by_cases hfits : InputFits .exact io a req
  · rw [if_pos hfits]
    refine ⟨fun hall _ => hadd.mp (hall _ rfl), fun hins states hs => ?_⟩
    cases hs
    exact hadd.mpr (hins hfits)
  · rw [if_neg hfits]
    exact iff_of_true (fun states hs => (h states hs).sorted) fun hf => absurd hf hfits

theorem tracked_call (h : ∀ states, a.reqStates = some states → Tracked states)
    (hs : (addOneReqIgnoreEos .exact io clip a req).2.1.reqStates = some states) (hsorted : Sorted states) :
    Tracked states := by
  rw [addOneReqIgnoreEos_states] at hs
  split at hs
  · cases hs
    exact tracked_addReqState .exact a req h hsorted
  · exact h states hs

theorem soundCall_iff (withTaken : Bool) (hk : io.kind ≠ .hybrid) (h : ∀ states, a.reqStates = some states → Tracked states) :
    SoundCall io clip a req withTaken ↔ Inserts io a req ∧ (withTaken = false → SparesTaken io a req) := by
  have hkeeps := sorted_iff_inserts io clip a req h
  have hout : Inserts io a req → InputFits .exact io a req →
      (enoughFree .exact (curRemTokens io a - ceilPagedTokens a req.extendInputLen) 0 (addReqState .exact a req) = true ↔
        OutlastsCall io a req true) := by
    intro hins hfits
    have hstates := addOneReqIgnoreEos_states .exact io clip a req
    rw [if_pos hfits] at hstates
    exact enoughFree_iff (tracked_call io clip a req h hstates (hkeeps.mpr hins _ hstates))
  constructor
  · intro hcall
    have hins := hkeeps.mp hcall.sorted
    refine ⟨hins, fun hw hfits hchunk htrue => ?_⟩
    subst hw
    exact hcall.admitted ((admitted_iff .exact io clip a req hk).mpr ⟨hfits, (hout hins hfits).mpr htrue, hchunk⟩)
  · rintro ⟨hins, hspares⟩
    refine ⟨hkeeps.mpr hins, fun hadmit => ?_⟩
    obtain ⟨hfits, hfree, hchunk⟩ := (admitted_iff .exact io clip a req hk).mp hadmit
    have htrue := (hout hins hfits).mp hfree
    cases withTaken with
    | true => exact htrue
    | false => exact hspares rfl hfits hchunk htrue

theorem soundCalls_iff (withTaken : Bool) (hk : io.kind ≠ .hybrid)
    (h : ∀ states, a.reqStates = some states → Tracked states) (reqs : List Req) :
    AtEachCall (fun a r => (addOneReqIgnoreEos .exact io clip a r).2.1) (SoundCall io clip · · withTaken) a reqs ↔
      AtEachCall (fun a r => (addOneReqIgnoreEos .exact io clip a r).2.1)
        (fun a r => Inserts io a r ∧ (withTaken = false → SparesTaken io a r)) a reqs := by
  induction reqs generalizing a with
  | nil => exact Iff.rfl
  | cons r reqs ih =>
    have hiff := soundCall_iff io clip a r withTaken hk h
    have hnext (hcall : SoundCall io clip a r withTaken) := ih _ fun states hs =>
      tracked_call io clip a r h hs (hcall.sorted states hs)
    constructor
    · intro hall
      exact ⟨hiff.mp hall.1, (hnext hall.1).mp hall.2⟩
    · intro hall
      have hcall := hiff.mpr hall.1
      exact ⟨hcall, (hnext hcall).mpr hall.2⟩

/-- The first reading of the simulation, in which ended requests give back also the tokens that they took, and the second. -/
theorem ignoreEos_sound_iff (hk : io.kind ≠ .hybrid) (h : a.reqStates = none) (reqs : List Req) :
    (AtEachCall (fun a r => (addOneReqIgnoreEos .exact io clip a r).2.1) (SoundCall io clip · · true) a reqs ↔
      AtEachCall (fun a r => (addOneReqIgnoreEos .exact io clip a r).2.1) (Inserts io) a reqs) ∧
    (AtEachCall (fun a r => (addOneReqIgnoreEos .exact io clip a r).2.1) (SoundCall io clip · · false) a reqs ↔
      AtEachCall (fun a r => (addOneReqIgnoreEos .exact io clip a r).2.1)
        (fun a r => Inserts io a r ∧ SparesTaken io a r) a reqs) := by
  have htracked : ∀ states, a.reqStates = some states → Tracked states := by
    intro states hs
    rw [h] at hs
    cases hs
  constructor
  · simpa using soundCalls_iff io clip a true hk htracked reqs
  · simpa using soundCalls_iff io clip a false hk htracked reqs

end

def asking (n : Int) : Req := ⟨[1], [], [1], [], 1, n, true⟩

/-- The second request is inserted before the first. -/
theorem ignoreEos_sound_asking : flat.kind ≠ .hybrid ∧
    AtEachCall (fun a r => (addOneReqIgnoreEos .exact flat 4096 a r).2.1) (SoundCall flat 4096 · · true)
      (.new .exact 4096 1 20 [] 1 8 none 0) [asking 3, asking 2] := by
  let a1 := (addOneReqIgnoreEos .exact flat 4096 (.new .exact 4096 1 20 [] 1 8 none 0) (asking 3)).2.1
  have hstates : a1.reqStates = some [(3, 1)] := by decide +kernel
  have hnew : reqState .exact a1 (asking 2) = some (2, 1) := by decide +kernel
  refine ⟨by decide, (ignoreEos_sound_iff flat 4096 _ (by decide) rfl _).1.mpr ⟨nofun, fun _ states x hs hx => .inr ?_, trivial⟩⟩
  cases hstates.symm.trans hs
  cases hnew.symm.trans hx
  exact ⟨(3, 1), by simp, by norm_num⟩

/-- The second request has more tokens left than the first and is put before it. -/
theorem longer_request_inserted_first : ([asking 1, asking 2].foldl (fun a r => (addOneReqIgnoreEos .exact flat 4096 a r).2.1)
    (PrefillAdder.new .exact 4096 1 20 [] 1 8 none 0)).reqStates = some [(2, 1), (1, 1)] := by
  decide +kernel

end DynaSpec.Managers.SchedulePolicy
