/-
  DynaSpec.Speculative.VerifyTree — greedy verification of the draft trees: the CUDA
  kernel `VerifyTreeGreedy` (sgl-kernel/csrc/speculative/eagle_utils.cu) and the torch
  fallback `verify_tree_greedy_native` (srt/speculative/eagle_utils.py).

  A tensor is its flat memory; row `b` of a `[bs, n]` tensor is at `b * n`. Index
  arithmetic is exact: the tensors are far smaller than the 32-bit range of the
  kernel's indices. The kernel's blocks (one per request) run in any order.

  Both walk from the root through the children links, at each node to the first child
  whose candidate is the target model's own token. `greedyPath` is that walk on the
  tree, and `verified` what it writes; the kernel's block and one iteration of the
  fallback's loop both compute it (`block_eq`, `nativeRow_eq`), the former with
  `num_speculative_tokens - 1` rounds, the latter with `num_draft_tokens - 1`, which
  are both enough for any tree whose depth is below `num_speculative_tokens`.

  - `verifyTreeGreedy_lossless`: every request's accepted indices are a root path along
    which the candidates are the target's tokens, it cannot be extended, and the emitted
    tokens are the target's greedy continuation; the fallback returns the same, also
    through its two-token shortcut.
  - `speculative_eq_greedy`: over any steps a request gets the target's own greedy tokens.
-/

import DynaSpec.Lib.LinkTree
import DynaSpec.Lib.Scatter

namespace DynaSpec.Speculative.VerifyTree

open DynaSpec.Lib List Option Nat

variable {out : Outputs} {path : List Nat} {c j : Nat}

structure Inputs where
  batchSize : Nat
  numSpeculativeTokens : Nat
  numDraftTokens : Nat
  candidates : Mem
  retriveIndex : Mem
  retriveNextToken : Mem
  retriveNextSibling : Mem
  targetPredict : Mem

/-- The mutable tensors. -/
structure Outputs where
  predicts : Mem
  acceptIndex : Mem
  acceptTokenNum : Mem

/-- The locals of the walk. -/
structure Walk where
  out : Outputs
  lastAccepted : Int
  numAccepted : Nat
  curIndex : Int

variable (x : Inputs)

/-! ## The kernel -/

/-- The inner loop: the first sibling from `curIndex` on whose candidate is the target's
    token is accepted; `curIndex` ends at `-1` when there is none. -/
def trySiblings (bx : Nat) : Nat → Walk → Option Walk
  | 0, _ => none
  | fuel + 1, w =>
    if w.curIndex = -1 then some w
    else
      let draftIndex := x.retriveIndex (bx * x.numDraftTokens + w.curIndex)
      let draftTokenId := x.candidates (bx * x.numDraftTokens + w.curIndex)
      let targetTokenId := x.targetPredict w.lastAccepted
      if draftTokenId = targetTokenId then
        some { w with
          out := { w.out with
            predicts := upd w.out.predicts w.lastAccepted targetTokenId
            acceptIndex := upd w.out.acceptIndex (bx * x.numSpeculativeTokens + (w.numAccepted + 1)) draftIndex }
          numAccepted := w.numAccepted + 1
          lastAccepted := draftIndex }
      else trySiblings bx fuel { w with curIndex := x.retriveNextSibling (bx * x.numDraftTokens + w.curIndex) }

/-- The outer loop, with the rounds left. -/
def descend (bx fuel : Nat) : Nat → Walk → Option Walk
  | 0, w => some w
  | j + 1, w => do
    let w ← trySiblings x bx fuel { w with curIndex := x.retriveNextToken (bx * x.numDraftTokens + w.curIndex) }
    if w.curIndex = -1 then some w else descend bx fuel j w

def block (fuel bx : Nat) (out : Outputs) : Option Outputs := do
  let last := x.retriveIndex (bx * x.numDraftTokens)
  let w ← descend x bx fuel (x.numSpeculativeTokens - 1)
    ⟨{ out with acceptIndex := upd out.acceptIndex (bx * x.numSpeculativeTokens) last }, last, 0, 0⟩
  some { w.out with
    acceptTokenNum := upd w.out.acceptTokenNum bx w.numAccepted
    predicts := upd w.out.predicts w.lastAccepted (x.targetPredict w.lastAccepted) }

/-- `VerifyTreeGreedy` over the grid, the blocks in the given order. -/
def verifyTreeGreedy (fuel : Nat) (order : List (Fin x.batchSize)) (out : Outputs) : Option Outputs :=
  launch (fun b => block x fuel b.val) order out

/-! ## The torch fallback -/

/-- Element `i` of row `b` of a tensor with rows of length `n`. -/
def at2 (t : Mem) (n b : Nat) (i : Int) : Int := t (b * n + i)

/-- The inner loop of the fallback; the flag is `found`. -/
def nativeSiblings (bx : Nat) : Nat → Walk → Option (Bool × Walk)
  | 0, _ => none
  | fuel + 1, w =>
    if w.curIndex = -1 then some (false, w)
    else
      let draftIdx := at2 x.retriveIndex x.numDraftTokens bx w.curIndex
      let draftToken := at2 x.candidates x.numDraftTokens bx w.curIndex
      let targetToken := at2 x.targetPredict x.numDraftTokens bx (w.lastAccepted - x.numDraftTokens * bx)
      if draftToken = targetToken then
        some (true, { w with
          out := { w.out with
            predicts := upd w.out.predicts w.lastAccepted targetToken
            acceptIndex := upd w.out.acceptIndex (bx * x.numSpeculativeTokens + (w.numAccepted + 1)) draftIdx }
          numAccepted := w.numAccepted + 1
          lastAccepted := draftIdx })
      else nativeSiblings bx fuel { w with curIndex := at2 x.retriveNextSibling x.numDraftTokens bx w.curIndex }

def nativeDescend (bx fuel : Nat) : Nat → Walk → Option Walk
  | 0, w => some w
  | j + 1, w => do
    let (found, w) ← nativeSiblings x bx fuel { w with curIndex := at2 x.retriveNextToken x.numDraftTokens bx w.curIndex }
    if found then nativeDescend bx fuel j w else some w

def nativeRow (fuel bx : Nat) (out : Outputs) : Option Outputs := do
  let last := at2 x.retriveIndex x.numDraftTokens bx 0
  let w ← nativeDescend x bx fuel (x.numDraftTokens - 1)
    ⟨{ out with acceptIndex := upd out.acceptIndex (bx * x.numSpeculativeTokens + 0) last }, last, 0, 0⟩
  some { w.out with
    acceptTokenNum := upd w.out.acceptTokenNum bx w.numAccepted
    predicts := upd w.out.predicts w.lastAccepted
      (at2 x.targetPredict x.numDraftTokens bx (w.lastAccepted - x.numDraftTokens * bx)) }

/-- `comparison_result` of the two-token shortcut, as 0 or 1. -/
def comparisonResult (b : Int) : Int :=
  if x.candidates (b * 2 + 1) = x.targetPredict (b * 2) then 1 else 0

/-- The two-token shortcut: new tensors in place of the given ones. -/
def nativeShortcut : Outputs where
  predicts := x.targetPredict
  acceptIndex := fun i =>
    if i % 2 = 1 then i * comparisonResult x (i / 2) - (1 - comparisonResult x (i / 2)) else i
  acceptTokenNum := comparisonResult x

def verifyTreeGreedyNative (fuel : Nat) (topk : Int) (out : Outputs) : Option Outputs :=
  if x.numDraftTokens = 2 ∧ x.numSpeculativeTokens = 2 ∧ topk = 1 then some (nativeShortcut x)
  else launch (fun b => nativeRow x fuel b.val) (List.finRange x.batchSize) out

/-! ## The walk on the tree -/

section
variable {n : Nat} (T : OrderedTree n) (cand target : Nat → Int)

/-- From node `p`, for at most `j` rounds, to the first child whose candidate is the
    target's token at its parent. -/
def greedyPath : Nat → Nat → List Nat
  | 0, _ => []
  | j + 1, p =>
    match (T.kids p).find? (fun c => cand c = target p) with
    | none => []
    | some c => c :: greedyPath j c

/-- Each node after the first is a child of the one before it and carries the target's token there. -/
theorem greedyPath_chain (j p : Nat) : (p :: greedyPath T cand target j p).IsChain fun a b => T.Child a b ∧
    cand b = target a := by
  induction j generalizing p with
  | zero => exact isChain_singleton p
  | succ j ih =>
    simp only [greedyPath]
    split
    · exact isChain_singleton p
    · rename_i c hc
      exact isChain_cons_cons.mpr ⟨⟨mem_of_find?_eq_some hc, by simpa using find?_some hc⟩, ih c⟩

theorem greedyPath_take {j k : Nat} (p : Nat) (hjk : j ≤ k) :
    greedyPath T cand target j p = (greedyPath T cand target k p).take j := by
  induction j generalizing k p with
  | zero => rfl
  | succ j ih =>
    obtain ⟨k, rfl⟩ : ∃ m, k = m + 1 := ⟨k - 1, by omega⟩
    simp only [greedyPath]
    split
    · rfl
    · rename_i c _
      rw [take_succ_cons, ih c (le_of_succ_le_succ hjk)]

/-- A walk that ended before its rounds did stopped at a node none of whose children
    carries the target's token. -/
theorem greedyPath_stop {j p q : Nat} (h : (greedyPath T cand target j p).length < j)
    (hq : (p :: greedyPath T cand target j p).getLast? = some q) : ∀ c ∈ T.kids q, cand c ≠ target q := by
  induction j generalizing p with
  | zero => exact absurd h (not_lt_zero _)
  | succ j ih =>
    simp only [greedyPath] at h hq
    split at h
    · rename_i hnone
      simp only [hnone, getLast?_singleton, some.injEq] at hq
      subst hq
      intro c hc
      simpa using find?_eq_none.mp hnone c hc
    · rename_i d hd
      simp only [hd, getLast?_cons_cons] at hq
      exact ih (by simpa using h) hq

end

/-! ## What both compute -/

/-- Request `b`'s walk accepts its node `c`. -/
def acceptNode (b : Nat) (w : Walk) (c : Nat) : Walk where
  out := { w.out with
    predicts := upd w.out.predicts w.lastAccepted (x.targetPredict w.lastAccepted)
    acceptIndex := upd w.out.acceptIndex (b * x.numSpeculativeTokens + (w.numAccepted + 1)) (b * x.numDraftTokens + c) }
  lastAccepted := b * x.numDraftTokens + c
  numAccepted := w.numAccepted + 1
  curIndex := c

def start (b : Nat) (out : Outputs) : Walk :=
  ⟨{ out with acceptIndex := upd out.acceptIndex (b * x.numSpeculativeTokens) (b * x.numDraftTokens) },
    b * x.numDraftTokens, 0, 0⟩

def finish (b : Nat) (w : Walk) : Outputs :=
  { w.out with
    acceptTokenNum := upd w.out.acceptTokenNum b w.numAccepted
    predicts := upd w.out.predicts w.lastAccepted (x.targetPredict w.lastAccepted) }

/-- What verification writes for request `b` when it accepts `path` below the root. -/
def verified (b : Nat) (path : List Nat) (out : Outputs) : Outputs :=
  finish x b (path.foldl (acceptNode x b) (start x b out))

/-- The candidate and the target's token at request `b`'s node `i`. -/
def cand (b i : Nat) : Int := x.candidates (b * x.numDraftTokens + i)

def target (b i : Nat) : Int := x.targetPredict (b * x.numDraftTokens + i)

/-- Request `b`'s links are those of `T`, and `retrive_index` numbers its nodes. -/
structure EncodedAt (b : Nat) (T : OrderedTree x.numDraftTokens) : Prop where
  index : ∀ i < x.numDraftTokens, x.retriveIndex (b * x.numDraftTokens + i) = b * x.numDraftTokens + i
  links : Encodes T (fun i => x.retriveNextToken (b * x.numDraftTokens + i))
    (fun i => x.retriveNextSibling (b * x.numDraftTokens + i))

variable {x}

variable {b fuel : Nat} {T : OrderedTree x.numDraftTokens} {w : Walk} {l : List Nat}

theorem trySiblings_eq (h : EncodedAt x b T) (hf : l.length < fuel) (hlt : ∀ c ∈ l, c < x.numDraftTokens)
    (hl : Linked (fun i => x.retriveNextSibling (b * x.numDraftTokens + i)) l) (hc : w.curIndex = firstLink l) :
    trySiblings x b fuel w = some (match l.find? (fun c => cand x b c = x.targetPredict w.lastAccepted) with
      | none => { w with curIndex := -1 }
      | some c => acceptNode x b w c) := by
  induction l generalizing fuel w with
  | nil =>
    obtain ⟨fuel, rfl⟩ : ∃ m, fuel = m + 1 := ⟨fuel - 1, by simp at hf; omega⟩
    obtain ⟨out, last, num, cur⟩ := w
    simp only [firstLink] at hc
    subst hc
    simp [trySiblings]
  | cons c l ih =>
    obtain ⟨fuel, rfl⟩ : ∃ m, fuel = m + 1 := ⟨fuel - 1, by simp at hf; omega⟩
    have hne : w.curIndex ≠ -1 := by rw [hc]; simp [firstLink]
    have hcur : w.curIndex = (c : Int) := hc
    rw [trySiblings, if_neg hne]
    simp only [hcur, h.index c (hlt c mem_cons_self)]
    by_cases hm : x.candidates (b * x.numDraftTokens + c) = x.targetPredict w.lastAccepted
    · simp [hm, cand, acceptNode]
    have hrec := ih (w := { w with curIndex := x.retriveNextSibling (b * x.numDraftTokens + c) })
      (by simpa using hf) (fun d hd => hlt d (mem_cons_of_mem c hd)) hl.2 hl.1
    simp only [hm, if_false, find?_cons, cand, decide_false, hrec]
    rfl

theorem descend_eq (h : EncodedAt x b T) (hf : x.numDraftTokens ≤ fuel) (j : Nat) {p : Nat} (hp : p < x.numDraftTokens)
    (hcur : w.curIndex = p) (hlast : w.lastAccepted = b * x.numDraftTokens + p) :
    ∃ w', descend x b fuel j w = some w' ∧
      finish x b w' = finish x b ((greedyPath T (cand x b) (target x b) j p).foldl (acceptNode x b) w) := by
  induction j generalizing w p with
  | zero => exact ⟨w, rfl, rfl⟩
  | succ j ih =>
    have hkids : ∀ c ∈ T.kids p, c < x.numDraftTokens := fun c hc => (T.lt p c hc).2
    have hlen : (T.kids p).length < fuel := by have := T.kids_length p; omega
    have htry := trySiblings_eq (w := { w with curIndex := x.retriveNextToken (b * x.numDraftTokens + w.curIndex) })
      h hlen hkids (h.links.linked p hp) (by rw [hcur]; exact h.links.first p hp)
    have htgt : x.targetPredict w.lastAccepted = target x b p := by rw [hlast]; rfl
    simp only [htgt] at htry
    simp only [descend, htry, greedyPath, bind_eq_bind, bind_some]
    split
    · exact ⟨_, if_pos rfl, rfl⟩
    rename_i c hc
    simp only [foldl_cons]
    rw [if_neg (by simp [acceptNode])]
    exact ih (hkids c (mem_of_find?_eq_some hc)) rfl rfl

/-- The fallback reads the target's token through row `b`, the kernel through the flat index. -/
theorem rowTarget_eq (b : Nat) (last : Int) :
    at2 x.targetPredict x.numDraftTokens b (last - x.numDraftTokens * b) = x.targetPredict last := by
  unfold at2
  congr 1
  rw [Int.mul_comm]
  omega

theorem nativeSiblings_eq (fuel : Nat) (w : Walk) :
    nativeSiblings x b fuel w = (trySiblings x b fuel w).map (fun w' => (decide (w'.curIndex ≠ -1), w')) := by
  induction fuel generalizing w with
  | zero => rfl
  | succ fuel ih =>
    rw [nativeSiblings, trySiblings, rowTarget_eq]
    by_cases hc : w.curIndex = -1
    · simp [hc]
    rw [if_neg hc, if_neg hc, ih]
    simp only [at2]
    by_cases hm : x.candidates (b * x.numDraftTokens + w.curIndex) = x.targetPredict w.lastAccepted
    · simp [hm, hc]
    · simp [hm]

theorem nativeDescend_eq (j : Nat) (w : Walk) : nativeDescend x b fuel j w = descend x b fuel j w := by
  induction j generalizing w with
  | zero => rfl
  | succ j ih =>
    simp only [nativeDescend, descend, nativeSiblings_eq, at2, bind_eq_bind, bind_map]
    congr 1
    funext w'
    by_cases hc : w'.curIndex = -1
    · simp [hc]
    · simp [hc, ih]

section
variable (h : EncodedAt x b T) (h0 : 0 < x.numDraftTokens) (hf : x.numDraftTokens ≤ fuel)
include h h0 hf

theorem walk_eq (j : Nat) (out : Outputs) :
    (descend x b fuel j (start x b out)).bind (fun w => some (finish x b w)) =
      some (verified x b (greedyPath T (cand x b) (target x b) j 0) out) := by
  obtain ⟨w', hw, hfin⟩ := descend_eq (w := start x b out) h hf j h0 rfl (by simp [start])
  rw [hw, bind_some, hfin]
  rfl

theorem block_eq (out : Outputs) : block x fuel b out =
    some (verified x b (greedyPath T (cand x b) (target x b) (x.numSpeculativeTokens - 1) 0) out) := by
  have hi : x.retriveIndex (b * x.numDraftTokens) = b * x.numDraftTokens := by simpa using h.index 0 h0
  rw [← walk_eq h h0 hf, block, hi]
  rfl

theorem nativeRow_eq (out : Outputs) : nativeRow x fuel b out =
    some (verified x b (greedyPath T (cand x b) (target x b) (x.numDraftTokens - 1) 0) out) := by
  have hi : at2 x.retriveIndex x.numDraftTokens b 0 = b * x.numDraftTokens := by simpa [at2] using h.index 0 h0
  rw [← walk_eq h h0 hf, nativeRow, hi, nativeDescend_eq]
  simp only [rowTarget_eq, Int.add_zero]
  rfl

end

/-! ## What verification writes -/

variable (x) in
/-- The cells of request `b`. -/
def Agree (b : Nat) (s t : Outputs) : Prop :=
  (∀ i < x.numDraftTokens, s.predicts (b * x.numDraftTokens + i) = t.predicts (b * x.numDraftTokens + i)) ∧
  (∀ i < x.numSpeculativeTokens, s.acceptIndex (b * x.numSpeculativeTokens + i) =
    t.acceptIndex (b * x.numSpeculativeTokens + i)) ∧
  s.acceptTokenNum b = t.acceptTokenNum b

/-- The nodes of a walk get the target's tokens, and their indices follow those that the walk has written. -/
theorem finish_foldl (l : List Nat) {p : Nat} (hw : w.lastAccepted = b * x.numDraftTokens + p) :
    finish x b (l.foldl (acceptNode x b) w) =
      ⟨scatter w.out.predicts ((p :: l).map fun q : Nat => ((b * x.numDraftTokens + q : Int), target x b q)),
        scatter w.out.acceptIndex ((l.zipIdx (w.numAccepted + 1)).map fun c =>
          ((b * x.numSpeculativeTokens + c.2 : Int), (b * x.numDraftTokens + c.1 : Int))),
        upd w.out.acceptTokenNum b (w.numAccepted + l.length : Nat)⟩ := by
  induction l generalizing w p with
  | nil => simp [finish, scatter, hw, target]
  | cons d l ih =>
    rw [foldl_cons, ih (w := acceptNode x b w d) rfl]
    simp [acceptNode, scatter, hw, target, Nat.add_assoc, Nat.add_comm 1]

theorem verified_eq (b : Nat) (l : List Nat) (out : Outputs) : verified x b l out =
    ⟨scatter out.predicts ((0 :: l).map fun q : Nat => ((b * x.numDraftTokens + q : Int), target x b q)),
      scatter out.acceptIndex ((0 :: l).zipIdx.map fun c => ((b * x.numSpeculativeTokens + c.2 : Int),
      (b * x.numDraftTokens + c.1 : Int))), upd out.acceptTokenNum b l.length⟩ := by
  rw [verified, finish_foldl l (w := start x b out) (p := 0) (by simp [start])]
  simp [start, scatter]

/-! ## Requests do not disturb each other -/

theorem agree_refl (b : Nat) (s : Outputs) : Agree x b s s := ⟨fun _ _ => rfl, fun _ _ => rfl, rfl⟩

theorem agree_trans {s t u : Outputs} (h : Agree x b s t) (h' : Agree x b t u) : Agree x b s u :=
  ⟨fun i hi => (h.1 i hi).trans (h'.1 i hi), fun i hi => (h.2.1 i hi).trans (h'.2.1 i hi), h.2.2.trans h'.2.2⟩

theorem verified_congr {s t : Outputs} (h : Agree x c s t) (l : List Nat) : Agree x c (verified x b l s) (verified x b l t) := by
  rw [verified_eq, verified_eq]
  exact ⟨fun i hi => scatter_congr (h.1 i hi) _, fun i hi => scatter_congr (h.2.1 i hi) _, scatter_congr h.2.2 [(_, _)]⟩

/-- A request's walk leaves the cells of another request alone. -/
theorem verified_frame (hbc : b ≠ c) (h0 : 0 < x.numDraftTokens)
    (hlt : ∀ d ∈ l, d < x.numDraftTokens) (hn : l.length < x.numSpeculativeTokens) (s : Outputs) :
    Agree x c (verified x b l s) s := by
  rw [verified_eq]
  refine ⟨fun i hi => scatter_of_ne _ fun w hw e => hbc ?_, fun i hi => scatter_of_ne _ fun w hw e => hbc ?_,
    upd_ne _ _ (by omega)⟩
  · obtain ⟨q, hq, rfl⟩ := mem_map.mp hw
    exact (flat_inj ((mem_cons.mp hq).elim (· ▸ h0) (hlt q)) hi e).1
  · obtain ⟨⟨q, k⟩, hq, rfl⟩ := mem_map.mp hw
    have hk : k < l.length + 1 := (mem_zipIdx' hq).1
    exact (flat_inj (by omega) hi e).1

/-! ## The result -/

/-- Request `b`'s outputs accept `path`: a root path along which the candidates are the
    target's tokens and which no child of its last node extends. -/
structure Accepted (x : Inputs) (b : Nat) (T : OrderedTree x.numDraftTokens) (path : List Nat) (out : Outputs) : Prop where
  rootPath : T.RootPath path
  num : out.acceptTokenNum b + 1 = path.length
  index : ∀ i c : Nat, path[i]? = some c → out.acceptIndex (b * x.numSpeculativeTokens + i) = b * x.numDraftTokens + c
  unused : ∀ i : Nat, path.length ≤ i → i < x.numSpeculativeTokens → out.acceptIndex (b * x.numSpeculativeTokens + i) = -1
  tokens : path.IsChain (fun p c => cand x b c = target x b p)
  predicts : ∀ p ∈ path, out.predicts (b * x.numDraftTokens + p) = target x b p
  maximal : ∀ p, path.getLast? = some p → ∀ c ∈ T.kids p, cand x b c ≠ target x b p

/-- The tokens a request emits. -/
def emitted (x : Inputs) (b : Nat) (out : Outputs) (k : Nat) : List Int :=
  (List.range (k + 1)).map fun i : Nat => out.predicts (out.acceptIndex (b * x.numSpeculativeTokens + i))

theorem Accepted.emitted_eq {k : Nat}
    (h : Accepted x b T path out) (hk : out.acceptTokenNum b = k) : emitted x b out k = path.map (target x b) := by
  have hlen : k + 1 = path.length := by have := h.num; rw [hk] at this; exact_mod_cast this
  refine ext_getElem? fun i => ?_
  simp only [emitted, getElem?_map, hlen]
  by_cases hi : i < path.length
  · rw [getElem?_range hi, getElem?_eq_getElem hi]
    simp [h.index i _ (getElem?_eq_getElem hi), h.predicts _ (getElem_mem hi)]
  · rw [getElem?_eq_none (by simpa using hi), getElem?_eq_none (by omega)]
    rfl

theorem Accepted.congr {s t : Outputs} (h : Accepted x b T path t) (ha : Agree x b s t) (hlt : ∀ p ∈ path, p < x.numDraftTokens)
    (hn : path.length ≤ x.numSpeculativeTokens) : Accepted x b T path s where
  rootPath := h.rootPath
  num := by rw [ha.2.2]; exact h.num
  index := fun i c hi => by
    have : i < path.length := (List.getElem?_eq_some_iff.mp hi).1
    rw [ha.2.1 i (by omega)]; exact h.index i c hi
  unused := fun i hi hi' => by rw [ha.2.1 i hi']; exact h.unused i hi hi'
  tokens := h.tokens
  predicts := fun p hp => by rw [ha.1 p (hlt p hp)]; exact h.predicts p hp
  maximal := h.maximal

/-- The accepted path of request `b`: the walk with rounds to spare. -/
def acceptedPath (x : Inputs) (b : Nat) (T : OrderedTree x.numDraftTokens) : List Nat :=
  greedyPath T (cand x b) (target x b) x.numDraftTokens 0

theorem acceptedPath_rootPath : T.RootPath (0 :: acceptedPath x b T) :=
  ⟨(greedyPath_chain T (cand x b) (target x b) _ 0).imp fun _ _ h => h.1, rfl⟩

theorem acceptedPath_length (h0 : 0 < x.numDraftTokens) : (acceptedPath x b T).length < x.numDraftTokens := by
  have := T.chain_length h0 (acceptedPath_rootPath (b := b)).1
  omega

/-- What a whole walk writes is an accepted path. -/
theorem accepted_verified (h0 : 0 < x.numDraftTokens) (hout : ∀ i, out.acceptIndex i = -1) :
    Accepted x b T (0 :: acceptedPath x b T) (verified x b (acceptedPath x b T) out) where
  rootPath := acceptedPath_rootPath
  num := by simp [verified_eq]
  index := by
    intro i c hi
    rw [verified_eq]
    refine scatter_map out.acceptIndex (b := (c, i)) (mk_mem_zipIdx_iff_getElem?.mpr hi) fun d hd h => ?_
    obtain ⟨d, k⟩ := d
    obtain rfl : k = i := by
      dsimp only at h
      omega
    cases (mk_mem_zipIdx_iff_getElem?.mp hd).symm.trans hi
    rfl
  unused := by
    intro i hi _
    rw [verified_eq]
    refine (scatter_of_ne _ fun w hw e => ?_).trans (hout _)
    obtain ⟨⟨d, k⟩, hk, rfl⟩ := mem_map.mp hw
    have := (mem_zipIdx' hk).1
    dsimp only at e
    omega
  tokens := (greedyPath_chain T (cand x b) (target x b) _ 0).imp fun _ _ h => h.2
  predicts := by
    intro p hp
    rw [verified_eq]
    refine scatter_map out.predicts hp fun q _ h => ?_
    rw [show q = p by omega]
  maximal _ := greedyPath_stop T (cand x b) (target x b) (acceptedPath_length h0)

theorem acceptedPath_lt (d : Nat) (hd : d ∈ acceptedPath x b T) : d < x.numDraftTokens :=
  T.chain_lt acceptedPath_rootPath.1 d hd

theorem acceptedPath_depth (hdepth : ∀ path, T.RootPath path → path.length ≤ x.numSpeculativeTokens) :
    (acceptedPath x b T).length < x.numSpeculativeTokens :=
  hdepth _ acceptedPath_rootPath

/-- Any number of rounds from the path's length on walks the same path. -/
theorem greedyPath_enough (h0 : 0 < x.numDraftTokens) (hj : (acceptedPath x b T).length ≤ j) :
    greedyPath T (cand x b) (target x b) j 0 = acceptedPath x b T := by
  unfold acceptedPath at hj ⊢
  rcases le_total j x.numDraftTokens with h | h
  · rw [greedyPath_take T (cand x b) (target x b) 0 h, take_of_length_le hj]
  have htake := greedyPath_take T (cand x b) (target x b) 0 h
  have hlen := acceptedPath_length (b := b) (T := T) h0
  unfold acceptedPath at hlen
  rw [htake, length_take] at hlen
  rw [htake, take_of_length_le (by omega)]

section
variable {rounds : Nat → Outputs → Option Outputs} (trees : Fin x.batchSize → OrderedTree x.numDraftTokens)
  (h0 : 0 < x.numDraftTokens) (hdepth : ∀ b path, (trees b).RootPath path → path.length ≤ x.numSpeculativeTokens)
  (heq : ∀ (b : Fin x.batchSize) out, rounds b out = some (verified x b (acceptedPath x b (trees b)) out))
include h0 hdepth heq

/-- Blocks that each compute a whole walk can run in any order. -/
theorem walks_independent : Independent (fun b : Fin x.batchSize => rounds b) (fun b => Agree x b) where
  refl := fun b s => agree_refl b s
  trans := fun b s t u => agree_trans
  frame := fun c b s s' hbc he => by
    rw [heq b s] at he
    cases he
    exact verified_frame (fun e => hbc (Fin.ext e)) h0 acceptedPath_lt (acceptedPath_depth (hdepth b)) s
  congr := fun b s t t' ha he => by
    rw [heq b t] at he
    cases he
    exact ⟨_, heq b s, verified_congr ha _⟩

theorem launch_walks {order : List (Fin x.batchSize)} (horder : order.Perm (finRange x.batchSize)) (out : Outputs) :
    ∃ s, launch (fun b : Fin x.batchSize => rounds b) order out = some s ∧
      ∀ b : Fin x.batchSize, Agree x b s (verified x b (acceptedPath x b (trees b)) out) := by
  obtain ⟨s, hs, hown⟩ := launch_own (walks_independent trees h0 hdepth heq) order out out
    (horder.nodup_iff.mpr (nodup_finRange _)) (fun b _ => agree_refl b out) (fun b _ => ⟨_, heq b out⟩)
  exact ⟨s, hs, fun b => hown b (horder.mem_iff.mpr (mem_finRange b)) _ (heq b out)⟩

end

/-- The kernel, in any order of its blocks. -/
theorem verifyTreeGreedy_spec {trees : Fin x.batchSize → OrderedTree x.numDraftTokens} {order : List (Fin x.batchSize)}
    (h0 : 0 < x.numDraftTokens) (henc : ∀ b : Fin x.batchSize, EncodedAt x b (trees b))
    (hdepth : ∀ b path, (trees b).RootPath path → path.length ≤ x.numSpeculativeTokens)
    (horder : order.Perm (finRange x.batchSize))
    (hout : ∀ i, out.acceptIndex i = -1) (hf : x.numDraftTokens ≤ fuel) :
    ∃ s, verifyTreeGreedy x fuel order out = some s ∧ ∀ b : Fin x.batchSize,
    Agree x b s (verified x b (acceptedPath x b (trees b)) out) ∧
      Accepted x b (trees b) (0 :: acceptedPath x b (trees b)) s := by
  have hblock : ∀ (b : Fin x.batchSize) o, block x fuel b o = some (verified x b (acceptedPath x b (trees b)) o) := by
    intro b o
    rw [block_eq (henc b) h0 hf, greedyPath_enough h0]
    have := acceptedPath_depth (b := b) (hdepth b)
    omega
  obtain ⟨s, hs, hagree⟩ := launch_walks trees h0 hdepth hblock horder out
  refine ⟨s, hs, fun b => ⟨hagree b, (accepted_verified h0 hout).congr (hagree b) (fun p hp => ?_)
    (acceptedPath_depth (hdepth b))⟩⟩
  rcases mem_cons.mp hp with rfl | hp
  · exact h0
  · exact acceptedPath_lt p hp

/-- A two-node tree's walk: the second node, or nothing. -/
theorem acceptedPath_two (hnd : x.numDraftTokens = 2) : acceptedPath x b T = if cand x b 1 = target x b 0 then [1] else [] := by
  have hk0 : T.kids 0 = [1] := by
    obtain ⟨p, hp⟩ := T.covers 1 (by omega) (by omega)
    obtain rfl : p = 0 := by have := (T.lt p 1 hp).1; omega
    have hlen := T.kids_length 0
    match hk : T.kids 0, hp, hlen with
    | [c], hp, _ => rw [mem_singleton.mp hp]
    | _ :: _ :: _, _, hlen => simp only [length_cons] at hlen; omega
  have hk1 : T.kids 1 = [] := eq_nil_of_length_eq_zero (by have := T.kids_length 1; omega)
  have hgo : ∀ j, j = 2 → greedyPath T (cand x b) (target x b) j 0 = if cand x b 1 = target x b 0 then [1] else [] := by
    rintro j rfl
    by_cases hm : cand x b 1 = target x b 0 <;> simp [greedyPath, hk0, hk1, hm]
  exact hgo _ hnd

theorem nativeShortcut_agree (hnd : x.numDraftTokens = 2) (hns : x.numSpeculativeTokens = 2)
    (hout : ∀ i, out.acceptIndex i = -1) :
    (nativeShortcut x).acceptTokenNum b = (verified x b (acceptedPath x b T) out).acceptTokenNum b ∧
    (∀ i < x.numSpeculativeTokens, (nativeShortcut x).acceptIndex (b * x.numSpeculativeTokens + i) =
      (verified x b (acceptedPath x b T) out).acceptIndex (b * x.numSpeculativeTokens + i)) := by
  have hcmp : comparisonResult x b = if cand x b 1 = target x b 0 then 1 else 0 := by
    simp [comparisonResult, cand, target, hnd]
  rw [acceptedPath_two hnd]
  refine ⟨?_, fun i hi => ?_⟩
  · simp only [nativeShortcut, hcmp]
    split <;> simp [verified, finish, acceptNode, start]
  have hdiv : (b * 2 + 1 : Int) / 2 = b := by omega
  obtain rfl | rfl : i = 0 ∨ i = 1 := by omega
  · simp only [nativeShortcut, hns]
    rw [if_neg (by omega)]
    split <;> simp [verified, finish, acceptNode, start, hnd, hns, upd]
  · simp only [nativeShortcut, hns, cast_ofNat, cast_one, hdiv, hcmp]
    rw [if_pos (by omega)]
    split <;> simp [verified, finish, acceptNode, start, hnd, hns, upd, hout]

/-- Greedy verification, by the kernel in any order of its blocks: every request accepts
    a root path with the target's tokens on it that cannot be extended, and emits the
    target's own greedy tokens along it. The torch fallback accepts the same path. -/
theorem verifyTreeGreedy_lossless (x : Inputs) (trees : Fin x.batchSize → OrderedTree x.numDraftTokens)
    (h0 : 0 < x.numDraftTokens) (henc : ∀ b : Fin x.batchSize, EncodedAt x b (trees b))
    (hdepth : ∀ b path, (trees b).RootPath path → path.length ≤ x.numSpeculativeTokens)
    (order : List (Fin x.batchSize)) (horder : order.Perm (List.finRange x.batchSize))
    (out : Outputs) (hout : ∀ i, out.acceptIndex i = -1) (fuel : Nat) (hf : x.numDraftTokens ≤ fuel) (topk : Int) :
    ∃ s t, verifyTreeGreedy x fuel order out = some s ∧ verifyTreeGreedyNative x fuel topk out = some t ∧
      ∀ b : Fin x.batchSize, ∃ (path : List Nat) (k : Nat), Accepted x b (trees b) path s ∧ s.acceptTokenNum b = k ∧
        emitted x b s k = path.map (target x b) ∧
        t.acceptTokenNum b = s.acceptTokenNum b ∧
        (∀ i < x.numSpeculativeTokens, t.acceptIndex (b * x.numSpeculativeTokens + i) =
        s.acceptIndex (b * x.numSpeculativeTokens + i)) ∧
        ∀ p ∈ path, t.predicts (b * x.numDraftTokens + p) = s.predicts (b * x.numDraftTokens + p) := by
  obtain ⟨s, hs, hspec⟩ := verifyTreeGreedy_spec h0 henc hdepth horder hout hf
  have hnum : ∀ b : Fin x.batchSize, s.acceptTokenNum b = ((acceptedPath x b (trees b)).length : Nat) := by
    intro b
    have := (hspec b).2.num
    simp only [length_cons] at this
    omega
  by_cases hsc : x.numDraftTokens = 2 ∧ x.numSpeculativeTokens = 2 ∧ topk = 1
  · refine ⟨s, nativeShortcut x, hs, if_pos hsc, fun b => ?_⟩
    obtain ⟨hagree, hacc⟩ := hspec b
    refine ⟨_, _, hacc, hnum b, hacc.emitted_eq (hnum b), ?_, fun i hi => ?_, fun p hp => ?_⟩
    · rw [hagree.2.2]; exact (nativeShortcut_agree hsc.1 hsc.2.1 hout).1
    · rw [hagree.2.1 i hi]; exact (nativeShortcut_agree hsc.1 hsc.2.1 hout).2 i hi
    · rw [hacc.predicts p hp]; rfl
  have hrow : ∀ (b : Fin x.batchSize) o, nativeRow x fuel b o = some (verified x b (acceptedPath x b (trees b)) o) := by
    intro b o
    rw [nativeRow_eq (henc b) h0 hf, greedyPath_enough h0]
    have := acceptedPath_length (b := b) (T := trees b) h0
    omega
  obtain ⟨t, ht, hta⟩ := launch_walks trees h0 hdepth hrow (List.Perm.refl _) out
  refine ⟨s, t, hs, by rw [verifyTreeGreedyNative, if_neg hsc, ht], fun b => ?_⟩
  obtain ⟨hagree, hacc⟩ := hspec b
  refine ⟨_, _, hacc, hnum b, hacc.emitted_eq (hnum b), ?_, fun i hi => ?_, fun p hp => ?_⟩
  · rw [hagree.2.2, (hta b).2.2]
  · rw [hagree.2.1 i hi, (hta b).2.1 i hi]
  · have hp' : p < x.numDraftTokens := (mem_cons.mp hp).elim (· ▸ h0) (acceptedPath_lt p)
    rw [hagree.1 p hp', (hta b).1 p hp']

/-! A root with two children, of which the second carries the target's token. -/

def fork : OrderedTree 3 where
  kids := fun p => if p = 0 then [1, 2] else []
  nodup := by intro p; split <;> decide
  lt := by intro p c hc; split at hc <;> simp at hc; omega
  unique := by intro p q c hp hq; split at hp <;> split at hq <;> simp at hp hq; omega
  covers := by intro c h0 hc; exact ⟨0, by simp; omega⟩

def forkInputs : Inputs where
  batchSize := 1
  numSpeculativeTokens := 2
  numDraftTokens := 3
  candidates := fun i => [5, 6, 7].getD i.toNat 0
  retriveIndex := id
  retriveNextToken := fun i => if i = 0 then 1 else -1
  retriveNextSibling := fun i => if i = 1 then 2 else -1
  targetPredict := fun i => [7, 0, 9].getD i.toNat 0

theorem forkInputs_encodedAt : EncodedAt forkInputs 0 fork where
  index := by simp [forkInputs]
  links :=
    { first := by simp only [forkInputs, fork]; decide
      linked := by
        intro p _
        simp only [forkInputs, fork]
        split <;> simp [Linked, firstLink]
      rootSib := by simp [forkInputs] }

theorem fork_depth (path : List Nat) (h : fork.RootPath path) : path.length ≤ 2 := by
  match path, h with
  | [], _ | [_], _ | [_, _], _ => simp
  | a :: b :: c :: l, ⟨hc, _⟩ =>
    obtain ⟨hab, hc⟩ := isChain_cons_cons.mp hc
    have hbc : c ∈ fork.kids b := (isChain_cons_cons.mp hc).1
    have hb := (fork.lt a b hab).1
    have hb0 : b ≠ 0 := by omega
    simp [fork, hb0] at hbc

theorem verifyTreeGreedy_lossless_fork :
    ∃ s t, verifyTreeGreedy forkInputs 3 (List.finRange 1) ⟨fun _ => 0, fun _ => -1, fun _ => 0⟩ = some s ∧
      verifyTreeGreedyNative forkInputs 3 2 ⟨fun _ => 0, fun _ => -1, fun _ => 0⟩ = some t ∧
      ∃ path k, Accepted forkInputs 0 fork path s ∧ emitted forkInputs 0 s k = path.map (target forkInputs 0) ∧
        t.acceptTokenNum 0 = s.acceptTokenNum 0 := by
  obtain ⟨s, t, hs, ht, h⟩ := verifyTreeGreedy_lossless forkInputs (fun _ => fork) (by decide)
    (fun b => by rw [Nat.lt_one_iff.mp b.isLt]; exact forkInputs_encodedAt) (fun _ => fork_depth) _ (List.Perm.refl _)
    ⟨fun _ => 0, fun _ => -1, fun _ => 0⟩ (fun _ => rfl) 3 (by decide) 2
  obtain ⟨path, k, hp, -, he, hn, -⟩ := h ⟨0, one_pos⟩
  exact ⟨s, t, hs, ht, path, k, hp, he, hn⟩

/-! ## Whole requests -/

/-- One token of the target without a draft. -/
def greedyStep (next : List Int → Int) (tokens : List Int) : List Int := tokens ++ [next tokens]

/-- Request `b` of a batch has the given tokens, the last of which is the root of its draft tree. -/
structure Drafted (next : List Int → Int) (x : Inputs) (trees : Fin x.batchSize → OrderedTree x.numDraftTokens)
    (b : Fin x.batchSize) (tokens : List Int) : Prop where
  pos : 0 < x.numDraftTokens
  encoded : ∀ b : Fin x.batchSize, EncodedAt x b (trees b)
  depth : ∀ b path, (trees b).RootPath path → path.length ≤ x.numSpeculativeTokens
  root : tokens.getLast? = some (cand x b 0)
  /-- The target's token at a node follows the candidates on the path to it. -/
  scored : ∀ path p, (trees b).RootPath (path ++ [p]) → target x b p = next (tokens ++ (path ++ [p]).tail.map (cand x b))

/-- A step of a request in some batch, with the blocks of the kernel in any order. -/
inductive Step (next : List Int → Int) (tokens : List Int) : List Int → Prop where
  | verify {x : Inputs} {trees b order out s} {fuel k : Nat} : Drafted next x trees b tokens → order.Perm (finRange x.batchSize) →
      (∀ i, out.acceptIndex i = -1) → x.numDraftTokens ≤ fuel → verifyTreeGreedy x fuel order out = some s →
      s.acceptTokenNum b = k → Step next tokens (tokens ++ emitted x b s k)

variable {next : List Int → Int} {tokens tokens' : List Int}

/-- Along a path whose candidates are the target's tokens, the target decodes greedily. -/
theorem Drafted.path_greedy {x : Inputs} {trees : Fin x.batchSize → OrderedTree x.numDraftTokens} {b : Fin x.batchSize}
    (h : Drafted next x trees b tokens) {l : List Nat} (path : List Nat) {p : Nat}
    (hroot : (trees b).RootPath (path ++ p :: l)) (hmatch : (p :: l).IsChain (fun p c => cand x b c = target x b p)) :
    tokens ++ (path ++ [p]).tail.map (cand x b) ++ (p :: l).map (target x b) =
      (greedyStep next)^[l.length + 1] (tokens ++ (path ++ [p]).tail.map (cand x b)) := by
  induction l generalizing path p with
  | nil =>
    simp [greedyStep, h.scored path p hroot]
  | cons c l ih =>
    obtain ⟨hc, hmatch⟩ := isChain_cons_cons.mp hmatch
    rw [append_cons] at hroot
    have hp : (trees b).RootPath (path ++ [p]) := ⟨hroot.1.left_of_append, by have := hroot.2; grind⟩
    have hnext : tokens ++ (path ++ [p] ++ [c]).tail.map (cand x b) =
      greedyStep next (tokens ++ (path ++ [p]).tail.map (cand x b)) := by
      rw [tail_append_of_ne_nil (by simp), map_append, ← append_assoc, map_singleton, hc, h.scored path p hp, greedyStep]
    rw [length_cons, Function.iterate_succ_apply, ← hnext, ← ih (path ++ [p]) hroot hmatch, hnext, greedyStep, map_cons,
      h.scored path p hp]
    simp

theorem Step.greedy (h : Step next tokens tokens') : ∃ m > 0, tokens' = (greedyStep next)^[m] tokens := by
  obtain ⟨h, horder, hout, hfuel, hs, hk⟩ := h
  rename_i x trees b _ _ s _ _
  obtain ⟨s', hs', hspec⟩ := verifyTreeGreedy_spec h.pos h.encoded h.depth horder hout hfuel
  cases hs'.symm.trans hs
  have hacc := (hspec b).2
  refine ⟨(acceptedPath x b (trees b)).length + 1, Nat.succ_pos _, ?_⟩
  rw [hacc.emitted_eq hk]
  simpa using h.path_greedy [] hacc.rootPath hacc.tokens

/-- Whatever is drafted, and whatever else is in the batches. -/
theorem speculative_eq_greedy (h : Relation.ReflTransGen (Step next) tokens tokens') :
    ∃ m, tokens' = (greedyStep next)^[m] tokens := by
  induction h with
  | refl => exact ⟨0, rfl⟩
  | tail _ hstep ih =>
    obtain ⟨m, rfl⟩ := ih
    obtain ⟨n, -, rfl⟩ := hstep.greedy
    exact ⟨n + m, (Function.iterate_add_apply _ n m _).symm⟩

theorem speculative_eq_greedy_fork : ∃ tokens, Step (fun _ => 7) [5] tokens ∧ ∃ m, tokens = (greedyStep fun _ => 7)^[m] [5] := by
  have h : Drafted (fun _ => 7) { forkInputs with targetPredict := fun _ => 7 } (fun _ => fork) ⟨0, Nat.one_pos⟩ [5] := by
    refine ⟨by decide, fun b => ?_, fun _ => fork_depth, rfl, fun _ _ _ => rfl⟩
    rw [Nat.lt_one_iff.mp b.isLt]
    exact ⟨forkInputs_encodedAt.index, forkInputs_encodedAt.links⟩
  have hs : verifyTreeGreedy { forkInputs with targetPredict := fun _ => 7 } 3 (finRange 1) ⟨0, -1, 0⟩ = some _ := rfl
  have hstep := Step.verify (k := 1) h (Perm.refl _) (fun _ => rfl) le_rfl hs rfl
  exact ⟨_, hstep, speculative_eq_greedy (.single hstep)⟩

end DynaSpec.Speculative.VerifyTree
