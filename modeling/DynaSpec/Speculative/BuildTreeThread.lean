/-
  DynaSpec.Speculative.BuildTreeThread — what one thread of `build_tree_efficient` writes.

  A `Selection` is a list of candidates in increasing order, each with its parent among
  them; it is the tree `Selection.tree` on the nodes of the request. Searching the
  selection for a parent finds its node (`parentPosition_eq`), so thread 0's loop pushes
  every node in front of its parent's children (`linkNodes_links`), and the other
  threads climb the root path of their node (`climb_eq`) and set its columns in their
  row of the mask (`row_mask`). `thread_written` puts it together.
-/

import DynaSpec.Lib.LinkTree
import DynaSpec.Speculative.BuildTree
import Mathlib.Tactic.LinearCombination
import Mathlib.Tactic.Ring

namespace DynaSpec.Speculative.BuildTree

open DynaSpec.Lib List Nat

variable {c f : Nat}

/-! ## The tree of a selection -/

/-- Candidates in increasing order, each with its parent among them. -/
structure Selection (topk n : Nat) where
  sel : List Nat
  parent : Nat → Nat
  length : sel.length + 1 = n
  sorted : sel.Pairwise (· < ·)
  closed : ∀ f ∈ sel, topk ≤ f → parent f ∈ sel ∧ parent f < f

namespace Selection

variable {topk n : Nat} (S : Selection topk n)

/-- The parent of node `c`, as a node. -/
def nodeParent (c : Nat) : Nat :=
  match S.sel[c - 1]? with
  | none => 0
  | some f => if f < topk then 0 else S.sel.idxOf (S.parent f) + 1

theorem exists_selected (h0 : 0 < c) (hc : c < n) : ∃ f, S.sel[c - 1]? = some f ∧ f ∈ S.sel := by
  have hlt : c - 1 < S.sel.length := by have := S.length; omega
  exact ⟨_, getElem?_eq_getElem hlt, getElem_mem hlt⟩

theorem idxOf_parent_lt {j : Nat} (hj : S.sel[j]? = some f) (hf : topk ≤ f) : S.sel.idxOf (S.parent f) < j := by
  obtain ⟨hj', rfl⟩ := List.getElem?_eq_some_iff.mp hj
  obtain ⟨hm, hlt⟩ := S.closed _ (getElem_mem hj') hf
  by_contra hle
  have hidx := idxOf_lt_length_iff.mpr hm
  have hval : S.sel.get ⟨_, hidx⟩ = S.parent _ := getElem_idxOf hidx
  rcases Nat.lt_or_eq_of_le (Nat.le_of_not_lt hle) with h | h
  · have := pairwise_iff_getElem.mp S.sorted _ _ hj' hidx h
    have : S.sel.get ⟨_, hidx⟩ = S.sel[S.sel.idxOf (S.parent S.sel[j])] := rfl
    omega
  · simp only [← h, get_eq_getElem] at hval
    omega

theorem nodeParent_lt (c : Nat) (h0 : 0 < c) (hc : c < n) : S.nodeParent c < c := by
  obtain ⟨f, hget, -⟩ := S.exists_selected h0 hc
  simp only [nodeParent, hget]
  split
  · exact h0
  · have := S.idxOf_parent_lt hget (by omega)
    omega

def tree : OrderedTree n := OrderedTree.ofParent _ S.nodeParent S.nodeParent_lt

theorem mem_tree {p : Nat} : c ∈ S.tree.kids p ↔ 0 < c ∧ c < n ∧ S.nodeParent c = p :=
  OrderedTree.mem_ofParent

end Selection

/-- The request's rows of `selected_index` and `parent_list` hold the selection. -/
structure Holds (x : Inputs) (bid : Nat) (S : Selection x.topk x.draftTokenNum) : Prop where
  topk_pos : 0 < x.topk
  selected : ∀ j f : Nat, S.sel[j]? = some f → selectedAt x bid j = f
  parents : ∀ f ∈ S.sel, x.topk ≤ f → parentAt x bid ((f / x.topk : Nat) : Int) = S.parent f

section
variable {x : Inputs} {bid : Nat} {S : Selection x.topk x.draftTokenNum}

/-- Both searches stop at the first candidate that is the token; the fallback's accesses are
    checked, and in range up to there. -/
theorem scan_found {tokenIdx : Int} {k n p : Nat} (hk : selectedAt x bid k = tokenIdx) (hkn : k < x.draftTokenNum - 1)
    (hp : p ≤ k) (hn : k < p + n) (hne : ∀ q, p ≤ q → q < k → selectedAt x bid q ≠ tokenIdx) :
    scan x bid tokenIdx n p = (k, true) ∧ nativeScan x bid tokenIdx n p = some (k, true) := by
  induction n generalizing p with
  | zero => omega
  | succ n ih =>
    simp only [scan, nativeScan, nativeSelectedAt, if_pos (show p < x.draftTokenNum - 1 by omega), Option.bind_eq_bind,
      Option.bind_some]
    rcases lt_or_eq_of_le hp with h | rfl
    · rw [if_neg (hne p (le_refl p) h), if_neg (hne p (le_refl p) h)]
      exact ih h (by omega) fun q hq => hne q (by omega)
    · exact ⟨if_pos hk, if_pos hk⟩

section
variable (h : Holds x bid S)
include h

/-- The parent of a selected candidate is found at its own place in the selection. -/
theorem scan_parent (hf : f ∈ S.sel) (hk : x.topk ≤ f) :
    scan x bid (parentAt x bid ((f / x.topk : Nat) : Int)) x.draftTokenNum 0 = (S.sel.idxOf (S.parent f), true) ∧
      nativeScan x bid (parentAt x bid ((f / x.topk : Nat) : Int)) x.draftTokenNum 0 = some (S.sel.idxOf (S.parent f), true) := by
  have hidx := idxOf_lt_length_iff.mpr (S.closed f hf hk).1
  have hlen := S.length
  have hget : S.sel[S.sel.idxOf (S.parent f)]? = some (S.parent f) := by
    rw [getElem?_eq_getElem hidx, getElem_idxOf hidx]
  rw [h.parents f hf hk]
  refine scan_found (h.selected _ _ hget) (by omega) (zero_le _) (by omega) fun q _ hq e => ?_
  rw [h.selected q _ (getElem?_eq_getElem (hq.trans hidx))] at e
  have hne := not_of_lt_findIdx hq
  simp only [beq_eq_false_iff_ne] at hne
  exact hne (by exact_mod_cast e)

theorem selectedAt_ediv {j : Nat} (hj : S.sel[j]? = some f) : selectedAt x bid j / x.topk = ((f / x.topk : Nat) : Int) := by
  rw [h.selected j f hj, Int.natCast_ediv]

theorem selectedAt_tdiv {j : Nat} (hj : S.sel[j]? = some f) : (selectedAt x bid j).tdiv x.topk = ((f / x.topk : Nat) : Int) := by
  rw [← selectedAt_ediv h hj, Int.tdiv_eq_ediv_of_nonneg (by rw [h.selected j f hj]; omega)]

theorem parentPosition_eq (h0 : 0 < c) (hc : c < x.draftTokenNum) : parentPosition x bid c = S.nodeParent c := by
  obtain ⟨f, hget, hmem⟩ := S.exists_selected h0 hc
  simp only [parentPosition, selectedAt_tdiv h hget, Selection.nodeParent, hget]
  by_cases hk : f < x.topk
  · simp [div_eq_of_lt hk, hk]
  have hpos := Nat.div_pos (Nat.le_of_not_lt hk) h.topk_pos
  rw [if_pos (by exact_mod_cast hpos), (scan_parent h hmem (Nat.le_of_not_lt hk)).1]
  simp [hk]

end

/-! ## The links -/

def links (x : Inputs) (bid : Nat) (s : Buffers) : Links where
  next := fun i => s.retriveNextToken (bid * x.draftTokenNum + i)
  sib := fun i => s.retriveNextSibling (bid * x.draftTokenNum + i)

theorem row_upd (m : Mem) (a v : Int) (p : Nat) : (fun i : Nat => upd m (a + p) v (a + i)) =
    upd (fun i : Nat => m (a + i)) p v := by
  funext i
  by_cases e : i = p
  · subst e; simp
  · rw [upd_ne _ _ e, upd_ne]
    omega

theorem linkNode_links (h : Holds x bid S) (h0 : 0 < c) (hc : c < x.draftTokenNum) (s : Buffers) :
    links x bid (linkNode x bid c s) = (links x bid s).push (S.nodeParent c) c := by
  have hlt := S.nodeParent_lt c h0 hc
  simp only [linkNode, parentPosition_eq h h0 hc]
  rw [if_neg (by omega)]
  simp only [links, Links.push, row_upd]
  by_cases e : s.retriveNextToken (bid * x.draftTokenNum + S.nodeParent c) = -1
  · simp [e]
  · simp [e, row_upd]

theorem linkNodes_links (h : Holds x bid S) {i : Nat} (hi : i < x.draftTokenNum) (s : Buffers) :
    links x bid (linkNodes x bid i s) = (links x bid s).pushDown S.nodeParent i := by
  induction i generalizing s with
  | zero => rfl
  | succ i ih => rw [linkNodes, ih (by omega), linkNode_links h (succ_pos i) hi, Links.pushDown]

/-- Two buffers with the same links and indices outside the request's row. -/
structure SameOutside (x : Inputs) (bid : Nat) (s t : Buffers) : Prop where
  index : ∀ c : Int, (∀ j < x.draftTokenNum, c ≠ bid * x.draftTokenNum + j) → s.retriveIndex c = t.retriveIndex c
  next : ∀ c : Int, (∀ j < x.draftTokenNum, c ≠ bid * x.draftTokenNum + j) → s.retriveNextToken c = t.retriveNextToken c
  sib : ∀ c : Int, (∀ j < x.draftTokenNum, c ≠ bid * x.draftTokenNum + j) → s.retriveNextSibling c = t.retriveNextSibling c

theorem SameOutside.trans {s t u : Buffers} (h1 : SameOutside x bid s t) (h2 : SameOutside x bid t u) : SameOutside x bid s u :=
  ⟨fun d hd => (h1.index d hd).trans (h2.index d hd), fun d hd => (h1.next d hd).trans (h2.next d hd),
    fun d hd => (h1.sib d hd).trans (h2.sib d hd)⟩

theorem linkNode_outside (h : Holds x bid S) (h0 : 0 < c) (hc : c < x.draftTokenNum) (s : Buffers) :
    SameOutside x bid (linkNode x bid c s) s := by
  have hlt := S.nodeParent_lt c h0 hc
  simp only [linkNode, parentPosition_eq h h0 hc]
  rw [if_neg (by omega)]
  refine ⟨fun d hd => upd_ne _ _ (hd c hc), fun d hd => upd_ne _ _ (hd _ (by omega)), fun d hd => ?_⟩
  simp only
  split
  · rfl
  · exact upd_ne _ _ (hd c hc)

theorem linkNodes_outside (h : Holds x bid S) {i : Nat} (hi : i < x.draftTokenNum) (s : Buffers) :
    SameOutside x bid (linkNodes x bid i s) s := by
  induction i generalizing s with
  | zero => exact ⟨fun _ _ => rfl, fun _ _ => rfl, fun _ _ => rfl⟩
  | succ i ih => exact (ih (by omega) (linkNode x bid (i + 1) s)).trans (linkNode_outside h (succ_pos i) hi s)

theorem linkNode_rest (bid c : Nat) (s : Buffers) :
    (linkNode x bid c s).treeMask = s.treeMask ∧ (linkNode x bid c s).positions = s.positions ∧
      (linkNode x bid c s).retriveIndex = upd s.retriveIndex (bid * x.draftTokenNum + c) (bid * x.draftTokenNum + c) := by
  simp only [linkNode]
  split <;> exact ⟨rfl, rfl, rfl⟩

theorem linkNodes_rest (bid i : Nat) (s : Buffers) :
    (linkNodes x bid i s).treeMask = s.treeMask ∧ (linkNodes x bid i s).positions = s.positions ∧
      ∀ j : Nat, (linkNodes x bid i s).retriveIndex (bid * x.draftTokenNum + j) =
        if 0 < j ∧ j ≤ i then bid * x.draftTokenNum + (j : Int) else s.retriveIndex (bid * x.draftTokenNum + j) := by
  induction i generalizing s with
  | zero => exact ⟨rfl, rfl, fun j => (if_neg (by omega)).symm⟩
  | succ i ih =>
    obtain ⟨hm, hp, hi⟩ := ih (linkNode x bid (i + 1) s)
    obtain ⟨hm', hp', hi'⟩ := linkNode_rest (x := x) bid (i + 1) s
    refine ⟨hm.trans hm', hp.trans hp', fun j => ?_⟩
    rw [linkNodes, hi j, hi']
    by_cases e : j = i + 1
    · subst e; simp
    rw [upd_ne _ _ (by omega)]
    congr 1
    simp only [eq_iff_iff]
    omega

/-! ## The climb -/

/-- The mask with the nodes of `l` set, node `d` at `idx + d - 1`. -/
def mark (idx : Int) (l : List Nat) (mask : Int → Bool) : Int → Bool :=
  fun c => l.any (fun d => c = idx + d - 1) || mask c

theorem mark_append (idx : Int) (l m : List Nat) (mask : Int → Bool) : mark idx (l ++ m) mask = mark idx l (mark idx m mask) := by
  funext c
  simp [mark, any_append, Bool.or_assoc]

/-- The tree path to node `c`, without the root: what the climb visits. -/
theorem climb_eq (h : Holds x bid S) (idx : Int) {fuel : Nat} (position : Nat) (mask : Int → Bool) (h0 : 0 < c)
    (hc : c < x.draftTokenNum) (hf : c ≤ fuel) : ∃ l, S.tree.RootPath (0 :: l) ∧ l.getLast? = some c ∧
      climb x bid idx fuel position (c - 1) mask = some (position + l.length, mark idx l mask) := by
  induction fuel generalizing c position mask with
  | zero => omega
  | succ fuel ih =>
    obtain ⟨f, hget, hmem⟩ := S.exists_selected h0 hc
    have hset : upd mask (idx + (c - 1 : Nat)) true = mark idx [c] mask := by
      funext d
      simp only [upd, mark, any_cons, any_nil, Bool.or_false]
      by_cases e : d = idx + (c - 1 : Nat)
      · rw [if_pos e, decide_eq_true (by omega), Bool.true_or]
      · rw [if_neg e, decide_eq_false (by omega), Bool.false_or]
    simp only [climb, selectedAt_tdiv h hget, hset]
    by_cases hk : f < x.topk
    · -- a first-step candidate: its parent is the root
      have hpar : S.nodeParent c = 0 := by simp [Selection.nodeParent, hget, hk]
      refine ⟨[c], ⟨isChain_cons_cons.mpr ⟨?_, isChain_singleton c⟩, rfl⟩, rfl, ?_⟩
      · exact S.mem_tree.mpr ⟨h0, hc, hpar⟩
      · rw [if_pos (by exact_mod_cast div_eq_of_lt hk)]
        rfl
    have hk' := Nat.le_of_not_lt hk
    have hdiv := div_pos hk' h.topk_pos
    have hpar : S.nodeParent c = S.sel.idxOf (S.parent f) + 1 := by simp [Selection.nodeParent, hget, hk]
    have hlt := S.nodeParent_lt c h0 hc
    obtain ⟨l, ⟨hl, h0l⟩, hlast, hclimb⟩ := ih (position + 1) (mark idx [c] mask) (show 0 < S.nodeParent c by omega)
      (by omega) (by omega)
    refine ⟨l ++ [c], ⟨?_, rfl⟩, by simp, ?_⟩
    · rw [← cons_append]
      refine List.IsChain.append hl (isChain_singleton c) ?_
      intro y hy z hz
      cases hz
      have : y = S.nodeParent c := by
        rw [getLast?_cons, hlast] at hy
        simpa using hy.symm
      exact S.mem_tree.mpr ⟨h0, hc, this.symm⟩
    · rw [if_neg (by exact_mod_cast Nat.pos_iff_ne_zero.mp hdiv), (scan_parent h hmem hk').1]
      rw [hpar, Nat.add_sub_cancel] at hclimb
      rw [hclimb, length_append, length_singleton]
      rw [mark_append]
      congr 2
      omega

/-! ## The mask's rows -/

/-- The columns of a request's mask rows before those of the draft tokens. -/
def lead (x : Inputs) (b : Nat) : Nat := if x.treeMaskMode = .fullMask then x.verifiedSeqLen b else 0

/-- Where node `t`'s row of the mask starts. -/
def maskRow (x : Inputs) (b t : Nat) : Nat :=
  offset (fun i => (lead x i + x.draftTokenNum) * x.draftTokenNum) b + (lead x b + x.draftTokenNum) * t

theorem seqTreeIdx_eq (b : Nat) : seqTreeIdx x b =
    offset (fun i => (x.verifiedSeqLen i + x.draftTokenNum) * x.draftTokenNum) b := by
  have hfold : ∀ (b : Nat) (a : Int), (range b).foldl (fun (acc : Int) (i : Nat) => acc + x.verifiedSeqLen i *
    x.draftTokenNum) a =
      a + offset (fun i => x.verifiedSeqLen i * x.draftTokenNum) b := by
    intro b a
    induction b with
    | zero => simp [offset]
    | succ b ih =>
      rw [offset_succ, range_succ, foldl_append, foldl_cons, foldl_nil, ih]
      push_cast
      ring
  rw [seqTreeIdx, hfold]
  induction b with
  | zero => simp [offset]
  | succ b ih =>
    rw [offset_succ, offset_succ]
    push_cast
    linear_combination ih

theorem tokenTreeIdx_eq (b t : Nat) : tokenTreeIdx x b t = (maskRow x b t + lead x b + 1 : Nat) := by
  by_cases hm : x.treeMaskMode = .fullMask
  · simp only [tokenTreeIdx, maskRow, lead, hm, if_true, seqTreeIdx_eq]
    push_cast
    ring
  have hoff : offset (fun _ => (0 + x.draftTokenNum) * x.draftTokenNum) b = x.draftTokenNum * x.draftTokenNum * b := by
    induction b with
    | zero => simp [offset]
    | succ b ih => rw [offset_succ, ih]; ring
  simp only [tokenTreeIdx, maskRow, lead, hm, if_false, hoff]
  push_cast
  ring

/-- The rows of the mask do not overlap. -/
theorem maskRow_inj {b t j b' t' j' : Nat} (ht : t < x.draftTokenNum) (ht' : t' < x.draftTokenNum)
    (hj : j < lead x b + x.draftTokenNum) (hj' : j' < lead x b' + x.draftTokenNum)
    (h : maskRow x b t + j = maskRow x b' t' + j') : b = b' ∧ t = t' ∧ j = j' := by
  have hin : ∀ {b t j : Nat}, t < x.draftTokenNum → j < lead x b + x.draftTokenNum →
      (lead x b + x.draftTokenNum) * t + j < (lead x b + x.draftTokenNum) * x.draftTokenNum := by
    intro b t j ht hj
    calc (lead x b + x.draftTokenNum) * t + j < (lead x b + x.draftTokenNum) * t + (lead x b + x.draftTokenNum) := by omega
      _ = (lead x b + x.draftTokenNum) * (t + 1) := by ring
      _ ≤ _ := mul_le_mul_left _ ht
  simp only [maskRow, add_assoc] at h
  obtain ⟨rfl, h⟩ := offset_inj (fun i => (lead x i + x.draftTokenNum) * x.draftTokenNum) (hin ht hj) (hin ht' hj') h
  obtain ⟨rfl, rfl⟩ := flat_inj (a := t) (b := t') hj hj' (by
    have : ((lead x b + x.draftTokenNum) * t + j : Int) = (lead x b + x.draftTokenNum) * t' + j' := by exact_mod_cast h
    push_cast
    linear_combination this)
  exact ⟨rfl, rfl, rfl⟩

/-- A row after a thread: its own column and those of the nodes `l` it climbed through. -/
theorem row_mask {b t : Nat} {l : List Nat} (mask : Int → Bool) (h0 : 0 < x.draftTokenNum)
    (hl : ∀ d ∈ l, 0 < d ∧ d < x.draftTokenNum) {m : Int → Bool} (hm : m = mark (tokenTreeIdx x b t) l
      (fill (upd mask (tokenTreeIdx x b t - 1) true) (tokenTreeIdx x b t) (x.draftTokenNum - 1) false)) :
    (∀ j < x.draftTokenNum, m (maskRow x b t + lead x b + j : Nat) = decide (j ∈ 0 :: l)) ∧
      ∀ c : Int, (∀ j < x.draftTokenNum, c ≠ (maskRow x b t + lead x b + j : Nat)) → m c = mask c := by
  subst hm
  rw [tokenTreeIdx_eq]
  constructor
  · intro j hj
    have hany : l.any (fun d => ((maskRow x b t + lead x b + j : Nat) : Int) = (maskRow x b t + lead x b + 1 : Nat) + d - 1) =
        decide (j ∈ l) := by
      rw [Bool.eq_iff_iff, any_eq_true, decide_eq_true_iff]
      constructor
      · rintro ⟨d, hd, e⟩
        have := decide_eq_true_iff.mp e
        rwa [show j = d by omega]
      · intro hj'
        exact ⟨j, hj', decide_eq_true (by omega)⟩
    simp only [mark, hany, fill_apply, upd]
    rcases Nat.eq_zero_or_pos j with rfl | h0
    · rw [if_neg (by omega), if_pos (by omega)]
      simp
    · rw [if_pos (by omega), Bool.or_false]
      simp [show j ≠ 0 by omega]
  · intro c hc
    have hany : l.any (fun d => c = ((maskRow x b t + lead x b + 1 : Nat) : Int) + d - 1) = false := by
      rw [any_eq_false]
      intro d hd
      have := hc d (hl d hd).2
      simp only [decide_eq_true_eq]
      omega
    simp only [mark, hany, Bool.false_or, fill_apply, upd]
    have hown := hc 0 h0
    rw [if_neg ?_, if_neg (by omega)]
    rintro ⟨h1, h2⟩
    exact hc (c - (maskRow x b t + lead x b)).toNat (by omega) (by omega)

/-! ## One thread -/

/-- A thread keeps to its own cells; thread 0 pushes every node of the request. -/
structure Local (x : Inputs) (b t : Nat) (S : Selection x.topk x.draftTokenNum) (s s' : Buffers) : Prop where
  maskRest : ∀ c : Int, (∀ j < x.draftTokenNum, c ≠ (maskRow x b t + lead x b + j : Nat)) → s'.treeMask c = s.treeMask c
  positionsRest : ∀ c : Int, c ≠ b * x.draftTokenNum + t → s'.positions c = s.positions c
  links : links x b s' = if t = 0 then (links x b s).pushDown S.nodeParent (x.draftTokenNum - 1) else links x b s
  indexRest : t ≠ 0 → s'.retriveIndex = s.retriveIndex
  outside : SameOutside x b s' s

/-- What thread `t` of block `b` leaves in the buffers. -/
structure Written (x : Inputs) (b t : Nat) (S : Selection x.topk x.draftTokenNum) (s s' : Buffers) : Prop
    extends Local x b t S s s' where
  index : t = 0 → ∀ i < x.draftTokenNum, s'.retriveIndex (b * x.draftTokenNum + i) = b * x.draftTokenNum + (i : Int)
  path : ∃ path, S.tree.RootPath path ∧ path.getLast? = some t ∧
    s'.positions (b * x.draftTokenNum + t) = x.verifiedSeqLen b + (path.length - 1 : Int) ∧
    ∀ j < x.draftTokenNum, s'.treeMask (maskRow x b t + lead x b + j : Nat) = decide (j ∈ path)

theorem thread_written {b t fuel : Nat} (h : Holds x b S) (ht : t < x.draftTokenNum) (hf : x.draftTokenNum ≤ fuel)
    (s : Buffers) : ∃ s', thread x fuel b t s = some s' ∧ Written x b t S s s' := by
  have hn : 0 < x.draftTokenNum := by omega
  rw [thread, if_neg (by omega)]
  by_cases h0 : t = 0
  · subst h0
    simp only [if_true]
    refine ⟨_, rfl, ?_⟩
    set m := fill (upd s.treeMask (tokenTreeIdx x b 0 - 1) true) (tokenTreeIdx x b 0) (x.draftTokenNum - 1) false with hm
    set u : Buffers :=
      { s with treeMask := m, positions := upd s.positions (b * x.draftTokenNum) (x.verifiedSeqLen b) } with hu
    obtain ⟨hmask, hpos, hidx⟩ := linkNodes_rest (x := x) b (x.draftTokenNum - 1) u
    have hpos' : (linkNodes x b (x.draftTokenNum - 1) u).positions = upd s.positions (b * x.draftTokenNum)
      (x.verifiedSeqLen b) := hpos
    have hlinks := linkNodes_links h (show x.draftTokenNum - 1 < _ by omega) u
    have hout := linkNodes_outside h (show x.draftTokenNum - 1 < _ by omega) u
    obtain ⟨hrow, hrest⟩ := row_mask (b := b) (t := 0) (l := []) s.treeMask hn (by simp) (m := m) (by funext c; simp [mark, hm])
    refine ⟨⟨fun c hc => ?_, fun c hc => ?_, ?_, absurd rfl, ?_⟩, fun _ i hi => ?_,
      ⟨[0], ⟨isChain_singleton 0, rfl⟩, rfl, ?_, fun j hj => ?_⟩⟩
    · simp only [hmask]; exact hrest c hc
    · simp only [hpos']; exact upd_ne _ _ (by simpa using hc)
    · rw [if_pos rfl]; exact hlinks
    · exact ⟨fun c hc => (upd_ne _ _ (by simpa using hc 0 hn)).trans (hout.index c hc), hout.next, hout.sib⟩
    · simp only [upd]
      split
      · rename_i e; exact e.symm
      · rename_i e; rw [hidx, if_pos (by omega)]
    · simp only [hpos']; simp
    · simp only [hmask]; exact hrow j hj
  simp only [h0, if_false]
  obtain ⟨l, hroot, hlast, hclimb⟩ := climb_eq h (tokenTreeIdx x b t) 0
    (fill (upd s.treeMask (tokenTreeIdx x b t - 1) true) (tokenTreeIdx x b t) (x.draftTokenNum - 1) false)
    (by omega) ht (show t ≤ fuel by omega)
  have hl : ∀ d ∈ l, 0 < d ∧ d < x.draftTokenNum := fun d hd =>
    ⟨(pairwise_cons.mp (S.tree.chain_sorted hroot.1)).1 d hd, S.tree.chain_lt hroot.1 d hd⟩
  obtain ⟨hrow, hrest⟩ := row_mask s.treeMask hn hl (b := b) (t := t) rfl
  rw [hclimb]
  refine ⟨_, rfl, ⟨hrest, fun c hc => upd_ne _ _ hc, ?_, fun _ => rfl, ⟨fun _ _ => rfl, fun _ _ => rfl, fun _ _ => rfl⟩⟩,
    fun e => absurd e h0, ⟨0 :: l, hroot, ?_, ?_, hrow⟩⟩
  · rw [if_neg h0]; rfl
  · rw [getLast?_cons, hlast]; rfl
  · simp only [upd_same, length_cons]; push_cast; ring

end

end DynaSpec.Speculative.BuildTree
