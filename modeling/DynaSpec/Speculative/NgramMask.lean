/-
  DynaSpec.Speculative.NgramMask — the round trip of the n-gram draft trees through their
  masks: `batchMatch` (cpp_ngram/ngram.cpp) and the kernel that decodes its mask,
  `reconstructIndicesFromTreeMask` (sgl-kernel/csrc/speculative/ngram_utils.cu).

  The kernel has a thread per node, which reads the mask only and writes its own cells.
  Nodes come after their parents, so a node's parent is the last node above it
  (`scanRow_parent`), its first child the first node below it (`nextToken_least`), and a node
  is its sibling when their last common ancestor is the parent of both
  (`nextSibling_least`).

  - `ngramDraft_roundTrip`: for every trie and every batch of histories.
-/

import DynaSpec.Lib.Scatter
import DynaSpec.Speculative.NgramDraft

namespace DynaSpec.Speculative.Ngram

open DynaSpec.Lib List OrderedTree Nat
open Relation.ReflTransGen (refl)

variable {i : Nat}

/-! ## The kernel -/

structure Indices where
  positions : Nat → Int
  retriveIndex : Nat → Int
  retriveNextToken : Nat → Int
  retriveNextSibling : Nat → Int

def toLink : Option Nat → Int
  | some i => i
  | none => -1

/-- The loop from the diagonal of a row to its start: the depth and the parent. -/
def scanRow (row : Nat → Bool) : Nat → Nat × Int → Nat × Int
  | 0, s => s
  | i + 1, (depth, parentIdx) =>
    scanRow row i (if row i then (depth + 1, if parentIdx = -1 then (i : Int) else parentIdx) else (depth, parentIdx))

section
variable (treeMask : Nat → Bool) (draftTokenNum : Nat)

/-- The cell of the mask for the nodes `i` and `j` of request `bid`. -/
def maskCell (bid i j : Nat) : Bool := treeMask (bid * (draftTokenNum * draftTokenNum) + i * draftTokenNum + j)

def depthAndParent (bid tid : Nat) : Nat × Int := scanRow (maskCell treeMask draftTokenNum bid tid) tid (0, -1)

def nextTokenIdx (bid tid : Nat) : Int :=
  toLink ((List.range' (tid + 1) (draftTokenNum - (tid + 1))).find? fun i => maskCell treeMask draftTokenNum bid i tid)

/-- Node `i` is below `parentIdx` and below nothing between the two. -/
def isSibling (bid parentIdx i : Nat) : Bool :=
  maskCell treeMask draftTokenNum bid i parentIdx &&
    (List.range' (parentIdx + 1) (i - (parentIdx + 1))).all fun j => !maskCell treeMask draftTokenNum bid i j

def nextSiblingIdx (bid tid : Nat) : Int :=
  let parentIdx := (depthAndParent treeMask draftTokenNum bid tid).2
  if parentIdx ≠ -1 then
    toLink ((List.range' (tid + 1) (draftTokenNum - (tid + 1))).find? (isSibling treeMask draftTokenNum bid parentIdx.toNat))
  else -1

/-- The threads in any order, each writing its own cell; thread `f` is thread `f % draft_token_num` of
    block `f / draft_token_num`. -/
def writeThreads (sched : Schedule) (batchSize : Nat) (m : Nat → Int) (val : Nat → Nat → Int) : Nat → Int :=
  scatter m ((sched.order (batchSize * draftTokenNum)).map fun f => (f, val (f / draftTokenNum) (f % draftTokenNum)))

def reconstructIndicesFromTreeMask (sched : Schedule) (batchSize : Nat) (verifiedSeqLen : Nat → Int) (s : Indices) : Indices where
  positions := writeThreads draftTokenNum sched batchSize s.positions fun bid tid =>
    (depthAndParent treeMask draftTokenNum bid tid).1 + verifiedSeqLen bid
  retriveIndex := writeThreads draftTokenNum sched batchSize s.retriveIndex
    fun bid tid => ((bid * draftTokenNum + tid : Nat) : Int)
  retriveNextToken := writeThreads draftTokenNum sched batchSize s.retriveNextToken (nextTokenIdx treeMask draftTokenNum)
  retriveNextSibling := writeThreads draftTokenNum sched batchSize s.retriveNextSibling (nextSiblingIdx treeMask draftTokenNum)

end

/-! ## What the threads read off the mask -/

theorem scanRow_eq (row : Nat → Bool) (k depth : Nat) (parent : Int) : scanRow row k (depth, parent) =
    (depth + ((range k).filter row).length, if parent = -1 then toLink ((range k).filter row).getLast? else parent) := by
  induction k generalizing depth parent with
  | zero =>
    simp only [scanRow, range_zero, filter_nil, length_nil, add_zero, getLast?_nil, toLink]
    split <;> simp_all
  | succ k ih =>
    rw [scanRow, range_succ, filter_append]
    cases hk : row k with
    | false => simp [ih, hk]
    | true =>
      simp only [if_true, ih, hk, filter_cons, filter_nil, length_append, length_singleton,
        getLast?_append, getLast?_singleton, Option.some_or, toLink, Prod.mk.injEq]
      refine ⟨by omega, ?_⟩
      by_cases hp : parent = -1
      · rw [if_pos hp, if_neg (by omega)]
      · rw [if_neg hp, if_neg hp]

/-- The first index of a range that satisfies `P`. -/
theorem find_least (P : Nat → Bool) (a k : Nat) : LeastLink (toLink ((range' a k).find? P)) fun i => (a ≤ i ∧ i < a + k) ∧
    P i = true := by
  induction k generalizing a with
  | zero => exact .inl ⟨rfl, fun c hc => by omega⟩
  | succ k ih =>
    rw [range'_succ, find?_cons]
    cases ha : P a with
    | true => exact .inr ⟨a, rfl, ⟨by omega, ha⟩, fun d hd => hd.1.1⟩
    | false =>
      have hiff : (fun i => (a ≤ i ∧ i < a + (k + 1)) ∧ P i = true) = fun i => (a + 1 ≤ i ∧ i < a + 1 + k) ∧ P i = true := by
        funext i
        simp only [eq_iff_iff]
        refine ⟨fun h => ⟨⟨?_, by omega⟩, h.2⟩, fun h => ⟨by omega, h.2⟩⟩
        rcases lt_or_eq_of_le h.1.1 with hlt | rfl
        · exact hlt
        · rw [ha] at h
          cases h.2
      rw [hiff]
      exact ih (a + 1)

section
variable {treeMask : Nat → Bool} {n b : Nat} {par : Nat → Nat} {hlt : ∀ c, 0 < c → c < n → par c < c}
  (hmask : ∀ i < n, ∀ j < n, maskCell treeMask n b i j = true ↔ (ofParent n par hlt).Above j i)

include hmask

theorem depth_eq (hi : i < n) : ∃ path, (ofParent n par hlt).RootPath path ∧ path.getLast? = some i ∧
      (depthAndParent treeMask n b i).1 = path.length - 1 := by
  refine ⟨_, above_filter _ (maskCell treeMask n b i) hi fun a ha => hmask i hi a (by omega), by simp, ?_⟩
  rw [depthAndParent, scanRow_eq]
  simp

theorem scanRow_parent (hi : i < n) : (depthAndParent treeMask n b i).2 = if i = 0 then -1 else (par i : Int) := by
  obtain ⟨hchain, hhead⟩ := above_filter (ofParent n par hlt) (maskCell treeMask n b i) hi fun a ha =>
    hmask i hi a (by omega)
  rw [depthAndParent, scanRow_eq, if_pos rfl]
  by_cases h0 : i = 0
  · rw [if_pos h0, h0]
    rfl
  rw [if_neg h0]
  cases hlast : ((range i).filter (maskCell treeMask n b i)).getLast? with
  | none =>
    rw [getLast?_eq_none_iff.mp hlast] at hhead
    simp only [nil_append, head?_cons, Option.some.injEq] at hhead
    exact absurd hhead h0
  | some q =>
    have hq := (isChain_append.mp hchain).2.2 q hlast i rfl
    rw [← (mem_ofParent.mp hq).2.2]
    rfl

theorem nextToken_least (hi : i < n) : LeastLink (nextTokenIdx treeMask n b i) (· ∈ (ofParent n par hlt).kids i) := by
  have hfind := find_least (fun c => maskCell treeMask n b c i) (i + 1) (n - (i + 1))
  have hkid : ∀ c ∈ (ofParent n par hlt).kids i, (i + 1 ≤ c ∧ c < i + 1 + (n - (i + 1))) ∧ maskCell treeMask n b c i = true := by
    intro c hc
    have hcl := (ofParent n par hlt).lt i c hc
    refine ⟨by omega, (hmask c hcl.2 i hi).mpr ?_⟩
    exact (above_child _ hc).mpr (.inr refl)
  rcases hfind with ⟨he, hnone⟩ | ⟨c, he, ⟨hr, hc⟩, hle⟩
  · exact .inl ⟨he, fun c hc => hnone c (hkid c hc)⟩
  refine .inr ⟨c, he, ?_, fun d hd => hle d (hkid d hd)⟩
  -- the parent of the first node below `i` is `i`
  have hcn : c < n := by omega
  have hpc := hlt c (by omega) hcn
  have hmem : c ∈ (ofParent n par hlt).kids (par c) := mem_ofParent.mpr ⟨by omega, hcn, rfl⟩
  have hip : (ofParent n par hlt).Above i (par c) :=
    ((above_child _ hmem).mp ((hmask c hcn i hi).mp hc)).resolve_left (by omega)
  have hge := above_le _ hip
  have heq : par c = i := by
    by_contra hne
    have := hle (par c) ⟨by omega, (hmask (par c) (by omega) i hi).mpr hip⟩
    omega
  exact mem_ofParent.mpr ⟨by omega, hcn, heq⟩

theorem isSibling_iff {p : Nat} (hi : i < n) (hpi : p < i) : isSibling treeMask n b p i = true ↔ par i = p := by
  have hmem : i ∈ (ofParent n par hlt).kids (par i) := mem_ofParent.mpr ⟨by omega, hi, rfl⟩
  have hpar := hlt i (by omega) hi
  have habove : ∀ j < i, maskCell treeMask n b i j = true ↔ (ofParent n par hlt).Above j (par i) := by
    intro j hj
    rw [hmask i hi j (by omega), above_child _ hmem]
    exact or_iff_right (by omega)
  simp only [isSibling, Bool.and_eq_true, all_eq_true, mem_range'_1, Bool.not_eq_true', habove p hpi]
  constructor
  · intro h
    have hle := above_le _ h.1
    by_contra hne
    have hf := h.2 (par i) ⟨by omega, by omega⟩
    rw [(habove (par i) hpar).mpr refl] at hf
    cases hf
  · intro he
    rw [he]
    refine ⟨refl, fun j hj => ?_⟩
    rw [Bool.eq_false_iff, ne_eq, habove j (by omega), he]
    intro ha
    have := above_le _ ha
    omega

theorem nextSibling_least (hi : i < n) : LeastLink (nextSiblingIdx treeMask n b i) fun d =>
    i < d ∧ ∃ p, i ∈ (ofParent n par hlt).kids p ∧ d ∈ (ofParent n par hlt).kids p := by
  have hparent := scanRow_parent hmask hi
  simp only [mem_ofParent]
  by_cases h0 : i = 0
  · rw [if_pos h0] at hparent
    exact .inl ⟨by simp [nextSiblingIdx, hparent], fun d hd => by obtain ⟨-, p, hp, -⟩ := hd; omega⟩
  rw [if_neg h0] at hparent
  have hpi := hlt i (by omega) hi
  have hset : (fun d => (i + 1 ≤ d ∧ d < i + 1 + (n - (i + 1))) ∧ isSibling treeMask n b (par i) d = true) =
      fun d => i < d ∧ ∃ p, (0 < i ∧ i < n ∧ par i = p) ∧ 0 < d ∧ d < n ∧ par d = p := by
    funext d
    simp only [eq_iff_iff]
    constructor
    · intro h
      have hd := (isSibling_iff hmask (show d < n by omega) (show par i < d by omega)).mp h.2
      exact ⟨by omega, par i, ⟨by omega, hi, rfl⟩, by omega, by omega, hd⟩
    · intro h
      obtain ⟨hid, p, ⟨-, -, hp⟩, -, hdn, hd⟩ := h
      exact ⟨by omega, (isSibling_iff hmask hdn (show par i < d by omega)).mpr (hd.trans hp.symm)⟩
  rw [nextSiblingIdx, hparent, if_pos (by omega), Int.toNat_natCast, ← hset]
  exact find_least _ _ _

end

/-! ## What the kernel leaves -/

/-- The cells of request `b` are those of the tree `T`. -/
structure Decoded {n : Nat} (T : OrderedTree n) (seqLen : Int) (b : Nat) (out : Indices) : Prop where
  position : ∀ i < n, ∃ path, T.RootPath path ∧ path.getLast? = some i ∧ out.positions (b * n + i) = seqLen + (path.length - 1)
  index : ∀ i < n, out.retriveIndex (b * n + i) = ((b * n + i : Nat) : Int)
  nextToken : ∀ i < n, LeastLink (out.retriveNextToken (b * n + i)) (· ∈ T.kids i)
  nextSibling : ∀ i < n, LeastLink (out.retriveNextSibling (b * n + i)) fun d => i < d ∧ ∃ p, i ∈ T.kids p ∧ d ∈ T.kids p
  walked : (walk (fun i => out.retriveNextToken (b * n + i)) (fun i => out.retriveNextSibling (b * n + i)) (n + 1) 0).Perm
    (List.range n)

theorem thread_cell (sched : Schedule) (m : Nat → Int) (val : Nat → Nat → Int) {bs n b : Nat} (hb : b < bs) (hi : i < n) :
    writeThreads n sched bs m val (b * n + i) = val b i := by
  have hdiv : (b * n + i) / n = b ∧ (b * n + i) % n = i := by
    rw [mul_comm, mul_add_div (by omega), mul_add_mod, div_eq_of_lt hi, mod_eq_of_lt hi]
    exact ⟨rfl, rfl⟩
  unfold writeThreads
  have hcell : scatter m ((sched.order (bs * n)).map fun f => (f, val (f / n) (f % n))) (b * n + i) =
    val ((b * n + i) / n) ((b * n + i) % n) :=
    scatter_map m (sched.mem.mpr (flat_lt hb hi)) fun f _ h => by rw [h]
  rwa [hdiv.1, hdiv.2] at hcell

theorem reconstruct_decodes {treeMask : Nat → Bool} {n b bs : Nat} {par : Nat → Nat} {hlt : ∀ c, 0 < c → c < n → par c < c}
    (hmask : ∀ i < n, ∀ j < n, maskCell treeMask n b i j = true ↔ (ofParent n par hlt).Above j i) (hn : 0 < n)
    (hb : b < bs) (sched : Schedule) (seqLen : Nat → Int) (s : Indices) :
    Decoded (ofParent n par hlt) (seqLen b) b (reconstructIndicesFromTreeMask treeMask n sched bs seqLen s) := by
  have hnext : ∀ i < n, LeastLink ((reconstructIndicesFromTreeMask treeMask n sched bs seqLen s).retriveNextToken (b * n + i))
      (· ∈ (ofParent n par hlt).kids i) := by
    intro i hi
    simp only [reconstructIndicesFromTreeMask, thread_cell _ _ _ hb hi]
    exact nextToken_least hmask hi
  have hsib : ∀ i < n, LeastLink ((reconstructIndicesFromTreeMask treeMask n sched bs seqLen s).retriveNextSibling (b * n + i))
      fun d => i < d ∧ ∃ p, i ∈ (ofParent n par hlt).kids p ∧ d ∈ (ofParent n par hlt).kids p := by
    intro i hi
    simp only [reconstructIndicesFromTreeMask, thread_cell _ _ _ hb hi]
    exact nextSibling_least hmask hi
  have hsorted : ∀ p, ((ofParent n par hlt).kids p).Pairwise (· < ·) := ofParent_sorted
  refine ⟨fun i hi => ?_, fun i hi => ?_, hnext, hsib, walk_perm (encodes_of_least hsorted hnext hsib) hsorted hn⟩
  · obtain ⟨path, hroot, hlast, hdepth⟩ := depth_eq hmask hi
    refine ⟨path, hroot, hlast, ?_⟩
    have hpos : 0 < path.length := length_pos_of_mem (mem_of_getLast? hlast)
    simp only [reconstructIndicesFromTreeMask, thread_cell _ _ _ hb hi, hdepth]
    omega
  · simp [reconstructIndicesFromTreeMask, thread_cell _ _ _ hb hi]

/-! ## A batch of matches -/

section
variable {F : Type} [NatCast F] [Add F] [Sub F] [Mul F] [Div F] [LT F] [DecidableLT F]
  (toInt : F → Int) (pq : PriorityQueue F) (it : Iteration) (p : Param) (t : Trie)

/-- The result of one request: the draft tree that the matcher ends with, serialized. -/
def Matched (batchSize : Nat) (tokens : List Token) (res : Result) : Prop :=
  ∃ d last par vis, (∃ m, ∀ fuel, m ≤ fuel → draft toInt pq p fuel t batchSize tokens = .ok d) ∧ tokens.getLast? = some last ∧
    Serialized d (p.getDraftTokenNum batchSize + 1) last res par vis

theorem matchTokens_settles (batchSize : Nat) {tokens : List Token} (hne : tokens ≠ []) :
    Settles (fun fuel => matchTokens toInt pq it p fuel t batchSize tokens) (Matched toInt pq p t batchSize tokens) := by
  refine (draft_settles toInt pq p t batchSize tokens).self.bind fun d hd => ?_
  obtain ⟨hd, hfuel⟩ := hd
  obtain ⟨last, hlast⟩ : ∃ last, tokens.getLast? = some last := ⟨_, getLast?_eq_some_getLast hne⟩
  simp only [hlast]
  obtain ⟨res, ⟨par, vis, hser⟩, hres⟩ := fillResult_settles it hd.grown hd.le last
  exact ⟨res, ⟨d, last, par, vis, hfuel, hlast, hser⟩, hres⟩

omit [NatCast F] [Add F] [Sub F] [Mul F] [Div F] [LT F] [DecidableLT F] in
/-- The part of block `b` of blocks of one length. -/
theorem flatten_block {α : Type} {k : Nat} {ls : List (List α)} (hlen : ∀ l ∈ ls, l.length = k) {b : Nat} {l : List α}
    (h : ls[b]? = some l) : (ls.flatten.drop (b * k)).take k = l := by
  induction ls generalizing b with
  | nil => cases h
  | cons a ls ih =>
    have ha := hlen a mem_cons_self
    cases b with
    | zero =>
      cases h
      rw [zero_mul, drop_zero, flatten_cons, ← ha, take_left]
    | succ b =>
      rw [flatten_cons, succ_mul, add_comm, ← drop_drop, ← ha, drop_left, ha]
      exact ih (fun x hx => hlen x (mem_cons_of_mem a hx)) h

def Result.join (merged res : Result) : Result := { token := merged.token ++ res.token, mask := merged.mask ++ res.mask }

theorem foldl_join (rs : List Result) (r : Result) : rs.foldl Result.join r =
    { token := r.token ++ (rs.map Result.token).flatten, mask := r.mask ++ (rs.map Result.mask).flatten } := by
  induction rs generalizing r with
  | nil => simp
  | cons a rs ih => simp [ih, Result.join]

theorem getD_take_drop (l : List Nat) (a k : Nat) (hi : i < k) : ((l.drop a).take k).getD i 0 = l.getD (a + i) 0 := by
  rw [getD_eq_getElem?_getD, getElem?_take_of_lt hi, getElem?_drop, getD_eq_getElem?_getD]

/-- The part of request `b`. -/
def Result.block (n : Nat) (r : Result) (b : Nat) : Result :=
  { token := (r.token.drop (b * n)).take n, mask := (r.mask.drop (b * (n * n))).take (n * n) }

theorem batchMatch_settles {tokens : List (List Token)} (hne : ∀ tks ∈ tokens, tks ≠ []) :
    Settles (fun fuel => batchMatch toInt pq it p fuel t tokens) fun r => ∀ b tks, tokens[b]? = some tks →
      Matched toInt pq p t tokens.length tks (r.block (p.getDraftTokenNum tokens.length + 1) b) := by
  obtain ⟨r, ⟨rs, hrs, hr⟩, hfuel⟩ := Settles.collect Result.join (fun tks htks =>
    matchTokens_settles toInt pq it p t tokens.length (hne tks htks)) { token := [], mask := [] }
  refine ⟨r, fun b tks hb => ?_, hfuel⟩
  have hlens : ∀ res ∈ rs, res.token.length = p.getDraftTokenNum tokens.length + 1 ∧
      res.mask.length = (p.getDraftTokenNum tokens.length + 1) * (p.getDraftTokenNum tokens.length + 1) := by
    intro res hres
    obtain ⟨k, hk, rfl⟩ := mem_iff_getElem.mp hres
    obtain ⟨d, last, par, vis, -, -, hser⟩ := hrs.get (hrs.length_eq ▸ hk) hk
    exact ⟨hser.tokenLength, hser.maskLength⟩
  obtain ⟨hblt, rfl⟩ := List.getElem?_eq_some_iff.mp hb
  have hbr : b < rs.length := hrs.length_eq ▸ hblt
  have hblock : r.block (p.getDraftTokenNum tokens.length + 1) b = rs[b] := by
    rw [hr, foldl_join, Result.block]
    rw [nil_append, nil_append, flatten_block (by simpa using fun res hres => (hlens res hres).1)
        (by rw [getElem?_map, getElem?_eq_getElem hbr]; rfl),
      flatten_block (by simpa using fun res hres => (hlens res hres).2)
        (by rw [getElem?_map, getElem?_eq_getElem hbr]; rfl)]
  rw [hblock]
  exact hrs.get hblt hbr

/-- Siblings that are not padding carry distinct tokens. -/
theorem Serialized.siblings_distinct {d : Draft} {n : Nat} {last : Token} {res : Result} {par vis : Nat → Nat}
    (h : Serialized d n last res par vis) {j : Nat} (hi : 0 < i ∧ i < d.cursor) (hj : 0 < j ∧ j < d.cursor) (hij : i ≠ j)
    (hpar : par i = par j) : res.token.getD i 0 ≠ res.token.getD j 0 := by
  intro htok
  have hi' := h.edge i hi.1 hi.2
  have hj' := h.edge j hj.1 hj.2
  rw [htok, hpar] at hi'
  have hvis : vis i = vis j := Dict.unique hi' hj'
  have hnodup := (h.visits.2.nodup_iff).mpr nodup_range
  exact hij (inj_on_of_nodup_map hnodup (mem_range.mpr hi.2) (mem_range.mpr hj.2) hvis)

/-- For every batch of histories the tokens and the mask of each request are those of a tree that
    holds the draft tree of the matcher, and the kernel gives that tree's positions and links
    back from the mask. -/
theorem ngramDraft_roundTrip (tokens : List (List Token)) (hne : ∀ tks ∈ tokens, tks ≠ []) (sched : Schedule) (seqLen : Nat → Int)
    (s : Indices) : Settles (fun fuel => batchMatch toInt pq it p fuel t tokens) fun r => ∀ b tks, tokens[b]? = some tks →
      ∃ (d : Draft) (par vis : Nat → Nat) (h : Serialized d (p.getDraftTokenNum tokens.length + 1) (tks.getLastD 0)
          (r.block (p.getDraftTokenNum tokens.length + 1) b) par vis),
        (∃ m, ∀ fuel, m ≤ fuel → draft toInt pq p fuel t tokens.length tks = .ok d) ∧
        (∀ i j, 0 < i ∧ i < d.cursor → 0 < j ∧ j < d.cursor → i ≠ j → par i = par j →
          (r.block (p.getDraftTokenNum tokens.length + 1) b).token.getD i 0 ≠
            (r.block (p.getDraftTokenNum tokens.length + 1) b).token.getD j 0) ∧
        Decoded (ofParent _ par h.parLt) (seqLen b) b
          (reconstructIndicesFromTreeMask (fun c => r.mask.getD c 0 != 0) (p.getDraftTokenNum tokens.length + 1) sched
          tokens.length
            seqLen s) := by
  obtain ⟨r, hr, hfuel⟩ := batchMatch_settles toInt pq it p t hne
  refine ⟨r, fun b tks hb => ?_, hfuel⟩
  obtain ⟨d, last, par, vis, hd, hlast, hser⟩ := hr b tks hb
  have hlastD : tks.getLastD 0 = last := by rw [getLastD_eq_getLast?, hlast]; rfl
  rw [hlastD]
  refine ⟨d, par, vis, hser, hd, fun i j hi hj hij hpar => hser.siblings_distinct hi hj hij hpar,
    reconstruct_decodes (fun i hi j hj => ?_) (succ_pos _) (List.getElem?_eq_some_iff.mp hb).1 sched seqLen s⟩
  have hcell := hser.mask i hi j hj
  simp only [Result.block, getD_take_drop _ _ _ (flat_lt hi hj), ← add_assoc] at hcell
  by_cases habove : (ofParent _ par hser.parLt).Above j i
  · rw [maskCell, hcell.1 habove]
    exact iff_of_true rfl habove
  · rw [maskCell, hcell.2 habove]
    exact iff_of_false (by decide) habove

end

/-- A queue that takes the largest entry by going over all of them. -/
def popLargest : List (Weighted Int) → Option (Weighted Int × List (Weighted Int))
  | [] => none
  | e :: l => match popLargest l with
    | none => some (e, l)
    | some (m, rest) => if e.prob < m.prob then some (m, e :: rest) else some (e, l)

theorem popLargest_none {l : List (Weighted Int)} (h : popLargest l = none) : l = [] := by
  cases l with
  | nil => rfl
  | cons e l =>
    rw [popLargest] at h
    split at h
    · cases h
    · split at h <;> cases h

theorem popLargest_spec {l rest : List (Weighted Int)} {e : Weighted Int} (h : popLargest l = some (e, rest)) :
    l.Perm (e :: rest) ∧ ∀ x ∈ l, ¬ e.prob < x.prob := by
  induction l generalizing e rest with
  | nil => cases h
  | cons a l ih =>
    rw [popLargest] at h
    split at h
    · rename_i hnone
      cases h
      obtain rfl := popLargest_none hnone
      simp
    rename_i m rest' hsome
    obtain ⟨hperm, htop⟩ := ih hsome
    split at h
    · rename_i hlt
      cases h
      refine ⟨(hperm.cons a).trans (List.Perm.swap e a rest'), fun x hx => ?_⟩
      rcases mem_cons.mp hx with rfl | hx
      · exact lt_asymm hlt
      · exact htop x hx
    rename_i hge
    cases h
    refine ⟨List.Perm.refl _, fun x hx => ?_⟩
    rcases mem_cons.mp hx with rfl | hx
    · exact lt_irrefl _
    · exact fun hlt => htop x hx (lt_of_le_of_lt (not_lt.mp hge) hlt)

def PriorityQueue.largest : PriorityQueue Int where
  pop := popLargest
  some_of_ne := by
    intro l hl
    cases h : popLargest l with
    | none => exact absurd (popLargest_none h) hl
    | some r => exact ⟨r.1, r.2, rfl⟩
  perm := fun h => (popLargest_spec h).1
  top := fun h => (popLargest_spec h).2

def Iteration.stored : Iteration := ⟨fun _ l => l, fun _ l => List.Perm.refl l⟩

def threeProb : Param := { draftTokenNum := 3, matchType := .prob }

theorem ngramDraft_roundTrip_three : ∃ (t : Trie) (r : Result) (par : Nat → Nat) (h : ∀ c, 0 < c → c < 3 → par c < c),
    (Trie.new 8 threeProb >>= fun t => t.insert threeProb [1, 2]) = .ok t ∧
    (∃ m, ∀ fuel, m ≤ fuel → batchMatch id PriorityQueue.largest Iteration.stored threeProb fuel t [[1]] = .ok r) ∧
    Decoded (ofParent 3 par h) 1 0 (reconstructIndicesFromTreeMask (fun c => r.mask.getD c 0 != 0) 3
      Schedule.inOrder 1 (fun _ => 1) ⟨fun _ => 0, fun _ => 0, fun _ => 0, fun _ => 0⟩) := by
  obtain ⟨t, ht⟩ : ∃ t, (Trie.new 8 threeProb >>= fun t => t.insert threeProb [1, 2]) = .ok t := ⟨_, rfl⟩
  obtain ⟨r, hr, hfuel⟩ := ngramDraft_roundTrip id PriorityQueue.largest Iteration.stored threeProb t [[1]] (by decide)
    Schedule.inOrder (fun _ => 1) ⟨fun _ => 0, fun _ => 0, fun _ => 0, fun _ => 0⟩
  obtain ⟨d, par, vis, h, -, -, hdec⟩ := hr 0 [1] rfl
  exact ⟨t, r, par, h.parLt, ht, hfuel, hdec⟩

end DynaSpec.Speculative.Ngram
