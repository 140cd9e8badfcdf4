/-
  DynaSpec.Eplb.ExpertLocation — which replicas of an expert a rank sends tokens to, and which
  ones are loaded (python/sglang/srt/eplb/expert_location.py, expert_location_dispatch.py and
  layers/moe/fused_moe_triton/layer.py, for one layer).

  Every rank reduces the replicas of an expert to its own nearest one, if there is one on its GPU
  or its node, and keeps all of them otherwise. It sends tokens to the replicas it has kept, and
  it loads those of them that it owns. A rank without a replica on its node may send to any
  replica, but the owner of two replicas on one GPU has loaded only the first.

  `dispatch_loaded_iff`: every replica that some rank may send to is one of the right expert, and
  all of them are loaded exactly if each expert has a replica on every node or no two on one GPU
  (`Spread`). `second_replica_not_loaded` is a placement where it is not so.
-/

import Mathlib.Data.List.Perm.Subperm
import Mathlib.Algebra.Order.Group.Nat

namespace DynaSpec.Eplb.ExpertLocation

open List Nat

variable {x : Int} {n : Nat}

/-- The ranks and the experts of one layer; everything divides evenly and every logical expert is there. -/
structure Placement where
  epSize : Nat
  nnodes : Nat
  numLogicalExperts : Nat
  physicalToLogical : List Nat
  nnodes_pos : 0 < nnodes
  local_pos : 0 < physicalToLogical.length / epSize
  nnodes_dvd : nnodes ∣ epSize
  epSize_dvd : epSize ∣ physicalToLogical.length
  below : ∀ l ∈ physicalToLogical, l < numLogicalExperts
  occurs : ∀ l < numLogicalExperts, l ∈ physicalToLogical

namespace Placement

variable (c : Placement)

def numLocalGpuPhysicalExperts : Nat := c.physicalToLogical.length / c.epSize

def numGpusPerNode : Nat := c.epSize / c.nnodes

def numLocalNodePhysicalExperts : Nat := c.numLocalGpuPhysicalExperts * c.numGpusPerNode

def computeGpuIdOfPhysicalExpert (p : Int) : Int := p / c.numLocalGpuPhysicalExperts

def computeNodeIdOfPhysicalExpert (p : Int) : Int := p / c.numLocalNodePhysicalExperts

/-- `_find_nearest_expert`; -1 stands for no expert on the GPU or the node. -/
def findNearestExpert (candidates : List Int) (moeEpRank : Nat) : Int :=
  if candidates.length = 1 then candidates.head?.getD (-1)
  else match candidates.find? fun p => c.computeGpuIdOfPhysicalExpert p = moeEpRank with
    | some p => p
    | none => (candidates.find? fun p => c.computeNodeIdOfPhysicalExpert p = (moeEpRank / c.numGpusPerNode : Nat)).getD (-1)

/-- The physical experts of a logical one, in their order. -/
def candidates (l : Nat) : List Int :=
  ((range c.physicalToLogical.length).filter fun p => c.physicalToLogical[p]? = some l).map Int.ofNat

variable (rank l : Nat)

/-- The entry of `_compute_logical_to_all_physical_map` on a rank, before the padding. -/
def nearestOrAll : List Int :=
  let nearest := c.findNearestExpert (c.candidates l) rank
  if nearest ≠ -1 then [nearest] else c.candidates l

def logicalToAllPhysicalMap : List Int :=
  c.nearestOrAll rank l ++ replicate (c.physicalToLogical.length - (c.nearestOrAll rank l).length) (-1)

def logicalToAllPhysicalMapNumValid : Nat := (c.logicalToAllPhysicalMap rank l).countP (· ≠ -1)

/-- `logical_to_all_physical`, what the weight loader of a rank asks for. -/
def logicalToAllPhysical : List Int := (c.logicalToAllPhysicalMap rank l).filter (· ≠ -1)

end Placement

/-- `_fair_choices`: every item as often as it goes, and a sample of the rest, shuffled. -/
def FairChoices (arr : List Int) (k : Nat) (ans : List Int) : Prop :=
  ∃ sample : List Int, sample.length = k % arr.length ∧ sample.Subperm arr ∧
    ans.Perm ((replicate (k / arr.length) arr).flatten ++ sample)

/-- `output_partial[output_partial == -1] = ans`. -/
def fill : List Int → List Int → List Int
  | [], _ => []
  | x :: row, [] => x :: row
  | x :: row, a :: ans => if x = -1 then a :: fill row ans else x :: fill row (a :: ans)

inductive Algorithm where
  | static
  | dynamic

namespace Placement

variable (c : Placement)

/-- The nearest experts of all ranks, in `compute_logical_to_rank_dispatch_physical_map` on a rank. -/
def nearestRow (rank l : Nat) : List Int := (range c.epSize).map (c.findNearestExpert (c.logicalToAllPhysical rank l))

/-- A rank may send tokens for the logical expert to the physical one, with some outcome of the random numbers. -/
def Dispatches (rank l : Nat) (p : Int) : Algorithm → Prop
  | .static => ∃ ans, FairChoices (c.logicalToAllPhysical rank l) ((c.nearestRow rank l).count (-1)) ans ∧
      (fill (c.nearestRow rank l) ans)[rank]? = some p
  | .dynamic => ∃ draw < 65536, (c.logicalToAllPhysicalMap rank l)[draw % c.logicalToAllPhysicalMapNumValid rank l]? = some p

/-- The rank that owns a physical expert. -/
def owner (p : Nat) : Nat := p / c.numLocalGpuPhysicalExperts

/-- A replica on every node, or no two replicas on one GPU. -/
def Spread : Prop := ∀ l < c.numLogicalExperts,
  (∀ node < c.nnodes, ∃ p ∈ c.candidates l, c.computeNodeIdOfPhysicalExpert p = node) ∨
  ∀ p ∈ c.candidates l, ∀ q ∈ c.candidates l, c.computeGpuIdOfPhysicalExpert p = c.computeGpuIdOfPhysicalExpert q → p = q

/-! ## Candidates and nearest experts -/

variable {c} {rank l : Nat} {p : Int}

theorem mem_candidates : p ∈ c.candidates l ↔ ∃ n : Nat, p = n ∧ c.physicalToLogical[n]? = some l := by
  unfold candidates
  simp only [mem_map, mem_filter, mem_range, decide_eq_true_eq]
  constructor
  · intro h
    obtain ⟨n, ⟨-, hn⟩, rfl⟩ := h
    exact ⟨n, rfl, hn⟩
  · intro h
    obtain ⟨n, rfl, hn⟩ := h
    exact ⟨n, ⟨(List.getElem?_eq_some_iff.mp hn).1, hn⟩, rfl⟩

theorem ne_neg_of_mem (h : p ∈ c.candidates l) : p ≠ -1 := by
  obtain ⟨n, rfl, -⟩ := mem_candidates.mp h
  omega

theorem candidates_ne_nil (h : l < c.numLogicalExperts) : c.candidates l ≠ [] := by
  obtain ⟨n, hn⟩ := mem_iff_getElem?.mp (c.occurs l h)
  exact ne_nil_of_mem (mem_candidates.mpr ⟨n, rfl, hn⟩)

/-- What the nearest expert is: the only candidate, the first on the GPU, the first on the node. -/
theorem findNearestExpert_cases (ps : List Int) (rank : Nat) : (∃ p, ps = [p] ∧ c.findNearestExpert ps rank = p) ∨
    (ps.length ≠ 1 ∧ ∃ p, (ps.find? fun p => c.computeGpuIdOfPhysicalExpert p = rank) = some p ∧
    c.findNearestExpert ps rank = p) ∨
    (ps.length ≠ 1 ∧ (ps.find? fun p => c.computeGpuIdOfPhysicalExpert p = rank) = none ∧
      ∃ p, (ps.find? fun p => c.computeNodeIdOfPhysicalExpert p = (rank / c.numGpusPerNode : Nat)) = some p ∧
        c.findNearestExpert ps rank = p) ∨ (ps.length ≠ 1 ∧ (∀ p ∈ ps, c.computeGpuIdOfPhysicalExpert p ≠ rank) ∧
      (∀ p ∈ ps, c.computeNodeIdOfPhysicalExpert p ≠ (rank / c.numGpusPerNode : Nat)) ∧ c.findNearestExpert ps rank = -1) := by
  unfold findNearestExpert
  by_cases hone : ps.length = 1
  · obtain ⟨p, rfl⟩ := length_eq_one_iff.mp hone
    exact .inl ⟨p, rfl, rfl⟩
  rw [if_neg hone]
  refine .inr ?_
  cases hgpu : ps.find? fun p => c.computeGpuIdOfPhysicalExpert p = rank with
  | some p => exact .inl ⟨hone, p, rfl, rfl⟩
  | none =>
    refine .inr ?_
    cases hnode : ps.find? fun p => c.computeNodeIdOfPhysicalExpert p = (rank / c.numGpusPerNode : Nat) with
    | some p => exact .inl ⟨hone, rfl, p, rfl, rfl⟩
    | none => exact .inr ⟨hone, by simpa using hgpu, by simpa using hnode, rfl⟩

theorem filter_pad {l : List Int} (h : ∀ p ∈ l, p ≠ -1) (k : Nat) : (l ++ replicate k (-1)).filter (· ≠ -1) = l := by
  rw [filter_append, filter_eq_self.mpr (by simpa using h), filter_eq_nil_iff.mpr, append_nil]
  intro p hp
  rw [(mem_replicate.mp hp).2]
  simp

theorem nearest_mem (h : c.findNearestExpert (c.candidates l) rank ≠ -1) :
    c.findNearestExpert (c.candidates l) rank ∈ c.candidates l := by
  rcases findNearestExpert_cases (c := c) (c.candidates l) rank with
    ⟨p, hc, hp⟩ | ⟨-, p, hf, hp⟩ | ⟨-, -, p, hf, hp⟩ | ⟨-, -, -, hp⟩
  · rw [hp, hc]
    exact mem_singleton_self p
  · rw [hp]
    exact mem_of_find?_eq_some hf
  · rw [hp]
    exact mem_of_find?_eq_some hf
  · exact absurd hp h

theorem nearestOrAll_subset (h : p ∈ c.nearestOrAll rank l) : p ∈ c.candidates l := by
  unfold nearestOrAll at h
  dsimp only at h
  split at h
  · rename_i hne
    rw [mem_singleton.mp h]
    exact nearest_mem hne
  · exact h

theorem logicalToAllPhysical_eq (rank l : Nat) : c.logicalToAllPhysical rank l = c.nearestOrAll rank l :=
  filter_pad (fun _ hp => ne_neg_of_mem (nearestOrAll_subset hp)) _

theorem nearestOrAll_single (h : c.findNearestExpert (c.candidates l) rank = x) (hx : x ≠ -1) : c.nearestOrAll rank l = [x] := by
  unfold nearestOrAll
  rw [h, if_pos hx]

/-! ## GPUs and nodes -/

theorem numGpusPerNode_pos : 0 < c.numGpusPerNode := by
  have hep : 0 < c.epSize := by
    refine pos_of_ne_zero fun h => ?_
    have hpos := c.local_pos
    rw [h, Nat.div_zero] at hpos
    omega
  exact div_pos (le_of_dvd hep c.nnodes_dvd) c.nnodes_pos

theorem gpu_natCast (n : Nat) : c.computeGpuIdOfPhysicalExpert n = (c.owner n : Nat) := (Int.natCast_ediv n _).symm

theorem node_natCast (n : Nat) : c.computeNodeIdOfPhysicalExpert n = (c.owner n / c.numGpusPerNode : Nat) := by
  unfold computeNodeIdOfPhysicalExpert owner numLocalNodePhysicalExperts
  rw [Nat.div_div_eq_div_mul]
  exact (Int.natCast_ediv n _).symm

/-- The owner of a replica has reduced the list to the first replica on its GPU. -/
theorem owner_nearest (hn : (n : Int) ∈ c.candidates l) (hone : (c.candidates l).length ≠ 1) :
    ∃ q ∈ c.candidates l, ((c.candidates l).find? fun p => c.computeGpuIdOfPhysicalExpert p = (c.owner n : Nat)) = some q ∧
      c.computeGpuIdOfPhysicalExpert q = c.computeGpuIdOfPhysicalExpert n ∧ c.nearestOrAll (c.owner n) l = [q] := by
  rcases findNearestExpert_cases (c := c) (c.candidates l) (c.owner n) with
    ⟨p, hc, -⟩ | ⟨-, q, hf, hq⟩ | ⟨-, hnone, -⟩ | ⟨-, hnone, -⟩
  · rw [hc] at hone
    exact absurd rfl hone
  · have hmem := mem_of_find?_eq_some hf
    have hgpu : c.computeGpuIdOfPhysicalExpert q = (c.owner n : Nat) := by simpa using find?_some hf
    exact ⟨q, hmem, hf, hgpu.trans (gpu_natCast n).symm, nearestOrAll_single hq (ne_neg_of_mem hmem)⟩
  · have hno := find?_eq_none.mp hnone n hn
    exact absurd (decide_eq_true (gpu_natCast n)) hno
  · exact absurd (gpu_natCast n) (hnone n hn)

theorem find_of_imp {α : Type*} {P Q : α → Bool} {xs : List α} {x : α} (h : xs.find? P = some x) (himp : ∀ y ∈ xs, Q y → P y)
    (hx : Q x) : xs.find? Q = some x := by
  obtain ⟨-, as, bs, hxs, has⟩ := find?_eq_some_iff_append.mp h
  refine find?_eq_some_iff_append.mpr ⟨hx, as, bs, hxs, fun a ha => ?_⟩
  have hP := has a ha
  by_contra hQ
  rw [himp a (by rw [hxs]; exact mem_append_left _ ha) (by simpa using hQ)] at hP
  cases hP

/-- What a rank keeps is loaded by its owner, where the expert is spread. -/
theorem kept_is_loaded (hspread : c.Spread) (hr : rank < c.epSize) (hl : l < c.numLogicalExperts)
    (h : (n : Int) ∈ c.nearestOrAll rank l) : (n : Int) ∈ c.nearestOrAll (c.owner n) l := by
  have hn := nearestOrAll_subset h
  rcases findNearestExpert_cases (c := c) (c.candidates l) rank with
    ⟨p, hc, -⟩ | ⟨hone, p, hf, hp⟩ | ⟨hone, -, p, hf, hp⟩ | ⟨hone, -, hnode, hp⟩
  · -- the only candidate is the nearest one of every rank
    have heq : (n : Int) = p := by simpa [hc] using hn
    have hnear : c.findNearestExpert (c.candidates l) (c.owner n) = n := by rw [hc, heq]; rfl
    rw [nearestOrAll_single hnear (ne_neg_of_mem hn)]
    exact mem_singleton_self _
  · -- the rank is the owner
    have hmem := mem_of_find?_eq_some hf
    rw [nearestOrAll_single hp (ne_neg_of_mem hmem), mem_singleton] at h
    subst h
    have hgpu : c.computeGpuIdOfPhysicalExpert n = rank := by simpa using find?_some hf
    rw [gpu_natCast, Int.natCast_inj] at hgpu
    rw [hgpu, nearestOrAll_single hp (ne_neg_of_mem hmem)]
    exact mem_singleton_self _
  · -- the first on the node is the first on its GPU
    have hmem := mem_of_find?_eq_some hf
    rw [nearestOrAll_single hp (ne_neg_of_mem hmem), mem_singleton] at h
    subst h
    have hsame : c.computeNodeIdOfPhysicalExpert n = (rank / c.numGpusPerNode : Nat) := by simpa using find?_some hf
    obtain ⟨q, -, hfirst, -, hkept⟩ := owner_nearest hn hone
    have hnfirst := find_of_imp (Q := fun p => c.computeGpuIdOfPhysicalExpert p = (c.owner n : Nat)) hf
      (fun y hy hgpu => ?_) (decide_eq_true (gpu_natCast n))
    · rw [hkept, ← Option.some.inj (hnfirst.symm.trans hfirst)]
      exact mem_singleton_self _
    · obtain ⟨m, rfl, -⟩ := mem_candidates.mp hy
      have hown : c.owner m = c.owner n := by simpa only [gpu_natCast, Int.natCast_inj, decide_eq_true_eq] using hgpu
      simpa only [node_natCast, hown, decide_eq_true_eq] using hsame
  · -- no replica on the node of the rank, so no two on one GPU
    have hlt : rank / c.numGpusPerNode < c.nnodes := by
      rw [div_lt_iff_lt_mul numGpusPerNode_pos]
      unfold numGpusPerNode
      rw [Nat.mul_div_cancel' c.nnodes_dvd]
      exact hr
    rcases hspread l hl with hall | hinj
    · obtain ⟨q, hq, hqn⟩ := hall _ hlt
      exact absurd hqn (hnode q hq)
    obtain ⟨q, hq, -, hgpu, hkept⟩ := owner_nearest hn hone
    rw [hkept, hinj q hq n hn hgpu]
    exact mem_singleton_self _

end Placement

/-! ## The fair choices -/

theorem fill_of_ne (hx : x ≠ -1) : ∀ (row ans : List Int) (k : Nat), row[k]? = some x → (fill row ans)[k]? = some x
  | x :: row, [], k, h => by simpa only [fill] using h
  | y :: row, a :: ans, 0, h => by
    obtain rfl : y = x := by simpa using h
    simp [fill, hx]
  | y :: row, a :: ans, k + 1, h => by
    unfold fill
    split
    · exact fill_of_ne hx row ans k h
    · exact fill_of_ne hx row (a :: ans) k h

theorem fill_of_eq : ∀ (row ans : List Int) (k : Nat), row[k]? = some (-1) → (row.take k).count (-1) < ans.length →
    (fill row ans)[k]? = ans[(row.take k).count (-1)]?
  | _ :: _, [], k, _, hlt => by simp at hlt
  | y :: row, a :: ans, 0, h, _ => by
    obtain rfl : y = -1 := by simpa using h
    simp [fill]
  | y :: row, a :: ans, k + 1, h, hlt => by
    rw [take_succ_cons, count_cons] at hlt ⊢
    unfold fill
    by_cases hy : y = -1
    · simp only [hy, beq_self_eq_true, if_true, length_cons, getElem?_cons_succ] at hlt ⊢
      exact fill_of_eq row ans k h (by omega)
    have hbeq : (y == -1) = false := by simpa using hy
    simp only [hy, hbeq, if_false, Bool.false_eq_true, add_zero, getElem?_cons_succ] at hlt ⊢
    exact fill_of_eq row (a :: ans) k h hlt

namespace FairChoices

variable {arr ans : List Int} {k : Nat}

theorem subset (h : FairChoices arr k ans) (hx : x ∈ ans) : x ∈ arr := by
  obtain ⟨sample, -, hsub, hperm⟩ := h
  rcases mem_append.mp (hperm.mem_iff.mp hx) with hx | hx
  · obtain ⟨xs, hxs, hx⟩ := mem_flatten.mp hx
    rwa [(mem_replicate.mp hxs).2] at hx
  · exact hsub.subset hx

theorem length (h : FairChoices arr k ans) : ans.length = k := by
  obtain ⟨sample, hlen, -, hperm⟩ := h
  rw [hperm.length_eq, length_append, length_flatten, map_replicate, sum_replicate_nat, hlen]
  exact div_add_mod' k arr.length

/-- Every candidate may come out at every place. -/
theorem exists_at (hx : x ∈ arr) {j : Nat} (hj : j < k) : ∃ ans, FairChoices arr k ans ∧ ans[j]? = some x := by
  have hpos := length_pos_of_mem hx
  have hmod := mod_lt k hpos
  have herase := length_erase_of_mem hx
  -- a sample that has the candidate, if it has anything
  let sample := (x :: arr.erase x).take (k % arr.length)
  have hsample : sample.length = k % arr.length := by
    rw [length_take, length_cons, herase]
    omega
  have hsub : sample.Subperm arr := (take_sublist _ _).subperm.trans (perm_cons_erase hx).symm.subperm
  let all := (replicate (k / arr.length) arr).flatten ++ sample
  have hmem : x ∈ all := by
    by_cases hlt : k < arr.length
    · refine mem_append_right _ ?_
      obtain ⟨m, hm⟩ : ∃ m, k = m + 1 := ⟨k - 1, by omega⟩
      have hmod' : k % arr.length = m + 1 := (mod_eq_of_lt hlt).trans hm
      simp [sample, hmod', take_succ_cons]
    · have hdiv : k / arr.length ≠ 0 := (Nat.div_pos (by omega) hpos).ne'
      exact mem_append_left _ (mem_flatten.mpr ⟨arr, mem_replicate.mpr ⟨hdiv, rfl⟩, hx⟩)
  have hfair : FairChoices arr k all := ⟨sample, hsample, hsub, List.Perm.refl _⟩
  have hlen : (all.erase x).length = k - 1 := by rw [length_erase_of_mem hmem, hfair.length]
  refine ⟨(all.erase x).insertIdx j x, ⟨sample, hsample, hsub, ?_⟩, ?_⟩
  · exact (perm_insertIdx x _ (by omega)).trans (perm_cons_erase hmem).symm
  · rw [getElem?_insertIdx_self, if_pos (by omega)]

end FairChoices

namespace Placement

variable {c : Placement} {rank l : Nat} {p : Int}

/-! ## What a rank sends to -/

theorem nearestRow_getElem? (hr : rank < c.epSize) :
    (c.nearestRow rank l)[rank]? = some (c.findNearestExpert (c.nearestOrAll rank l) rank) := by
  unfold nearestRow
  rw [getElem?_map, getElem?_range hr, logicalToAllPhysical_eq]
  rfl

/-- A place of the row that is still -1 is filled from the fair choices. -/
theorem nearestRow_count (h : (c.nearestRow rank l)[rank]? = some (-1)) :
    ((c.nearestRow rank l).take rank).count (-1) < (c.nearestRow rank l).count (-1) := by
  have hlt := (List.getElem?_eq_some_iff.mp h).1
  conv_rhs => rw [← take_append_drop rank (c.nearestRow rank l), count_append,
    drop_eq_getElem_cons hlt, (List.getElem?_eq_some_iff.mp h).2, count_cons_self]
  omega

theorem nearest_kept (h : c.findNearestExpert (c.nearestOrAll rank l) rank ≠ -1) :
    c.findNearestExpert (c.nearestOrAll rank l) rank ∈ c.nearestOrAll rank l := by
  unfold nearestOrAll at h ⊢
  dsimp only at h ⊢
  split at h
  · rename_i hne
    rw [if_pos hne]
    exact mem_singleton_self _
  · rename_i hne
    exact absurd h hne

theorem Dispatches.kept (hr : rank < c.epSize) (hl : l < c.numLogicalExperts) {alg : Algorithm} (h : c.Dispatches rank l p alg) :
    p ∈ c.nearestOrAll rank l := by
  cases alg with
  | static =>
    obtain ⟨ans, hfair, hp⟩ := h
    by_cases hnear : c.findNearestExpert (c.nearestOrAll rank l) rank = -1
    · have hrow := nearestRow_getElem? (l := l) hr
      rw [hnear] at hrow
      have hcount := nearestRow_count hrow
      rw [fill_of_eq _ _ _ hrow (by rw [hfair.length]; exact hcount)] at hp
      rw [← logicalToAllPhysical_eq]
      exact hfair.subset (mem_of_getElem? hp)
    · rw [fill_of_ne hnear _ _ _ (nearestRow_getElem? hr)] at hp
      rw [← Option.some.inj hp]
      exact nearest_kept hnear
  | dynamic =>
    obtain ⟨draw, -, hp⟩ := h
    have hvalid : c.logicalToAllPhysicalMapNumValid rank l = (c.nearestOrAll rank l).length := by
      rw [← logicalToAllPhysical_eq]
      exact countP_eq_length_filter
    have hne : c.nearestOrAll rank l ≠ [] := by
      unfold nearestOrAll
      dsimp only
      split
      · exact cons_ne_nil _ _
      · exact candidates_ne_nil hl
    rw [hvalid] at hp
    unfold logicalToAllPhysicalMap at hp
    rw [getElem?_append_left (mod_lt _ (length_pos_iff.mpr hne))] at hp
    exact mem_of_getElem? hp

/-- Every replica that a rank may send to is of the expert, and the owner's weight loader has filled it. -/
def Loaded (c : Placement) : Prop := ∀ (alg : Algorithm) (rank l : Nat) (p : Int), rank < c.epSize → l < c.numLogicalExperts →
  c.Dispatches rank l p alg → ∃ n : Nat, p = n ∧ c.physicalToLogical[n]? = some l ∧ p ∈ c.logicalToAllPhysical (c.owner n) l

theorem Spread.loaded (h : c.Spread) : c.Loaded := by
  intro alg rank l p hr hl hd
  have hkept := hd.kept hr hl
  obtain ⟨n, rfl, hn⟩ := mem_candidates.mp (nearestOrAll_subset hkept)
  refine ⟨n, rfl, hn, ?_⟩
  rw [logicalToAllPhysical_eq]
  exact kept_is_loaded h hr hl hkept

/-- With all replicas kept, the static algorithm may choose each of them. -/
theorem dispatches_candidate (hr : rank < c.epSize) (h : c.findNearestExpert (c.candidates l) rank = -1)
    (hp : p ∈ c.candidates l) :
    c.Dispatches rank l p .static := by
  have hall : c.nearestOrAll rank l = c.candidates l := by
    unfold nearestOrAll
    rw [h, if_neg (by simp)]
  have hrow := nearestRow_getElem? (l := l) hr
  rw [hall, h] at hrow
  obtain ⟨ans, hfair, hans⟩ := FairChoices.exists_at
    (show p ∈ c.logicalToAllPhysical rank l by rwa [logicalToAllPhysical_eq, hall])
    (nearestRow_count hrow)
  refine ⟨ans, hfair, ?_⟩
  rw [fill_of_eq _ _ _ hrow (by rw [hfair.length]; exact nearestRow_count hrow)]
  exact hans

theorem Loaded.spread (h : c.Loaded) : c.Spread := by
  intro l hl
  by_contra hcon
  obtain ⟨hnode, hgpu⟩ := not_or.mp hcon
  push Not at hnode hgpu
  obtain ⟨node, hlt, hfar⟩ := hnode
  obtain ⟨p, hp, q, hq, hsame, hne⟩ := hgpu
  obtain ⟨n, rfl, -⟩ := mem_candidates.mp hp
  obtain ⟨m, rfl, -⟩ := mem_candidates.mp hq
  -- the first rank of the node without a replica keeps all of them
  have hdiv : node * c.numGpusPerNode / c.numGpusPerNode = node := Nat.mul_div_cancel _ numGpusPerNode_pos
  have hrank : node * c.numGpusPerNode < c.epSize := by
    have hep : c.nnodes * c.numGpusPerNode = c.epSize := Nat.mul_div_cancel' c.nnodes_dvd
    rw [← hep]
    exact Nat.mul_lt_mul_of_pos_right hlt numGpusPerNode_pos
  have hnone : c.findNearestExpert (c.candidates l) (node * c.numGpusPerNode) = -1 := by
    rcases findNearestExpert_cases (c := c) (c.candidates l) (node * c.numGpusPerNode) with
      ⟨x, hc, -⟩ | ⟨-, x, hf, -⟩ | ⟨-, -, x, hf, -⟩ | ⟨-, -, -, hx⟩
    · rw [hc, mem_singleton] at hp hq
      exact absurd (hp.trans hq.symm) hne
    · have hx := mem_of_find?_eq_some hf
      obtain ⟨k, rfl, -⟩ := mem_candidates.mp hx
      have hown : c.owner k = node * c.numGpusPerNode := by
        simpa only [gpu_natCast, Int.natCast_inj, decide_eq_true_eq] using find?_some hf
      refine absurd ?_ (hfar k hx)
      rw [node_natCast, hown, hdiv]
    · refine absurd ?_ (hfar x (mem_of_find?_eq_some hf))
      simpa only [hdiv, decide_eq_true_eq] using find?_some hf
    · exact hx
  have hone : (c.candidates l).length ≠ 1 := by
    intro hlen
    obtain ⟨x, hx⟩ := length_eq_one_iff.mp hlen
    rw [hx, mem_singleton] at hp hq
    exact hne (hp.trans hq.symm)
  -- both are sent to, and the owner of both has kept one
  have hown : c.owner m = c.owner n := by simpa only [gpu_natCast, Int.natCast_inj] using hsame.symm
  obtain ⟨x, -, -, -, hkept⟩ := owner_nearest hp hone
  obtain ⟨n', hn', -, hnl⟩ := h .static _ l n hrank hl (dispatches_candidate hrank hnone hp)
  obtain ⟨m', hm', -, hml⟩ := h .static _ l m hrank hl (dispatches_candidate hrank hnone hq)
  obtain rfl := Int.natCast_inj.mp hn'
  obtain rfl := Int.natCast_inj.mp hm'
  rw [logicalToAllPhysical_eq, hkept, mem_singleton] at hnl
  rw [logicalToAllPhysical_eq, hown, hkept, mem_singleton] at hml
  exact hne (hnl.trans hml.symm)

/-- Every replica that a rank may send to is loaded exactly if the experts are spread. -/
theorem dispatch_loaded_iff (c : Placement) : c.Loaded ↔ c.Spread := ⟨Loaded.spread, Spread.loaded⟩

/-- Two ranks on two nodes: expert 0 twice on the first, expert 1 twice on the second. -/
def twice : Placement where
  epSize := 2
  nnodes := 2
  numLogicalExperts := 2
  physicalToLogical := [0, 0, 1, 1]
  nnodes_pos := by decide
  local_pos := by decide
  nnodes_dvd := by decide
  epSize_dvd := by decide
  below := by decide
  occurs := by decide

/-- Rank 1 may send tokens of expert 0 to its second replica, which rank 0 has not loaded. -/
theorem second_replica_not_loaded : twice.Dispatches 1 0 1 .dynamic ∧ twice.owner 1 = 0 ∧ twice.logicalToAllPhysical 0 0 = [0] :=
  ⟨⟨1, by decide, by decide⟩, by decide, by decide⟩

end Placement

end DynaSpec.Eplb.ExpertLocation
