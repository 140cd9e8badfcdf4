/-
  DynaSpec.Eplb.ElasticityAware — rebalancing the experts over the ranks that are left
  (python/sglang/srt/eplb/eplb_algorithms/elasticity_aware.py).

  A tensor is a function of its indices. How `rebalance_experts_hierarchical` spreads the replicas
  is a parameter; `Numbered` is what it promises. `replicate_experts`, one of its steps, keeps the highest
  load as low as it can be (`replicateExperts_optimal`). An inactive rank is spliced into one map as a slice of
  zeros and shifts the slots of the other. Beside the slices goes a list that says which of them are
  of active ranks: each splice keeps the maps inverse on those slots (`Inverse.insertRank`), and in
  the end the list is that of the active ranks (`Inverse.insertInactive`, `rebalanceExperts_inverse`).
-/

import DynaSpec.Lib.Scatter
import Mathlib

namespace DynaSpec.Eplb.ElasticityAware

open DynaSpec.Lib List Nat

/-- What `rebalance_experts_hierarchical` returns for a layer. -/
structure Balanced where
  phy2log : Nat → Nat
  phyrank : Nat → Nat
  logcnt : Nat → Nat

/-- A layer in the loop over the ranks; a slice has the slots of one rank. -/
structure Layer where
  phy2logSlices : List (Nat → Nat)
  log2phy : Nat → Int

def shift (bound numLocalExperts : Nat) (p : Int) : Int := if bound ≤ p then p + numLocalExperts else p

/-- The list has the slices of the ranks below `idx`, so that the index is not past its end. -/
def insertRank (numLocalExperts idx : Nat) (t : Layer) : Layer where
  phy2logSlices := t.phy2logSlices.insertIdx idx fun _ => 0
  log2phy e := shift (idx * numLocalExperts) numLocalExperts (t.log2phy e)

def insertInactive (numLocalExperts : Nat) : Nat → List Bool → Layer → Layer
  | _, [], t => t
  | idx, active :: rest, t =>
    insertInactive numLocalExperts (idx + 1) rest (if active then t else insertRank numLocalExperts idx t)

/-- The slices of all ranks, one after the other. -/
def stack (numLocalExperts : Nat) (slices : List (Nat → Nat)) (p : Nat) : Nat :=
  (slices.getD (p / numLocalExperts) fun _ => 0) (p % numLocalExperts)

/-- The arguments, with `num_gpus` the number of flags and `hierarchical` what the weights are balanced by. -/
structure Args where
  hierarchical : (numReplicas numGroups numNodes numGpus : Nat) → (layer : Nat) → Balanced
  numLayers : Nat
  numLogicalExperts : Nat
  numReplicas : Nat
  numGroups : Nat
  numNodes : Nat
  enableHierarchical : Bool
  activeRanks : List Bool

namespace Args

variable (x : Args)

def numGpus : Nat := x.activeRanks.length

def numActiveRanks : Nat := x.activeRanks.count true

def numLocalExperts : Nat := x.numReplicas / x.numGpus

def balance : Nat → Balanced :=
  if x.numActiveRanks < x.numGpus then x.hierarchical (x.numLocalExperts * x.numActiveRanks) 1 1 x.numActiveRanks
  else if x.enableHierarchical then x.hierarchical x.numReplicas x.numGroups x.numNodes x.numGpus
  else x.hierarchical x.numReplicas 1 1 x.numGpus

/-- `logcnt.max()`. -/
def maxlogcnt : Nat := (Finset.range x.numLayers).sup fun layer => (Finset.range x.numLogicalExperts).sup (x.balance layer).logcnt

/-- The maps `phy2log` and `log2phy` of a layer, the second one flat with `maxlogcnt` entries for each expert. -/
def rebalanceExperts (layer : Nat) : (Nat → Nat) × (Nat → Int) :=
  let b := x.balance layer
  let log2phy := scatter (fun _ => -1) ((List.range (x.numLocalExperts * x.numActiveRanks)).map fun p =>
    (b.phy2log p * x.maxlogcnt + b.phyrank p, (p : Int)))
  if x.numActiveRanks < x.numGpus then
    let slices := (List.range x.numActiveRanks).map fun rank slot => b.phy2log (rank * x.numLocalExperts + slot)
    let t := insertInactive x.numLocalExperts 0 x.activeRanks ⟨slices, log2phy⟩
    (stack x.numLocalExperts t.phy2logSlices, t.log2phy)
  else (b.phy2log, log2phy)

end Args

/-- The replicas of each expert are numbered from zero. -/
structure Numbered (numPhysical numLogical : Nat) (b : Balanced) : Prop where
  below : ∀ p < numPhysical, b.phy2log p < numLogical ∧ b.phyrank p < b.logcnt (b.phy2log p)
  onto : ∀ l < numLogical, ∀ k < b.logcnt l, ∃ p < numPhysical, b.phy2log p = l ∧ b.phyrank p = k
  inj : ∀ p < numPhysical, ∀ q < numPhysical, b.phy2log p = b.phy2log q → b.phyrank p = b.phyrank q → p = q

def ActiveSlot (numLocal : Nat) (active : List Bool) (p : Nat) : Prop := 0 < numLocal ∧ active.getD (p / numLocal) false = true

/-- The maps are inverse to each other on the slots of the active ranks. -/
structure Inverse (numLocal numLogical width : Nat) (logcnt : Nat → Nat) (active : List Bool) (phy2log : Nat → Nat)
    (log2phy : Nat → Int) : Prop where
  slot : ∀ l < numLogical, ∀ k < logcnt l, ∃ p : Nat, log2phy (l * width + k) = p ∧ ActiveSlot numLocal active p ∧ phy2log p = l
  padded : ∀ l < numLogical, ∀ k < width, logcnt l ≤ k → log2phy (l * width + k) = -1
  once : ∀ p, ActiveSlot numLocal active p → ∃! e : Nat × Nat, e.1 < numLogical ∧ e.2 < width ∧ log2phy (e.1 * width + e.2) = p

/-! ## One rank -/

section
variable {n idx p : Nat}

theorem getD_insertIdx {α : Type} (l : List α) (a d : α) (i : Nat) :
    (l.insertIdx idx a).getD (if idx ≤ i then i + 1 else i) d = l.getD i d := by
  simp only [getD_eq_getElem?_getD, getElem?_insertIdx]
  grind

/-- The slot that a slot becomes. -/
theorem shift_slot (hn : 0 < n) (idx p : Nat) : ∃ q : Nat, shift (idx * n) n p = q ∧ q % n = p % n ∧
    q / n = if idx ≤ p / n then p / n + 1 else p / n := by
  simp only [shift, Int.ofNat_le, ← le_div_iff_mul_le hn]
  split
  · exact ⟨p + n, rfl, add_mod_right p n, add_div_right p hn⟩
  · exact ⟨p, rfl, rfl, rfl⟩

theorem shift_inj {b : Nat} {v w : Int} (h : shift b n v = shift b n w) : v = w := by
  unfold shift at h
  split at h <;> split at h <;> omega

variable {numLogical width : Nat} {logcnt : Nat → Nat} {active : List Bool} {t : Layer}

theorem Inverse.insertRank (idx : Nat)
    (h : Inverse n numLogical width logcnt active (stack n t.phy2logSlices) t.log2phy) :
    Inverse n numLogical width logcnt (active.insertIdx idx false) (stack n (insertRank n idx t).phy2logSlices)
    (insertRank n idx t).log2phy := by
  refine ⟨fun l hl k hk => ?_, fun l hl k hk hle => ?_, fun q hq => ?_⟩
  · obtain ⟨p, hp, ⟨hn, hactive⟩, hlog⟩ := h.slot l hl k hk
    obtain ⟨q, hq, hmod, hdiv⟩ := shift_slot hn idx p
    refine ⟨q, by rw [← hq, ← hp]; rfl, ⟨hn, by rw [hdiv, getD_insertIdx, hactive]⟩, ?_⟩
    rw [← hlog, stack, hmod, hdiv, ElasticityAware.insertRank, getD_insertIdx]
    rfl
  · show shift (idx * n) n (t.log2phy _) = -1
    rw [h.padded l hl k hk hle]
    exact if_neg (by omega)
  -- a slot of an active rank is not one of the new slice
  obtain ⟨hn, hactive⟩ := hq
  obtain ⟨p, hp⟩ : ∃ p : Nat, shift (idx * n) n p = q := by
    rcases lt_trichotomy (q / n) idx with hlt | heq | hgt
    · exact ⟨q, if_neg (by have := (div_lt_iff_lt_mul hn).mp hlt; omega)⟩
    · rw [heq, getD_eq_getElem?_getD, getElem?_insertIdx_self] at hactive
      split at hactive <;> cases hactive
    · have := (le_div_iff_mul_le hn).mp hgt
      rw [succ_mul] at this
      exact ⟨q - n, by rw [shift, if_pos (by omega)]; omega⟩
  obtain ⟨q', hq', -, hdiv⟩ := shift_slot hn idx p
  obtain rfl : q = q' := by exact_mod_cast hp.symm.trans hq'
  rw [hdiv, getD_insertIdx] at hactive
  obtain ⟨e, ⟨hl, hk, he⟩, huniq⟩ := h.once p ⟨hn, hactive⟩
  refine ⟨e, ⟨hl, hk, ?_⟩, fun e' he' => huniq e' ⟨he'.1, he'.2.1, shift_inj (he'.2.2.trans hp.symm)⟩⟩
  rw [← hp, ← he]
  rfl

/-! ## All ranks -/

theorem insertIdx_length_append {α : Type} (l m : List α) (a : α) : (l ++ m).insertIdx l.length a = l ++ a :: m := by
  induction l with
  | nil => rfl
  | cons b l ih => rw [cons_append, length_cons, insertIdx_succ_cons, ih, cons_append]

theorem Inverse.insertInactive {rest : List Bool}
    (h : Inverse n numLogical width logcnt (active ++ replicate (rest.count true) true) (stack n t.phy2logSlices) t.log2phy) :
    Inverse n numLogical width logcnt (active ++ rest) (stack n (insertInactive n active.length rest t).phy2logSlices)
      (insertInactive n active.length rest t).log2phy := by
  induction rest generalizing active t with
  | nil => exact h
  | cons a rest ih =>
    have hnext : active.length + 1 = (active ++ [a]).length := by simp
    rw [append_cons, ElasticityAware.insertInactive, hnext]
    cases a with
    | true =>
      rw [count_cons_self, replicate_succ, append_cons] at h
      exact ih h
    | false =>
      rw [count_cons_of_ne (by decide)] at h
      have h' := h.insertRank active.length
      rw [insertIdx_length_append, append_cons] at h'
      exact ih h'

theorem activeSlot_replicate {numActive : Nat} : ActiveSlot n (replicate numActive true) p ↔ p < n * numActive := by
  rcases n.eq_zero_or_pos with rfl | hn
  · simp [ActiveSlot]
  rw [mul_comm, ← div_lt_iff_lt_mul hn, ActiveSlot]
  by_cases h : p / n < numActive <;> simp [hn, h]

/-- The scattered map is the inverse of the one that was balanced. -/
theorem Numbered.inverse {numActive : Nat} {b : Balanced} (h : Numbered (n * numActive) numLogical b)
    (hwidth : ∀ l < numLogical, b.logcnt l ≤ width) : Inverse n numLogical width b.logcnt (replicate numActive true) b.phy2log
      (scatter (fun _ => -1) ((List.range (n * numActive)).map fun p => (b.phy2log p * width + b.phyrank p, (p : Int)))) := by
  have hrank : ∀ p < n * numActive, b.phyrank p < width := fun p hp =>
    lt_of_lt_of_le (h.below p hp).2 (hwidth _ (h.below p hp).1)
  set flat := scatter (fun _ => -1) ((List.range (n * numActive)).map fun p => (b.phy2log p * width + b.phyrank p, (p : Int)))
  have hat : ∀ p < n * numActive, flat (b.phy2log p * width + b.phyrank p) = p := fun p hp => by
    refine @scatter_range _ _ _ _ _ (fun p => b.phy2log p * width + b.phyrank p) _ (fun f hf g hg he => ?_) p hp
    obtain ⟨hl, hk⟩ := flat_inj (hrank f hf) (hrank g hg) (by exact_mod_cast he)
    exact h.inj f hf g hg hl hk
  have hnone : ∀ l < numLogical, ∀ k < width, b.logcnt l ≤ k → flat (l * width + k) = -1 := fun l _ k hk hle => by
    refine scatter_range_frame _ _ fun p hp he => ?_
    obtain ⟨rfl, rfl⟩ := flat_inj (hrank p hp) hk (by exact_mod_cast he)
    exact absurd (h.below p hp).2 (not_lt.mpr hle)
  refine ⟨fun l hl k hk => ?_, hnone, fun p hp => ?_⟩
  · obtain ⟨p, hp, rfl, rfl⟩ := h.onto l hl k hk
    exact ⟨p, hat p hp, activeSlot_replicate.mpr hp, rfl⟩
  have hp := activeSlot_replicate.mp hp
  refine ⟨(b.phy2log p, b.phyrank p), ⟨(h.below p hp).1, hrank p hp, hat p hp⟩, fun e ⟨hl, hk, he⟩ => ?_⟩
  rcases lt_or_ge e.2 (b.logcnt e.1) with hlt | hle
  · obtain ⟨q, hq, hlog, hqrank⟩ := h.onto e.1 hl e.2 hlt
    rw [← hlog, ← hqrank, hat q hq] at he
    obtain rfl := Int.ofNat.inj he
    exact Prod.ext hlog.symm hqrank.symm
  · have := (hnone e.1 hl e.2 hk hle).symm.trans he
    omega

end

theorem rebalanceExperts_inverse (x : Args) {layer : Nat} (hlayer : layer < x.numLayers)
    (h : Numbered (x.numLocalExperts * x.numActiveRanks) x.numLogicalExperts (x.balance layer)) :
    Inverse x.numLocalExperts x.numLogicalExperts x.maxlogcnt (x.balance layer).logcnt x.activeRanks (x.rebalanceExperts layer).1
      (x.rebalanceExperts layer).2 := by
  have hinv := h.inverse (Finset.sup_le_iff.mp ((Finset.range x.numLayers).le_sup (f := fun layer =>
    (Finset.range x.numLogicalExperts).sup (x.balance layer).logcnt) (Finset.mem_range.mpr hlayer)) · <| Finset.mem_range.mpr ·)
  unfold Args.rebalanceExperts
  dsimp only
  split
  · refine @Inverse.insertInactive _ _ _ _ [] _ _ ⟨fun l hl k hk => ?_, hinv.padded, hinv.once⟩
    obtain ⟨p, hp, hslot, hlog⟩ := hinv.slot l hl k hk
    refine ⟨p, hp, hslot, ?_⟩
    have hrank := (div_lt_iff_lt_mul hslot.1).mpr (mul_comm _ x.numActiveRanks ▸ activeSlot_replicate.mp hslot)
    rw [← hlog, stack, getD_eq_getElem?_getD, getElem?_map, getElem?_range hrank]
    exact congrArg (x.balance layer).phy2log (div_add_mod' p _)
  · rename_i hall
    have hcount := le_antisymm (not_lt.mp hall) count_le_length
    rwa [← eq_replicate_iff.mpr ⟨hcount, fun a ha => (count_eq_length.mp hcount.symm a ha).symm⟩] at hinv

/-- Three ranks of two slots without the one in the middle, and two replicas of the first of three experts. -/
def withoutMiddle : Args :=
  ⟨fun _ _ _ _ _ => ⟨(· % 3), (· / 3), fun l => if l = 0 then 2 else 1⟩, 1, 3, 6, 1, 1, false, [true, false, true]⟩

theorem rebalanceExperts_inverse_withoutMiddle : Inverse withoutMiddle.numLocalExperts 3 withoutMiddle.maxlogcnt
    (withoutMiddle.balance 0).logcnt [true, false, true] (withoutMiddle.rebalanceExperts 0).1
    (withoutMiddle.rebalanceExperts 0).2 :=
  rebalanceExperts_inverse withoutMiddle Nat.one_pos ⟨by decide, by decide, by decide⟩

/-! ## `replicate_experts` (eplb_algorithms/deepseek.py) -/

variable (argmax : (Nat → Rat) → Nat) (weight : Nat → Rat) (numLog : Nat)

/-- `max(dim=-1).indices`: one of the highest entries. -/
def IsArgmax : Prop := ∀ w, argmax w < numLog ∧ ∀ l < numLog, w l ≤ w (argmax w)

/-- The loop after `k` turns. -/
def replicas : Nat → Balanced
  | 0 => ⟨id, 0, 1⟩
  | k + 1 =>
    let b := replicas k
    let redundant := argmax fun l => weight l / b.logcnt l
    ⟨upd b.phy2log (numLog + k) redundant, upd b.phyrank (numLog + k) (b.logcnt redundant),
      upd b.logcnt redundant (b.logcnt redundant + 1)⟩

def replicateExperts (numPhy : Nat) : Option Balanced :=
  if numPhy < numLog then none else some (replicas argmax weight numLog (numPhy - numLog))

variable {argmax weight numLog}

theorem load_anti {w : Rat} {m n : Nat} (hw : 0 ≤ w) (hm : 0 < m) (hle : m ≤ n) : w / n ≤ w / m :=
  div_le_div_of_nonneg_left hw (by exact_mod_cast hm) (by exact_mod_cast hle)

section
variable (hmax : IsArgmax argmax numLog) (hw : ∀ l < numLog, 0 ≤ weight l)
include hmax hw

/-- Without its last replica an expert would have a load that is not lower than any. -/
theorem replicas_greedy (k : Nat) :
    let cnt := (replicas argmax weight numLog k).logcnt
    ∑ l ∈ Finset.range numLog, cnt l = numLog + k ∧ (∀ l, 0 < cnt l) ∧
      ∀ l < numLog, ∀ j < numLog, 1 < cnt l → weight j / cnt j ≤ weight l / (cnt l - 1 : Nat) := by
  induction k with
  | zero => simp [replicas]
  | succ k ih =>
    obtain ⟨hsum, hpos, hgreedy⟩ := ih
    set cnt := (replicas argmax weight numLog k).logcnt
    obtain ⟨hlt, hle⟩ := hmax fun l => weight l / cnt l
    set r := argmax fun l => weight l / cnt l
    have hcnt (l : Nat) : (replicas argmax weight numLog (k + 1)).logcnt l = cnt l + if l = r then 1 else 0 := by
      show upd cnt r (cnt r + 1) l = _
      unfold upd
      split <;> simp [*]
    simp only [hcnt]
    refine ⟨by simp [Finset.sum_add_distrib, hsum, hlt, Nat.add_assoc], fun l => by have := hpos l; omega, fun l hl j hj h1 => ?_⟩
    refine (load_anti (hw j hj) (hpos j) (Nat.le_add_right _ _)).trans ?_
    split at h1
    · subst l
      simpa using hle j hj
    · simpa [*] using hgreedy l hl j hj (by simpa using h1)

theorem replicateExperts_optimal {numPhy : Nat} {b : Balanced} {c : Nat → Nat} (hc : ∀ l < numLog, 0 < c l)
    (hsum : ∑ l ∈ Finset.range numLog, c l = numPhy) (hb : replicateExperts argmax weight numLog numPhy = some b)
    {load : Rat} (hload : ∀ l < numLog, weight l / c l ≤ load) :
    ∑ l ∈ Finset.range numLog, b.logcnt l = numPhy ∧ ∀ l < numLog, 0 < b.logcnt l ∧ weight l / b.logcnt l ≤ load := by
  unfold replicateExperts at hb
  split at hb
  · cases hb
  rename_i hnum
  cases hb
  obtain ⟨htotal, hpos, hgreedy⟩ := replicas_greedy hmax hw (numPhy - numLog)
  set cnt := (replicas argmax weight numLog (numPhy - numLog)).logcnt
  have hfewer {j n : Nat} (hj : j < numLog) (hle : c j ≤ n) : weight j / n ≤ load :=
    (load_anti (hw j hj) (hc j hj) hle).trans (hload j hj)
  refine ⟨by omega, fun l hl => ⟨hpos l, ?_⟩⟩
  by_contra hl'
  -- as many replicas in all, so an expert has more than in `c` if this one has fewer
  obtain ⟨j, hj, hlt⟩ : ∃ j < numLog, c j < cnt j := by
    by_contra! hall
    have := Finset.sum_lt_sum (fun j hj => hall j (Finset.mem_range.mp hj))
      ⟨l, Finset.mem_range.mpr hl, not_le.mp fun hle => hl' (hfewer hl hle)⟩
    omega
  have := hc j hj
  exact hl' ((hgreedy j hj l hl (by omega)).trans (hfewer hj (by omega)))

end

theorem replicateExperts_optimal_two :
    ∃ b, replicateExperts (fun w => if w 1 ≤ w 0 then 0 else 1) (3 - 2 * ·) 2 3 = some b ∧
      ∑ l ∈ Finset.range 2, b.logcnt l = 3 ∧
      ∀ l : Nat, l < 2 → 0 < b.logcnt l ∧ (3 - 2 * l : Rat) / b.logcnt l ≤ 3 / 2 := by
  refine ⟨_, rfl, replicateExperts_optimal (c := (2 - ·)) (fun w => ⟨by grind, fun l _ => ?_⟩)
    (by decide +kernel) (by decide) rfl rfl (by decide +kernel)⟩
  interval_cases l <;> grind

end DynaSpec.Eplb.ElasticityAware
