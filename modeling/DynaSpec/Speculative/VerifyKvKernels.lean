/-
  DynaSpec.Speculative.VerifyKvKernels — what the parts of `verify` compute.

  The finish checks leave the accepted path of each request up to the token it finishes
  on (`Kept`, `checkAccepted_kept`). Over slots that continue the rows (`Extends`): the
  row assignment (`assign_row`), the aligned mask (`align_mask`), the targets and the
  freed tail (`target_slots`, `toFree_slotsOf`), the copy of the accepted tokens
  (`moveKvCache_spec`) and the forward pass (`forward_spec`).
-/

import DynaSpec.Speculative.VerifyKvPages

namespace DynaSpec.Speculative.VerifyKv

open DynaSpec.Lib DynaSpec.MemCache List Nat

variable {K : Type} {i k j : Nat}

/-! ## The accepted tokens -/

/-- A path up to the token the request finishes on. -/
def truncated (finishes : Nat → Bool) : Nat → List Nat → List Nat
  | _, [] => []
  | j, t :: path => if finishes j then [t] else t :: truncated finishes (j + 1) path

def finishesOn (finishes : Nat → Bool) : Nat → List Nat → Bool
  | _, [] => false
  | j, _ :: path => finishes j || finishesOn finishes (j + 1) path

theorem truncated_isPrefix (finishes : Nat → Bool) (path : List Nat) : ∀ j, truncated finishes j path <+: path := by
  induction path with
  | nil => intro j; exact prefix_refl []
  | cons t path ih =>
    intro j
    rw [truncated]
    split
    · exact prefix_append [t] path
    · exact cons_prefix_cons.mpr ⟨rfl, ih (j + 1)⟩

theorem truncated_ne_nil (finishes : Nat → Bool) (j : Nat) {path : List Nat} (h : path ≠ []) :
    truncated finishes j path ≠ [] := by
  cases path with
  | nil => exact absurd rfl h
  | cons t path =>
    rw [truncated]
    split
    · exact cons_ne_nil _ _
    · exact cons_ne_nil _ _

theorem truncated_of_unfinished (finishes : Nat → Bool) (path : List Nat) :
    ∀ j, finishesOn finishes j path = false → truncated finishes j path = path := by
  induction path with
  | nil => intro j _; rfl
  | cons t path ih =>
    intro j h
    obtain ⟨h1, h2⟩ := Bool.or_eq_false_iff.mp h
    rw [truncated, h1, ih (j + 1) h2]
    rfl

/-- The finish checks leave the row of a path as the row of the truncated path. -/
theorem checkRow_spec (finishes : Nat → Bool) {c : Nat → Int} (hc : ∀ t, c t ≠ -1) (m : Nat) (path : List Nat) :
    ∀ j, ∃ m', checkRow finishes j (path.map c ++ replicate m (-1)) =
      ((truncated finishes j path).map c ++ replicate m' (-1), finishesOn finishes j path) := by
  induction path with
  | nil =>
    intro j
    refine ⟨m, ?_⟩
    cases m with
    | zero => rfl
    | succ m => simp [checkRow, replicate_succ, truncated, finishesOn]
  | cons t path ih =>
    intro j
    rw [map_cons, cons_append, checkRow, if_neg (hc t), truncated, finishesOn]
    by_cases hf : finishes j = true
    · refine ⟨path.length + m, ?_⟩
      rw [if_pos hf, if_pos hf, hf, map_const', length_append, length_map, length_replicate]
      rfl
    obtain ⟨m', hm'⟩ := ih (j + 1)
    refine ⟨m', ?_⟩
    rw [if_neg hf, if_neg hf, hm', Bool.eq_false_iff.mpr hf]
    rfl

/-- The kernel has accepted the tokens `path i` of request `i`: distinct draft tokens,
    the first ones in order when the draft is a chain. -/
structure Accepts (topk draftTokenNum bs : Nat) (acc : Accepted) (path : Nat → List Nat) : Prop where
  row : ∀ i < bs, ∃ m, acc.acceptIndex i = (path i).map (fun t => ((i * draftTokenNum + t : Nat) : Int)) ++ List.replicate m (-1)
  length : ∀ i < bs, acc.acceptLength i + 1 = (path i).length
  lt : ∀ i < bs, ∀ t ∈ path i, t < draftTokenNum
  nodup : ∀ i < bs, (path i).Nodup
  chain : topk = 1 → ∀ i < bs, path i = List.range (path i).length

/-- The tokens of request `i` that stay: its path up to the token it finishes on. -/
def Accepted.kept (acc : Accepted) (path : Nat → List Nat) (i : Nat) : List Nat := truncated (acc.finishes i) 0 (path i)

def Accepted.finished (acc : Accepted) (path : Nat → List Nat) (i : Nat) : Bool := finishesOn (acc.finishes i) 0 (path i)

/-- What the checks leave are the tokens `kept i` of each request. -/
structure Kept (topk draftTokenNum bs : Nat) (c : Checked) (kept : Nat → List Nat) : Prop where
  flat : flatAcceptIndex bs c.acceptIndex = (List.range bs).flatMap fun i => (kept i).map (i * draftTokenNum + ·)
  length : ∀ i < bs, c.acceptLength i + 1 = (kept i).length
  lt : ∀ i < bs, ∀ t ∈ kept i, t < draftTokenNum
  nodup : ∀ i < bs, (kept i).Nodup
  chain : topk = 1 → ∀ i < bs, kept i = List.range (kept i).length

section
variable {topk draftTokenNum bs : Nat} {acc : Accepted} {path : Nat → List Nat}

section
variable (h : Accepts topk draftTokenNum bs acc path)
include h

theorem Accepts.checkRow (hi : i < bs) : ∃ m, VerifyKv.checkRow (acc.finishes i) 0 (acc.acceptIndex i) =
      ((acc.kept path i).map (fun t => ((i * draftTokenNum + t : Nat) : Int)) ++ replicate m (-1), acc.finished path i) := by
  obtain ⟨m, hm⟩ := h.row i hi
  rw [hm]
  exact checkRow_spec (acc.finishes i) (fun t => by omega) m (path i) 0

theorem checkAccepted_kept : Kept topk draftTokenNum bs (checkAccepted bs acc) (acc.kept path) := by
  have hpre : ∀ i, acc.kept path i <+: path i := fun i => truncated_isPrefix _ _ 0
  have hfilter : ∀ (l : List Nat) (i m : Nat),
      (l.map (fun t => ((i * draftTokenNum + t : Nat) : Int)) ++ replicate m (-1)).filter (· ≠ -1) =
      l.map fun t => ((i * draftTokenNum + t : Nat) : Int) := by
    intro l i m
    rw [filter_append, filter_eq_self.mpr, filter_eq_nil_iff.mpr, append_nil]
    · simp
    · intro x hx
      obtain ⟨t, -, rfl⟩ := mem_map.mp hx
      simp only [ne_eq, decide_eq_true_eq]
      omega
  refine ⟨?_, ?_, fun i hi t ht => h.lt i hi t ((hpre i).subset ht), fun i hi => (h.nodup i hi).sublist (hpre i).sublist, ?_⟩
  · unfold flatAcceptIndex
    rw [flatMap_congr]
    intro i hi
    obtain ⟨m, hm⟩ := h.checkRow (mem_range.mp hi)
    show ((VerifyKv.checkRow (acc.finishes i) 0 (acc.acceptIndex i)).1.filter (· ≠ -1)).map Int.toNat = _
    rw [hm, hfilter, map_map]
    rfl
  · intro i hi
    obtain ⟨m, hm⟩ := h.checkRow hi
    have hne : acc.kept path i ≠ [] := truncated_ne_nil _ 0 fun e => by
      have := h.length i hi
      rw [e] at this
      simp at this
    have hpos := length_pos_iff.mpr hne
    show (if _ then _ else _ : Nat → Nat) i + 1 = _
    split
    · dsimp only
      rw [hm, countP_eq_length_filter, hfilter, length_map]
      omega
    rename_i hno
    have hfin : acc.finished path i = false := by
      have hrow := any_eq_false.mp (Bool.eq_false_iff.mpr hno) i (mem_range.mpr hi)
      dsimp only at hrow
      rw [hm] at hrow
      exact Bool.eq_false_iff.mpr hrow
    rw [h.length i hi, Accepted.kept, truncated_of_unfinished _ _ 0 hfin]
  · intro htop i hi
    have hr := hpre i
    rw [h.chain htop i hi, prefix_iff_eq_take, take_range, min_eq_left (hpre i).length_le] at hr
    exact hr

theorem mem_unfinishedIndex (hi : i < bs) : i ∈ (checkAccepted bs acc).unfinishedIndex ↔ acc.finished path i = false := by
  obtain ⟨m, hm⟩ := h.checkRow hi
  show i ∈ (range bs).filter (fun i => !(VerifyKv.checkRow (acc.finishes i) 0 (acc.acceptIndex i)).2) ↔ _
  rw [mem_filter, hm]
  simp [hi]

end

end

/-! ## Indices into the slots -/

section
variable {topk draftTokenNum : Nat} {b : Batch K} {a : Allocator} {loc : List Nat} {pg : Nat → Nat → Nat} {c : Checked}
  {kept : Nat → List Nat}

section
variable (hk : Kept topk draftTokenNum b.bs c kept)
include hk

theorem mem_flat (hi : i < b.bs) (hj : j < draftTokenNum) :
    i * draftTokenNum + j ∈ flatAcceptIndex b.bs c.acceptIndex ↔ j ∈ kept i := by
  rw [hk.flat, mem_flatMap]
  constructor
  · intro ⟨i', hi', hm⟩
    obtain ⟨t, ht, he⟩ := mem_map.mp hm
    obtain ⟨rfl, rfl⟩ := flat_inj (hk.lt i' (mem_range.mp hi') t ht) hj (by exact_mod_cast he)
    exact ht
  · intro ht
    exact ⟨i, mem_range.mpr hi, mem_map.mpr ⟨j, ht, rfl⟩⟩

theorem length_flat : (flatAcceptIndex b.bs c.acceptIndex).length = offset (fun i => (kept i).length) b.bs := by
  rw [hk.flat, length_flatMap_range]
  simp

/-- The `k`-th kept token of request `i` in the flat list. -/
theorem getD_flat (hi : i < b.bs) (hlt : k < (kept i).length) :
    (flatAcceptIndex b.bs c.acceptIndex).getD (offset (fun i => (kept i).length) i + k) 0 = i * draftTokenNum +
    (kept i).getD k 0 := by
  have hg := getD_flatMap_range (fun i => (kept i).map (i * draftTokenNum + ·)) 0 (k := k) (by rwa [length_map]) hi
  simp only [length_map] at hg
  rw [hk.flat, hg, getD_eq_getElem _ _ (by rwa [length_map]), getElem_map, getD_eq_getElem]

theorem kept_getD_lt (hi : i < b.bs) (hlt : k < (kept i).length) : (kept i).getD k 0 < draftTokenNum := by
  rw [getD_eq_getElem _ _ hlt]
  exact hk.lt i hi _ (getElem_mem hlt)

/-- The slot of the `k`-th kept token. -/
theorem getD_select_flat (he : Extends draftTokenNum b a loc pg) (hi : i < b.bs) (hlt : k < (kept i).length) :
    (select loc (flatAcceptIndex b.bs c.acceptIndex)).getD (offset (fun i => (kept i).length) i + k) 0 =
      slotAt b.allocator.pageSize pg i (b.seqLens i + (kept i).getD k 0) := by
  have hlen : offset (fun i => (kept i).length) i + k < (flatAcceptIndex b.bs c.acceptIndex).length := by
    have := offset_le (fun i => (kept i).length) hi
    rw [length_flat hk]
    omega
  have hflat := getD_flat hk hi hlt
  rw [getD_eq_getElem _ _ hlen] at hflat
  rw [select, getD_eq_getElem _ _ (by rwa [length_map]), getElem_map, hflat,
    he.loc i hi _ (kept_getD_lt hk hi hlt)]

end

/-- The slots in `l` are those of the draft tokens `j` with `F i j`. -/
def SlotsOf (draftTokenNum : Nat) (b : Batch K) (pg : Nat → Nat → Nat) (F : Nat → Nat → Prop) (l : List Nat) : Prop :=
  ∀ s, s ∈ l ↔ ∃ i < b.bs, ∃ j < draftTokenNum, F i j ∧ slotAt b.allocator.pageSize pg i (b.seqLens i + j) = s

section
variable (he : Extends draftTokenNum b a loc pg)
include he

theorem selectMask_slots {mask : Nat → Bool} {F : Nat → Nat → Prop}
    (hm : ∀ i < b.bs, ∀ j < draftTokenNum, mask (i * draftTokenNum + j) = true ↔ F i j) :
    SlotsOf draftTokenNum b pg F (selectMask loc mask) := by
  intro s
  simp only [selectMask, select, mem_map, mem_filter, mem_range]
  constructor
  · rintro ⟨f, ⟨hf, hmask⟩, hs⟩
    rw [he.length, ← offset_const] at hf
    obtain ⟨i, hi, j, hj, rfl⟩ := offset_split (fun _ => draftTokenNum) hf
    rw [offset_const] at hmask hs
    exact ⟨i, hi, j, hj, (hm i hi j hj).mp hmask, by rw [← he.loc i hi j hj, hs]⟩
  · rintro ⟨i, hi, j, hj, hF, hs⟩
    refine ⟨i * draftTokenNum + j, ⟨?_, (hm i hi j hj).mpr hF⟩, by rw [he.loc i hi j hj, hs]⟩
    rw [he.length]
    exact flat_lt hi hj

/-- The draft tokens have slots of their own. -/
theorem loc_inj (hps : 0 < b.allocator.pageSize) {f g : Nat} (hf : f < loc.length)
    (hg : g < loc.length) (h : loc.getD f 0 = loc.getD g 0) : f = g := by
  rw [he.length, ← offset_const] at hf hg
  obtain ⟨i, hi, j, hj, rfl⟩ := offset_split (fun _ => draftTokenNum) hf
  obtain ⟨i', hi', j', hj', rfl⟩ := offset_split (fun _ => draftTokenNum) hg
  rw [offset_const, offset_const, he.loc i hi j hj, he.loc i' hi' j' hj'] at h
  obtain ⟨rfl, hjj⟩ := he.owned.slotAt_inj hps hi hi' (Nat.le_add_right _ j) (Nat.add_lt_add_left hj _)
    (Nat.add_lt_add_left hj' _) h
  rw [add_left_cancel hjj]

theorem selectMask_nodup (hps : 0 < b.allocator.pageSize) (mask : Nat → Bool) : (selectMask loc mask).Nodup := by
  apply List.Nodup.map_on _ (nodup_range.filter _)
  intro f hf g hg h
  exact loc_inj he hps (mem_range.mp (mem_filter.mp hf).1) (mem_range.mp (mem_filter.mp hg).1) h

end

end

/-! ## The kernels -/

section
variable {sched : Schedule} {bs : Nat} {reqPoolIndices start stop : Nat → Nat} {reqToToken : Nat × Nat → Nat} {loc : List Nat}

theorem assign_writes (i : Nat) (hi : i < bs) :
    Writes ((blockLoop 32 (stop i - start i)).map fun k => ((reqPoolIndices i, start i + k),
      loc.getD (maskedSum (nextPowerOf2 bs) i (fun j => stop j - start j) + k) 0)) (stop i - start i)
      (fun k => (reqPoolIndices i, start i + k)) (fun k => loc.getD (offset (fun j => stop j - start j) i + k) 0) := by
  rw [maskedSum_eq (le_trans (le_of_lt hi) (le_nextPowerOf2 bs))]
  exact Writes.of_range (fun k => mem_blockLoop (by decide)) _ _

theorem assign_row (hpool : ∀ i < bs, ∀ j < bs, reqPoolIndices i = reqPoolIndices j → i = j) (hi : i < bs)
    (hk : k < stop i - start i) :
    assignReqToTokenPool sched bs reqPoolIndices reqToToken start stop loc (reqPoolIndices i, start i + k) =
      loc.getD (offset (fun j => stop j - start j) i + k) 0 := by
  refine scatter_blocks (fun i => stop i - start i) (fun i k => (reqPoolIndices i, start i + k))
    (fun i k => loc.getD (offset (fun j => stop j - start j) i + k) 0) reqToToken
    (fun i hi => assign_writes i (sched.mem.mp hi)) ?_ (sched.mem.mpr hi) hk
  intro i hi j hj k _ l _ h
  obtain ⟨hp, hkl⟩ := Prod.mk.inj h
  obtain rfl := hpool i (sched.mem.mp hi) j (sched.mem.mp hj) hp
  rw [add_left_cancel hkl]

theorem assign_frame (hpool : ∀ i < bs, ∀ j < bs, reqPoolIndices i = reqPoolIndices j → i = j) {p : Nat} (hi : i < bs)
    (hp : p < start i ∨ stop i ≤ p) : assignReqToTokenPool sched bs reqPoolIndices reqToToken start stop loc
    (reqPoolIndices i, p) =
      reqToToken (reqPoolIndices i, p) := by
  refine scatter_frame (fun i => stop i - start i) (fun i k => (reqPoolIndices i, start i + k))
    (fun i k => loc.getD (offset (fun j => stop j - start j) i + k) 0) reqToToken
    (fun i hi => assign_writes i (sched.mem.mp hi)) ?_
  intro j hj k hk h
  obtain ⟨hpl, hpk⟩ := Prod.mk.inj h
  obtain rfl := hpool j (sched.mem.mp hj) i hi hpl
  omega

theorem countP_range_le (n m : Nat) : (range m).countP (fun t => decide (n ≤ t)) = m - n := by
  induction m with
  | zero => simp
  | succ m ih =>
    rw [range_succ, countP_append, ih, countP_singleton]
    by_cases h : n ≤ m
    · rw [if_pos (decide_eq_true h)]
      omega
    · rw [if_neg (by simpa using h)]
      omega

/-- The mask of a chain's rejected tokens, aligned: the pages behind the last kept token. -/
theorem align_mask (sched : Schedule) {pageSize draftTokenNum : Nat} (hps : 0 < pageSize) (seqLens : Nat → Nat)
    {n : Nat → Nat} (mask : Nat → Bool) (hn : ∀ i < bs, 0 < n i ∧ n i ≤ draftTokenNum)
    (hmask : ∀ i < bs, ∀ j < draftTokenNum, mask (i * draftTokenNum + j) = decide (n i ≤ j)) (hi : i < bs)
    (hj : j < draftTokenNum) : alignEvictMaskToPageSize sched bs pageSize draftTokenNum seqLens mask
    (i * draftTokenNum + j) = true ↔
      pageCount pageSize (seqLens i + n i) * pageSize ≤ seqLens i + j := by
  have hcount : ∀ i < bs, (maskedArange (nextPowerOf2 draftTokenNum) draftTokenNum).countP
      (fun t => mask (i * draftTokenNum + t)) = draftTokenNum - n i := by
    intro i hi
    rw [maskedArange_eq (le_nextPowerOf2 _), ← countP_range_le]
    apply countP_congr
    intro t ht
    rw [hmask i hi t (mem_range.mp ht)]
  -- the page of the last kept token ends at `stop`
  obtain ⟨stop, hstop⟩ : ∃ stop, stop = pageCount pageSize (seqLens i + n i) * pageSize := ⟨_, rfl⟩
  have hn := hn i hi
  have hpage : (seqLens i + n i - 1) / pageSize * pageSize + pageSize = stop := by
    rw [hstop, show seqLens i + n i = (seqLens i + n i - 1) + 1 by omega, pageCount_succ hps, Nat.succ_mul, Nat.add_sub_cancel]
  have hlast := div_mul_le_self (seqLens i + n i - 1) pageSize
  have hge := le_pageCount_mul hps (seqLens i + n i)
  have hstart : ((seqLens i : Int) + ((draftTokenNum - (draftTokenNum - n i) : Nat) : Int) - 1) / pageSize * pageSize -
      seqLens i = (stop : Int) - pageSize - seqLens i := by
    have hcast : (seqLens i : Int) + ((draftTokenNum - (draftTokenNum - n i) : Nat) : Int) - 1 =
        ((seqLens i + n i - 1 : Nat) : Int) := by omega
    have hnat : ((seqLens i + n i - 1 : Nat) : Int) / pageSize * pageSize =
        (((seqLens i + n i - 1) / pageSize * pageSize : Nat) : Int) := by norm_cast
    rw [hcast, hnat]
    omega
  unfold alignEvictMaskToPageSize
  rcases scatter_cases mask _ (i * draftTokenNum + j) with ⟨hm, hne⟩ | ⟨w, hw, ha, hv⟩
  · rw [hm, hmask i hi j hj, decide_eq_true_eq]
    refine ⟨fun hnj => ?_, fun _ => by omega⟩
    apply Nat.le_of_not_lt
    intro hlt
    refine hne (i * draftTokenNum + j, false) (mem_flatMap.mpr ⟨i, sched.mem.mpr hi, ?_⟩) rfl
    simp only [hcount i hi, hstart, mem_map, mem_filter, mem_range, decide_eq_true_eq]
    exact ⟨j, ⟨by omega, by omega⟩, rfl⟩
  obtain ⟨i', hi', hw⟩ := mem_flatMap.mp hw
  simp only [mem_map, mem_filter, mem_range, decide_eq_true_eq] at hw
  obtain ⟨t, ⟨ht, -⟩, rfl⟩ := hw
  obtain ⟨rfl, rfl⟩ := flat_inj (show t < draftTokenNum by omega) hj (by exact_mod_cast ha)
  rw [hcount _ hi, hstart] at ht
  rw [hv]
  refine ⟨fun h => absurd h Bool.false_ne_true, fun h => by omega⟩

end

variable {kv' : Nat → K}

section
variable {topk draftTokenNum : Nat} {b : Batch K} {a : Allocator} {loc : List Nat} {pg : Nat → Nat → Nat} {c : Checked}
  {kept : Nat → List Nat} {sched : Schedule}

section
variable (hk : Kept topk draftTokenNum b.bs c kept)
include hk

theorem kept_length_le (hi : i < b.bs) : (kept i).length ≤ draftTokenNum := by
  have hsub : kept i ⊆ range draftTokenNum := fun t ht => mem_range.mpr (hk.lt i hi t ht)
  have := (subperm_of_subset (hk.nodup i hi) hsub).length_le
  rwa [length_range] at this

theorem acceptLength_offset (hi : i ≤ b.bs) : offset c.acceptLength i + i = offset (fun i => (kept i).length) i := by
  rw [← offset_add_one]
  exact offset_congr fun j hj => hk.length j (lt_of_lt_of_le hj hi)

/-- The targets are the first slots of each request. -/
theorem target_slots (he : Extends draftTokenNum b a loc pg) (toFree : Nat → Nat) (hi : i < b.bs) (hlt : k < (kept i).length) :
    (getTargetCacheLoc sched b.bs draftTokenNum c.acceptLength toFree loc).1 (offset (fun i => (kept i).length) i + k) =
      slotAt b.allocator.pageSize pg i (b.seqLens i + k) := by
  rw [← he.loc i hi k (lt_of_lt_of_le hlt (kept_length_le hk hi))]
  refine scatter_ragged (fun i => (kept i).length) (fun i k => loc.getD (i * draftTokenNum + k) 0) (fun _ => 0) ?_
    (sched.mem.mpr hi) hlt
  intro j hj
  have hj := sched.mem.mp hj
  rw [maskedSum_eq (le_trans (le_of_lt hj) (le_nextPowerOf2 b.bs)), acceptLength_offset hk (le_of_lt hj), hk.length j hj]
  exact Writes.of_range (fun k => mem_maskedArange (le_trans (kept_length_le hk hj) (le_nextPowerOf2 _))) _ _

end

/-- The freed slots are the last ones of each request. -/
theorem toFree_slots (sched : Schedule) (acceptLength : Nat → Nat) (he : Extends draftTokenNum b a loc pg) {toFree : Nat → Nat}
    (hfree : ∀ i < b.bs, toFree i ≤ draftTokenNum) (hi : i < b.bs) (hlt : k < toFree i) :
    (getTargetCacheLoc sched b.bs draftTokenNum acceptLength toFree loc).2 (offset toFree i + k) =
      slotAt b.allocator.pageSize pg i (b.seqLens i + (draftTokenNum - toFree i + k)) := by
  have hle := hfree i hi
  rw [← he.loc i hi (draftTokenNum - toFree i + k) (by omega), ← add_assoc]
  refine scatter_ragged toFree (fun i k => loc.getD (i * draftTokenNum + (draftTokenNum - toFree i) + k) 0) (fun _ => 0) ?_
    (sched.mem.mpr hi) hlt
  intro j hj
  have hj := sched.mem.mp hj
  rw [maskedSum_eq (le_trans (le_of_lt hj) (le_nextPowerOf2 b.bs))]
  exact Writes.of_range (fun k => mem_maskedArange (le_trans (hfree j hj) (le_nextPowerOf2 _))) _ _

/-- The slots freed behind the moved tokens are those of the pages behind the last one. -/
theorem toFree_slotsOf (hps : 0 < b.allocator.pageSize) (he : Extends draftTokenNum b a loc pg)
    (hk : Kept topk draftTokenNum b.bs c kept) :
    SlotsOf draftTokenNum b pg
      (fun i j => pageCount b.allocator.pageSize (b.seqLens i + (kept i).length) * b.allocator.pageSize ≤ b.seqLens i + j)
      ((range (offset (toFreeNumSlots b.allocator.pageSize draftTokenNum b.seqLens c.acceptLength) b.bs)).map
        (getTargetCacheLoc sched b.bs draftTokenNum c.acceptLength
          (toFreeNumSlots b.allocator.pageSize draftTokenNum b.seqLens c.acceptLength) loc).2) := by
  generalize htf : toFreeNumSlots b.allocator.pageSize draftTokenNum b.seqLens c.acceptLength = toFree
  have hcount : ∀ i < b.bs, toFree i = b.seqLens i + draftTokenNum - min
      (pageCount b.allocator.pageSize (b.seqLens i + (kept i).length) * b.allocator.pageSize) (b.seqLens i + draftTokenNum) := by
    intro i hi
    rw [← htf, toFreeNumSlots, ← hk.length i hi, pageCount, ← add_assoc]
  have hge : ∀ i < b.bs, b.seqLens i ≤ pageCount b.allocator.pageSize (b.seqLens i + (kept i).length) * b.allocator.pageSize :=
    fun i _ => le_trans (le_add_right _ _) (le_pageCount_mul hps _)
  have hle : ∀ i < b.bs, toFree i ≤ draftTokenNum := by
    intro i hi
    have := hcount i hi
    have := hge i hi
    omega
  intro s
  simp only [mem_map, mem_range]
  constructor
  · rintro ⟨f, hf, hs⟩
    obtain ⟨i, hi, k, hk, rfl⟩ := offset_split toFree hf
    rw [toFree_slots sched c.acceptLength he hle hi hk] at hs
    have := hcount i hi
    have := hge i hi
    exact ⟨i, hi, draftTokenNum - toFree i + k, by omega, by omega, hs⟩
  · rintro ⟨i, hi, j, hj, hF, hs⟩
    have hc := hcount i hi
    have hoff := offset_le toFree hi
    have hslot := toFree_slots sched c.acceptLength he hle hi
      (show j - (draftTokenNum - toFree i) < toFree i by omega)
    rw [Nat.add_sub_cancel' (show draftTokenNum - toFree i ≤ j by omega), hs] at hslot
    exact ⟨_, by omega, hslot⟩

theorem moveKvCache_eq (kv : Nat → K) (tgt : Nat → Nat) (src : List Nat) : moveKvCache kv ((range src.length).map tgt) src =
      scatter kv ((range src.length).map fun f => (tgt f, kv (src.getD f 0))) := by
  have hsrc : src.map kv = (range src.length).map fun f => kv (src.getD f 0) := by
    apply ext_getElem
    · simp
    · intro f h _
      rw [getElem_map, getElem_map, getElem_range, getD_eq_getElem]
  rw [moveKvCache, hsrc, zip_map']

/-- The accepted tokens move to the front of the request's new slots; the slots of the
    rows stay. -/
theorem moveKvCache_spec (hps : 0 < b.allocator.pageSize) (he : Extends draftTokenNum b a loc pg)
    (hk : Kept topk draftTokenNum b.bs c kept) (toFree : Nat → Nat) (kv : Nat → K)
    (hkv : kv' = moveKvCache kv ((range (select loc (flatAcceptIndex b.bs c.acceptIndex)).length).map
      (getTargetCacheLoc sched b.bs draftTokenNum c.acceptLength toFree loc).1)
      (select loc (flatAcceptIndex b.bs c.acceptIndex))) :
    (∀ i < b.bs, ∀ k < (kept i).length, kv' (slotAt b.allocator.pageSize pg i (b.seqLens i + k)) =
      kv (slotAt b.allocator.pageSize pg i (b.seqLens i + (kept i).getD k 0))) ∧
    ∀ i < b.bs, ∀ p < b.seqLens i, kv' (slotAt b.allocator.pageSize pg i p) = kv (slotAt b.allocator.pageSize pg i p) := by
  have hlen : (select loc (flatAcceptIndex b.bs c.acceptIndex)).length = offset (fun i => (kept i).length) b.bs := by
    rw [select, length_map, length_flat hk]
  have hpos : ∀ {i k : Nat}, i < b.bs → k < (kept i).length → b.seqLens i + k < b.seqLens i + draftTokenNum :=
    fun hi hlt => Nat.add_lt_add_left (Nat.lt_of_lt_of_le hlt (kept_length_le hk hi)) _
  rw [moveKvCache_eq, hlen] at hkv
  subst hkv
  constructor
  · intro i hi k hlt
    rw [← getD_select_flat hk he hi hlt, ← target_slots hk he toFree hi hlt]
    refine scatter_range kv _ ?_ ?_
    · intro f hf g hg h
      obtain ⟨i, hi, k, hki, rfl⟩ := offset_split _ hf
      obtain ⟨j, hj, l, hlj, rfl⟩ := offset_split _ hg
      rw [target_slots hk he toFree hi hki, target_slots hk he toFree hj hlj] at h
      obtain ⟨rfl, hkl⟩ := he.owned.slotAt_inj hps hi hj (le_add_right _ k) (hpos hi hki) (hpos hj hlj) h
      rw [add_left_cancel hkl]
    · have := offset_le (fun i => (kept i).length) hi
      omega
  · intro i hi p hp
    apply scatter_range_frame
    intro f hf h
    obtain ⟨j, hj, l, hlj, rfl⟩ := offset_split _ hf
    rw [target_slots hk he toFree hj hlj] at h
    obtain ⟨rfl, hlp⟩ := he.owned.slotAt_inj hps hj hi (le_add_right _ l) (hpos hj hlj) (by omega) h
    omega

/-- The forward pass writes the slots of the draft tokens; the slots of the rows stay. -/
theorem forward_spec (hps : 0 < b.allocator.pageSize) (he : Extends draftTokenNum b a loc pg) (draftKv : Nat → K)
    (hkv : kv' = scatter b.kv ((range loc.length).map fun f => (loc.getD f 0, draftKv f))) :
    (∀ i < b.bs, ∀ j < draftTokenNum, kv' (slotAt b.allocator.pageSize pg i (b.seqLens i + j)) =
    draftKv (i * draftTokenNum + j)) ∧
    ∀ i < b.bs, ∀ p < b.seqLens i, kv' (slotAt b.allocator.pageSize pg i p) = b.kv (slotAt b.allocator.pageSize pg i p) := by
  subst hkv
  constructor
  · intro i hi j hj
    rw [← he.loc i hi j hj]
    refine scatter_range b.kv draftKv (fun f hf g hg h => loc_inj he hps hf hg h) ?_
    rw [he.length]
    exact flat_lt hi hj
  · intro i hi p hp
    apply scatter_range_frame
    intro f hf h
    rw [he.length, ← offset_const] at hf
    obtain ⟨i', hi', j, hj, rfl⟩ := offset_split (fun _ => draftTokenNum) hf
    rw [offset_const, he.loc i' hi' j hj] at h
    obtain ⟨rfl, hlp⟩ := he.owned.slotAt_inj hps hi' hi (Nat.le_add_right _ j) (Nat.add_lt_add_left hj _) (by omega) h
    omega

end

end DynaSpec.Speculative.VerifyKv
