/-
  DynaSpec.MemCache.Hf3fs — the reads of the HF3FS storage backend, `HiCacheHF3FS._batch_get`
  through the USRBIO client (srt/mem_cache/storage/hf3fs).

  A destination has the size of a page, and pages lie in the file. `_batch_get` collects the
  offsets of the keys that are present, but cuts its destinations from the front of the
  caller's list: the `j`-th read goes to destination `j`, whichever key it is of.
-/

import DynaSpec.Lib.Dict

namespace DynaSpec.MemCache.Hf3fs

open DynaSpec.Lib List Option Nat

variable {κ β : Type} [DecidableEq κ]

/-- The pages of a rank; in what order `move_to_end` leaves them no read depends on. -/
structure RankMetadata (κ : Type) where
  keyToIndex : Dict κ Nat

def RankMetadata.getPageIndices (s : RankMetadata κ) (keys : List κ) : List (Option Nat) := keys.map s.keyToIndex.get?

/-- What one read returns, and what a read that came short leaves in the shared memory. -/
structure Read (β : Type) where
  result : Int
  rest : β

variable (bytesPerPage entries : Nat) (file : Nat → β)

/-- What the shared memory has for a destination, and `read_shm` copies. -/
def Read.received (r : Read β) (offset : Nat) : β := if r.result = bytesPerPage then file offset else r.rest

/-- `check` raises for the batch from `i` on if it has fewer offsets than destinations. -/
def refused (offsets : List Nat) (tensors : List β) (i : Nat) : Bool :=
  decide (((offsets.drop i).take entries).length ≠ ((tensors.drop i).take entries).length)

/-- The batches; one that raises leaves the others to be read. -/
def batchRead (reads : Nat → Read β) (offsets : List Nat) (tensors : List β) : Option (List Int) × List β :=
  (if (List.range offsets.length).any fun j => refused entries offsets tensors (j - j % entries) then none
    else some (offsets.mapIdx fun j _ => (reads j).result),
  tensors.mapIdx fun j old =>
    match offsets[j]? with
    | some offset =>
      if refused entries offsets tensors (j - j % entries) then old else (reads j).received bytesPerPage file offset
    | none => old)

/-- `batch_indices` and `file_offsets`. -/
def present : Nat → List (Option Nat) → List (Nat × Nat)
  | _, [] => []
  | i, none :: pages => present (i + 1) pages
  | i, some page :: pages => (i, page * bytesPerPage) :: present (i + 1) pages

def found (s : RankMetadata κ) (keys : List κ) : List (Nat × Nat) := present bytesPerPage 0 (s.getPageIndices keys)

def markRead (results : List Bool) (reads : List (Nat × Int)) : List Bool :=
  reads.foldl (fun results e => if e.2 = (bytesPerPage : Int) then results.set e.1 true else results) results

/-- The results, if no batch raised, and the destinations. -/
def batchGet (s : RankMetadata κ) (reads : Nat → Read β) (keys : List κ) (values : List β) : Option (List Bool) × List β :=
  -- `range` raises for a step of 0
  if entries = 0 then (none, values)
  else
    let found := found bytesPerPage s keys
    let r := batchRead bytesPerPage entries file reads (found.map Prod.snd) values
    (r.1.map fun readResults => markRead bytesPerPage (List.replicate keys.length false)
      ((found.map Prod.fst).zip readResults), r.2)

/-! ## Which destinations are read into -/

/-- The destinations that are read into, for `m` offsets and `n` destinations: all but those
    of a last batch that is too short. -/
def readCount (m n : Nat) : Nat := if m < n then m - m % entries else m

theorem readCount_le (m n : Nat) : readCount entries m n ≤ m := by
  unfold readCount
  split <;> omega

variable {entries}

theorem refused_eq (he : entries ≠ 0) {offsets : List Nat} {tensors : List β} (hle : offsets.length ≤ tensors.length) {j : Nat}
    (hj : j < offsets.length) :
    refused entries offsets tensors (j - j % entries) = decide (readCount entries offsets.length tensors.length ≤ j) := by
  have hm := div_add_mod offsets.length entries
  have hq := div_add_mod j entries
  have hlt := Nat.mod_lt offsets.length (Nat.pos_of_ne_zero he)
  have hlt' := Nat.mod_lt j (Nat.pos_of_ne_zero he)
  refine decide_eq_decide.mpr ?_
  rw [length_take, length_take, length_drop, length_drop, readCount]
  rcases Nat.lt_trichotomy (j / entries) (offsets.length / entries) with h | h | h
  · have := mul_le_mul_left entries h
    rw [succ_eq_add_one, mul_add_one] at this
    split <;> omega
  · rw [h] at hq
    split <;> omega
  · have := mul_le_mul_left entries h
    rw [succ_eq_add_one, mul_add_one] at this
    omega

theorem present_length_le (i : Nat) (pages : List (Option Nat)) : (present bytesPerPage i pages).length ≤ pages.length := by
  fun_induction present with
  | case1 => exact Nat.le_refl 0
  | case2 i pages ih => exact le_succ_of_le ih
  | case3 i page pages ih => exact succ_le_succ ih

theorem found_length_le (s : RankMetadata κ) (keys : List κ) : (found bytesPerPage s keys).length ≤ keys.length :=
  (length_map s.keyToIndex.get?).symm ▸ present_length_le bytesPerPage 0 (s.getPageIndices keys)

/-- As long as no key is absent, the reads are at the keys' own positions. -/
theorem present_front {n : Nat} (i : Nat) (pages : List (Option Nat)) (hall : ∀ page ∈ pages.take n, page ≠ none) (j : Nat)
    (hj : j < n) :
    (present bytesPerPage i pages)[j]? = (pages[j]?.join).map fun page => (i + j, page * bytesPerPage) := by
  induction pages generalizing n i j with
  | nil => rfl
  | cons page pages ih =>
    obtain ⟨n, rfl⟩ := Nat.exists_eq_add_one_of_ne_zero (Nat.ne_zero_of_lt hj)
    obtain ⟨hpage, hpages⟩ := forall_mem_cons.mp hall
    obtain ⟨page, rfl⟩ := ne_none_iff_exists'.mp hpage
    cases j with
    | zero => rfl
    | succ j =>
      rw [present, getElem?_cons_succ, ih (i + 1) hpages j (by omega), getElem?_cons_succ, Nat.add_assoc, Nat.add_comm 1 j]

theorem markRead_true {i : Nat} {es : List (Nat × Int)} {results : List Bool}
    (h : (markRead bytesPerPage results es)[i]? = some true) :
    results[i]? = some true ∨ (i, (bytesPerPage : Int)) ∈ es := by
  induction es generalizing results with
  | nil => exact .inl h
  | cons e es ih =>
    rcases ih h with h | h
    · dsimp only at h
      split at h
      · rename_i he
        by_cases hi : e.1 = i
        · exact .inr (by rw [← hi, ← he]; exact mem_cons_self)
        · exact .inl (by rwa [getElem?_set_ne hi] at h)
      · exact .inl h
    · exact .inr (mem_cons_of_mem _ h)

/-- The offsets that are read, and which of them end in a result. -/
theorem batchGet_spec (he : entries ≠ 0) (s : RankMetadata κ) (reads : Nat → Read β) (keys : List κ) (values : List β)
    (hlen : values.length = keys.length) : let found := found bytesPerPage s keys
    let n := readCount entries found.length keys.length
    let r := batchGet bytesPerPage entries file s reads keys values
    (∀ results, r.1 = some results → ∀ i : Nat, results[i]? = some true →
      ∃ j offset : Nat, j < n ∧ found[j]? = some (i, offset) ∧ (reads j).result = bytesPerPage) ∧
    ∀ i : Nat, r.2[i]? = if i < n then found[i]?.map fun e => (reads i).received bytesPerPage file e.2 else values[i]? := by
  have hle := found_length_le bytesPerPage s keys
  have hrefused := fun j => refused_eq (j := j) he (show ((found bytesPerPage s keys).map Prod.snd).length ≤ values.length by
    rwa [length_map, hlen])
  rw [length_map, hlen] at hrefused
  rw [batchGet, if_neg he]
  refine ⟨fun results hr i hi => ?_, fun i => ?_⟩
  · obtain ⟨readResults, hread, rfl⟩ := map_eq_some_iff.mp hr
    rw [batchRead] at hread
    split at hread
    · cases hread
    rename_i hany
    rcases markRead_true _ hi with hi | hi
    · simp [getElem?_replicate] at hi
    obtain ⟨j, hj⟩ := mem_iff_getElem?.mp hi
    obtain ⟨hfst, hsnd⟩ := getElem?_zip_eq_some.mp hj
    obtain ⟨⟨i, offset⟩, hfound, rfl⟩ := map_eq_some_iff.mp (getElem?_map.symm.trans hfst)
    rw [← some.inj hread, getElem?_mapIdx, getElem?_map, hfound] at hsnd
    have hj := (List.getElem?_eq_some_iff.mp hfound).1
    refine ⟨j, offset, Nat.lt_of_not_le fun hn => hany (any_eq_true.mpr ⟨j, ?_, ?_⟩), hfound, some.inj hsnd⟩
    · rwa [length_map, mem_range]
    · rw [hrefused j hj]
      exact decide_eq_true hn
  · dsimp only [batchRead]
    rw [getElem?_mapIdx, getElem?_map]
    by_cases hi : i < (found bytesPerPage s keys).length
    · rw [hrefused i hi, getElem?_eq_getElem hi, getElem?_eq_getElem (l := values) (by omega)]
      by_cases hn : i < readCount entries (found bytesPerPage s keys).length keys.length
      · simp [hn, Nat.not_le.mpr hn]
      · simp [hn, Nat.le_of_not_lt hn]
    · rw [getElem?_eq_none (Nat.le_of_not_lt hi), if_neg fun hn => hi (Nat.lt_of_lt_of_le hn (readCount_le _ _ _))]
      simp

variable (entries)

/-- A result is true only for a key that is present and whose page has come to its
    destination, and the destination of an absent key is as it was. -/
def Delivers (β : Type) (s : RankMetadata κ) (keys : List κ) : Prop :=
  ∀ (file : Nat → β) (reads : Nat → Read β) (values : List β), values.length = keys.length →
    let r := batchGet bytesPerPage entries file s reads keys values
    (∀ results, r.1 = some results → ∀ i : Nat, results[i]? = some true →
      ∃ key page, keys[i]? = some key ∧ s.keyToIndex.get? key = some page ∧ r.2[i]? = some (file (page * bytesPerPage))) ∧
    ∀ (i : Nat) (key : κ), keys[i]? = some key → s.keyToIndex.get? key = none → r.2[i]? = values[i]?

theorem batchGet_delivers_iff [Nontrivial β] (s : RankMetadata κ) (keys : List κ) : Delivers bytesPerPage entries β s keys ↔
    entries = 0 ∨
      ∀ key ∈ keys.take (readCount entries (found bytesPerPage s keys).length keys.length), s.keyToIndex.get? key ≠ none := by
  by_cases he : entries = 0
  · refine iff_of_true (fun file reads values _ => ?_) (.inl he)
    rw [batchGet, if_pos he]
    exact ⟨nofun, fun _ _ _ _ => rfl⟩
  rw [or_iff_right he]
  have hle := found_length_le bytesPerPage s keys
  have hrc := readCount_le entries (found bytesPerPage s keys).length keys.length
  constructor
  · intro h key hmem habsent
    obtain ⟨i, hi⟩ := mem_iff_getElem?.mp hmem
    rw [getElem?_take] at hi
    split at hi
    · rename_i hin
      obtain ⟨a, b, hab⟩ := exists_pair_ne β
      have hlen : (replicate keys.length a).length = keys.length := length_replicate
      have hread := (batchGet_spec bytesPerPage (fun _ => b) he s (fun _ => ⟨bytesPerPage, b⟩) keys _ hlen).2 i
      rw [(h _ _ _ hlen).2 i key hi habsent, if_pos hin, getElem?_replicate, if_pos (by omega)] at hread
      obtain ⟨e, -, he⟩ := map_eq_some_iff.mp hread.symm
      exact hab (he.symm.trans (if_pos rfl))
    · cases hi
  · intro hall file reads values hlen
    obtain ⟨hres, hdest⟩ := batchGet_spec bytesPerPage file he s reads keys values hlen
    have hfront := present_front bytesPerPage 0 (keys.map s.keyToIndex.get?) (by rwa [← map_take, List.forall_mem_map])
    refine ⟨fun results hr i hi => ?_, fun i key hkey habsent => (hdest i).trans (if_neg fun hin => ?_)⟩
    · obtain ⟨j, offset, hjn, hfound, hj⟩ := hres results hr i hi
      have hpage := hfront j hjn
      rw [← RankMetadata.getPageIndices, ← found, hfound, RankMetadata.getPageIndices, getElem?_map] at hpage
      obtain ⟨page, hjoin, heq⟩ := map_eq_some_iff.mp hpage.symm
      obtain ⟨key, hkey, hget⟩ := map_eq_some_iff.mp (join_eq_some_iff.mp hjoin)
      obtain ⟨rfl, rfl⟩ := Prod.mk.inj heq
      rw [Nat.zero_add] at hfound ⊢
      refine ⟨key, page, hkey, hget, ?_⟩
      rw [hdest, if_pos hjn, hfound, map_some, Read.received, if_pos hj]
    · exact hall key (mem_iff_getElem?.mpr ⟨i, by rw [getElem?_take, if_pos hin, hkey]⟩) habsent

def oneMapped : RankMetadata Nat := ⟨Dict.empty.set 1 0⟩

theorem batchGet_delivers_front : Delivers 1 1 Bool oneMapped [1, 0] :=
  (batchGet_delivers_iff 1 1 oneMapped [1, 0]).mpr (Or.inr (by decide))

/-- The page of key 1 comes to the destination of key 0, which is absent, and key 1 has its
    result with its destination as it was. -/
theorem batchGet_misplaced :
    batchGet 1 1 (fun _ => true) oneMapped (fun _ => ⟨1, false⟩) [0, 1] [false, false] = (some [false, true], [true, false]) ∧
      ¬Delivers 1 1 Bool oneMapped [0, 1] :=
  ⟨by decide, fun h => by have := (h (fun _ => true) (fun _ => ⟨1, false⟩) [false, false] rfl).2 0 0 rfl rfl; revert this; decide⟩

end DynaSpec.MemCache.Hf3fs
