/-
  DynaSpec.MemCache.ReqCacheHolds — what the tree and a request hold for its tokens (`Holds`), and what
  each call does to that.

  The slots of a request are those on the way to its `last_node` and then those of its own
  pages, the last of which may be filled in part (`kv`). A chunk goes on with that page and then
  takes new ones (`Holds.extended`). At the end of a chunk the tree takes the pages that it did not
  have and the others are given back (`Holds.insert`), so that a request ends with all of its pages
  in the tree or free (`Holds.finished`), and its row after `cache_unfinished_req` is what the
  tree holds, but for the entries of `Safe` (`Holds.unfinished`).
-/

import DynaSpec.MemCache.ReqCache

namespace DynaSpec.MemCache

open DynaSpec.Lib RadixCache List Allocator RadixKey Nat
open Multiset (coe_add coe_eq_coe)

namespace Memory

variable {cfg : Config}

/-! ## Keys -/

theorem convertToBigramKey_ids (l : List Nat) :
    convertToBigramKey (l.map Token.id) = zipWith Token.bigram (l.map Token.id) (l.map Token.id).tail := by
  match l with
  | [] => rfl
  | [_] => rfl
  | _ :: _ :: _ => rfl

/-- The key of a request: its tokens, or the bigrams of them. -/
def keyTokens (cfg : Config) (req : Req) : List Token := keyConvertFn cfg (req.tokenIds.map Token.id)

theorem length_keyConvertFn (l : List Nat) : (keyConvertFn cfg (l.map Token.id)).length = actualKvLen cfg l.length := by
  unfold keyConvertFn actualKvLen
  split
  · rw [convertToBigramKey_ids]
    simp
  · simp

theorem keyConvertFn_take (l : List Nat) (n : Nat) : keyConvertFn cfg ((l.take (if cfg.isEagle then n + 1 else n)).map Token.id) =
      (keyConvertFn cfg (l.map Token.id)).take n := by
  unfold keyConvertFn
  split
  · rw [convertToBigramKey_ids, convertToBigramKey_ids]
    apply ext_getElem?
    intro i
    simp only [getElem?_zipWith, getElem?_take, getElem?_tail, getElem?_map]
    by_cases hi : i < n
    · rw [if_pos (by omega), if_pos (by omega), if_pos hi]
    · rw [if_neg hi, if_neg (show ¬ i + 1 < n + 1 by omega)]
      cases (if i < n + 1 then l[i]? else none) <;> rfl
  · rw [map_take]

theorem pageAlignedLen_eq (cfg : Config) (n : Nat) : pageAlignedLen cfg n = actualKvLen cfg n / cfg.pageSize * cfg.pageSize := by
  unfold pageAlignedLen
  split
  · rfl
  · rename_i h
    rw [show cfg.pageSize = 1 by simpa using h, Nat.div_one, mul_one]

theorem pageAlignedLen_le (cfg : Config) (n : Nat) : pageAlignedLen cfg n ≤ actualKvLen cfg n := by
  rw [pageAlignedLen_eq]
  exact div_mul_le_self _ _

theorem dvd_pageAlignedLen (cfg : Config) (n : Nat) : cfg.pageSize ∣ pageAlignedLen cfg n := by
  rw [pageAlignedLen_eq]
  exact dvd_mul_left _ _

theorem actualKvLen_le (cfg : Config) (n : Nat) : actualKvLen cfg n ≤ n := by
  unfold actualKvLen
  split <;> omega

theorem pageAlignedLen_le_self (cfg : Config) (n : Nat) : pageAlignedLen cfg n ≤ n :=
  le_trans (pageAlignedLen_le cfg n) (actualKvLen_le cfg n)

theorem actualKvLen_mono (cfg : Config) {a b : Nat} (h : a ≤ b) : actualKvLen cfg a ≤ actualKvLen cfg b := by
  unfold actualKvLen
  split <;> omega

/-- The key that is inserted for the first `n` tokens of a request. -/
theorem radixKey_aligned (req : Req) {n : Nat} (h0 : 0 < n) (hn : n ≤ req.tokenIds.length) :
    insertKey cfg (radixKey req ((req.tokenIds.take n).take (pageAlignedTokenLen cfg n))) =
        ⟨(keyTokens cfg req).take (pageAlignedLen cfg n), req.extraKey⟩ ∧
      ((keyTokens cfg req).take (pageAlignedLen cfg n)).length = pageAlignedLen cfg n := by
  have hle := pageAlignedLen_le cfg n
  have hmin : (req.tokenIds.take n).take (pageAlignedTokenLen cfg n) =
      req.tokenIds.take (if cfg.isEagle then pageAlignedLen cfg n + 1 else pageAlignedLen cfg n) := by
    rw [take_take]
    congr 1
    unfold pageAlignedTokenLen
    unfold actualKvLen at hle
    split at hle <;> rename_i he <;> simp only [he, if_true, if_false, Bool.false_eq_true] <;> omega
  constructor
  · rw [insertKey, radixKey, hmin, keyConvertFn_take]
    rfl
  · rw [length_take, keyTokens, length_keyConvertFn]
    have := actualKvLen_mono cfg hn
    omega

theorem keyConvertFn_prefix (l : List Nat) (k : Nat) :
    keyConvertFn cfg ((l.take k).map Token.id) <+: keyConvertFn cfg (l.map Token.id) := by
  by_cases he : cfg.isEagle = true
  · cases k with
    | zero =>
      unfold keyConvertFn
      rw [if_pos he]
      exact nil_prefix
    | succ n =>
      have := @keyConvertFn_take cfg l n
      rw [if_pos he] at this
      rw [this]
      exact take_prefix _ _
  · have := @keyConvertFn_take cfg l k
    rw [if_neg he] at this
    rw [this]
    exact take_prefix _ _

/-- A key of whole pages is looked up as it is inserted. -/
theorem lookupKey_eq {key : RadixKey} (h : cfg.pageSize ∣ (insertKey cfg key).len) : lookupKey cfg key = insertKey cfg key := by
  have h : cfg.pageSize ∣ (keyConvertFn cfg key.tokenIds).length := h
  unfold lookupKey insertKey
  rw [pageAlign, Nat.div_mul_cancel h, take_length]

/-! ## Rows -/

@[simp] theorem length_row (m : Memory) (idx n : Nat) : (m.row idx n).length = n := by simp [row]

theorem getElem?_row (m : Memory) (idx : Nat) {j n : Nat} (h : j < n) : (m.row idx n)[j]? = some (m.reqToToken idx j) := by
  simp [row, h]

theorem row_eq {m : Memory} {idx n : Nat} {l : List Nat} (hlen : l.length = n) (h : ∀ j < n, l[j]? = some (m.reqToToken idx j)) :
    m.row idx n = l := by
  apply ext_getElem?
  intro j
  by_cases hj : j < n
  · rw [getElem?_row m idx hj, h j hj]
  · rw [getElem?_eq_none (by simpa using hj), getElem?_eq_none (by omega)]

/-- A chunk is written after its prefix. -/
theorem row_write (m : Memory) (idx : Nat) (a b : List Nat) :
    ((m.write idx 0 a).write idx a.length b).row idx (a.length + b.length) = a ++ b := by
  refine row_eq length_append fun j hj => ?_
  unfold write
  dsimp only
  by_cases h : j < a.length
  · rw [if_neg (by omega), if_pos (by omega), getElem?_append_left h, Nat.sub_zero, getD_eq_getElem _ _ h,
      getElem?_eq_getElem h]
  · rw [if_pos (by omega), getElem?_append_right (by omega), getD_eq_getElem _ _ (by omega), getElem?_eq_getElem]

/-- The columns from `a` on are written with those of `l`. -/
theorem getElem?_row_write (m : Memory) (idx a : Nat) {l : List Nat} {j n : Nat} (hj : j < n) :
    ((m.write idx a (l.drop a)).row idx n)[j]? = if a ≤ j ∧ j < l.length then l[j]? else (m.row idx n)[j]? := by
  rw [getElem?_row _ _ hj, getElem?_row _ _ hj]
  unfold write
  dsimp only
  rw [length_drop]
  split
  · rename_i h
    rw [if_pos (by omega), getD_eq_getElem _ _ (by rw [length_drop]; omega), getElem_drop, getElem?_eq_getElem (by omega)]
    simp [Nat.add_sub_cancel' h.2.1]
  · rw [if_neg (by omega)]

theorem write_other (m : Memory) {idx i : Nat} (h : i ≠ idx) (start : Nat) (values : List Nat) :
    (m.write idx start values).reqToToken i = m.reqToToken i := by
  funext j
  unfold write
  dsimp only
  rw [if_neg fun hi => h hi.1]

/-! ## Pages of a row -/

section
variable {pageSize : Nat} {pages : List Nat}

/-- The first `k` pages, given back without the first slots of the first one. -/
theorem pagesOf_front (hps : 0 < pageSize) (hnd : pages.Nodup) {a k : Nat} (ha : a < pageSize) (hk : k ≤ pages.length) :
    (pagesOf pageSize (((wholePages pageSize pages).take (k * pageSize)).drop a)).Perm (pages.take k) := by
  rcases Nat.eq_zero_or_pos k with rfl | hpos
  · simp [pagesOf, unique]
  have h1 : a < k * pageSize := lt_of_lt_of_le ha (Nat.le_mul_of_pos_left pageSize hpos)
  have := pagesOf_slice hps hnd h1 (by rw [length_wholePages]; exact mul_le_mul_right _ hk)
  rwa [pageCount_mul hps, div_eq_of_lt ha, drop_zero] at this

/-- All but the first `k` pages, the last of which may be filled in part. -/
theorem pagesOf_back (hps : 0 < pageSize) (hnd : pages.Nodup) {k n : Nat} (hk : k * pageSize ≤ n)
    (hn : pages.length = pageCount pageSize n) :
    (pagesOf pageSize (((wholePages pageSize pages).take n).drop (k * pageSize))).Perm (pages.drop k) := by
  rcases eq_or_lt_of_le hk with rfl | hlt
  · rw [pageCount_mul hps] at hn
    rw [drop_of_length_le (by rw [length_take]; exact min_le_left _ _), drop_of_length_le (le_of_eq hn)]
    simp [pagesOf, unique]
  · have := pagesOf_slice hps hnd hlt (by rw [length_wholePages, hn]; exact le_pageCount_mul hps n)
    rwa [← hn, take_length, Nat.mul_div_cancel k hps] at this

/-- The pages of a sequence, the last of which may be filled in part, go on with new pages. -/
theorem getElem?_extendSlot (hps : 0 < pageSize) {new : List Nat} {n k : Nat} {lastLoc : Int}
    (hn : pages.length = pageCount pageSize n)
    (hlast : n % pageSize ≠ 0 → ∃ x : Nat, (wholePages pageSize pages)[n - 1]? = some x ∧ lastLoc = x)
    (hk : n + k < (pages ++ new).length * pageSize) :
    (wholePages pageSize (pages ++ new))[n + k]? = some (extendSlot pageSize n lastLoc new 0 k) := by
  rw [getElem?_wholePages hps]
  have hidx : (n + k) / pageSize < (pages ++ new).length := (div_lt_iff_lt_mul hps).mpr hk
  unfold extendSlot
  split
  · rename_i hold
    have hq : (n + k) / pageSize < pages.length := by
      rw [hn]
      exact (div_lt_iff_lt_mul hps).mpr hold
    -- position `n - 1` is on the same page
    have hmod : n % pageSize ≠ 0 := by
      intro h0
      rw [← Nat.div_mul_cancel (Nat.dvd_of_mod_eq_zero h0), pageCount_mul hps] at hold
      omega
    obtain ⟨x, hx, rfl⟩ := hlast hmod
    have hdm := div_add_mod' n pageSize
    have hmlt := mod_lt n hps
    have hcomm := mul_comm pageSize (n / pageSize)
    have hj' : (n - 1) / pageSize = n / pageSize ∧ (n - 1) % pageSize = n % pageSize - 1 :=
      (Nat.div_mod_unique hps).mpr ⟨by omega, by omega⟩
    have hcount : pageCount pageSize n = n / pageSize + 1 := by
      rw [← hj'.1, ← pageCount_succ hps, Nat.sub_add_cancel (by omega)]
    rw [hcount, succ_mul] at hold
    have hj : (n + k) / pageSize = n / pageSize ∧ (n + k) % pageSize = n % pageSize + k :=
      (Nat.div_mod_unique hps).mpr ⟨by omega, by omega⟩
    rw [getElem?_wholePages hps, hj'.1, hj'.2] at hx
    obtain ⟨p, hp, rfl⟩ := Option.map_eq_some_iff.mp hx
    rw [hj.1] at hq
    rw [hj.1, hj.2, getElem?_append_left hq, hp]
    simp only [Option.map_some, Option.some.injEq]
    clear hlast hx hp
    omega
  · rename_i hnew
    have hge : pageCount pageSize n ≤ (n + k) / pageSize := (Nat.le_div_iff_mul_le hps).mpr (Nat.le_of_not_lt hnew)
    rw [length_append, hn] at hidx
    rw [getElem?_append_right (by omega), hn, zero_add, getElem?_eq_getElem (by omega), getD_eq_getElem _ _ (by omega)]
    rfl

end

/-- The slots that a chunk gets are those of new pages, after the rest of the last page. -/
theorem allocExtend_spec (hps : 0 < cfg.pageSize) {pool pool' : Pool} {t : View} {held : List NodeId} (h : pool.Ready cfg t held)
    {sched : Schedule} {prefixIndices out : List Nat} {seqLen : Nat} (hle : prefixIndices.length ≤ seqLen)
    (hcall : allocExtend cfg sched pool prefixIndices seqLen = .ok (pool', out)) :
    ∃ (t' : View) (new : List Nat), pool'.Ready cfg t' held ∧ (new : Multiset Nat) + pool'.pages cfg.pageSize t' =
    pool.pages cfg.pageSize t ∧
      new.length = pageCount cfg.pageSize seqLen - pageCount cfg.pageSize prefixIndices.length ∧
      out = (range (seqLen - prefixIndices.length)).map
        (extendSlot cfg.pageSize prefixIndices.length (lastLoc prefixIndices) new 0) ∧
      pool'.cache.rootNode = pool.cache.rootNode ∧ ∀ n ∈ t'.live, Stays pool.cache t pool'.cache t' n := by
  set len := prefixIndices.length
  unfold allocExtend at hcall
  dsimp only at hcall
  split at hcall
  · rename_i h1
    rcases h.allocTokenSlots hps (seqLen - len) with ⟨⟨e, he⟩, -⟩ | ⟨s', t', free, hok, ha, -⟩
    · rw [hcall] at he
      cases he
    rw [hcall] at hok
    cases hok
    have hle' := ha.le
    rw [h1, Nat.div_one] at ha hle' ⊢
    have hcount : ∀ n, pageCount 1 n = n := fun n => by simp [pageCount]
    refine ⟨t', free.take (seqLen - len), ha.ready, by rw [← h1]; exact ha.pages, ?_, ?_, ha.root, ha.stays⟩
    · rw [length_take, hcount, hcount, min_eq_left hle']
    rw [wholePages_one]
    apply ext_getElem?
    intro k
    by_cases hk : k < seqLen - len
    · rw [getElem?_map, getElem?_range hk, Option.map_some, extendSlot, if_neg (by rw [hcount]; omega), hcount,
        Nat.div_one, mod_one, mul_one, zero_add, add_zero, Nat.add_sub_cancel_left,
        getD_eq_getElem _ _ (by rw [length_take]; omega), getElem?_eq_getElem]
    · rw [getElem?_eq_none (by rw [length_take]; omega), getElem?_eq_none (by simpa using hk)]
  rename_i h1
  have hoff : offset (fun _ => seqLen - len) 1 = seqLen - len := by simp [offset]
  have hnum : getNumNewPages cfg.pageSize 1 (fun _ => len) (fun _ => seqLen) =
      pageCount cfg.pageSize seqLen - pageCount cfg.pageSize len := by simp [getNumNewPages, offset]
  rcases @Pool.Ready.allocPagedTokenSlotsExtend cfg pool t held hps h h1 sched 1 (fun _ => len) (fun _ => seqLen)
    (fun _ => lastLoc prefixIndices) (fun _ _ => hle) with ⟨⟨e, he⟩, -⟩ | ⟨s', t', free, out', hok, ha, hslots, -⟩
  · rw [hoff] at he
    rw [he] at hcall
    cases hcall
  rw [hoff] at hok
  rw [hok] at hcall
  cases hcall
  have hle' := ha.le
  rw [hnum] at hle'
  refine ⟨t', free.take (pageCount cfg.pageSize seqLen - pageCount cfg.pageSize len), ha.ready, by rw [← hnum]; exact ha.pages,
    by rw [length_take, min_eq_left hle'], ?_, ha.root, ha.stays⟩
  refine map_congr_left fun k hk => ?_
  have hk := mem_range.mp hk
  have hslot := hslots 0 one_pos k hk
  simp only [offset, range_zero, map_nil, sum_nil, zero_add] at hslot
  rw [hslot]
  unfold extendSlot
  split
  · rfl
  rename_i hnew
  have hge : pageCount cfg.pageSize len ≤ (len + k) / cfg.pageSize :=
    (Nat.le_div_iff_mul_le hps).mpr (Nat.le_of_not_lt hnew)
  have hlt : (len + k) / cfg.pageSize < pageCount cfg.pageSize seqLen := div_lt_pageCount hps (by omega)
  rw [getD_eq_getElem?_getD, getD_eq_getElem?_getD, getElem?_take, if_pos (by omega)]

/-! ## Live requests -/

/-- A request has a prefix, then a chunk, and then the chunk is cached before the next. -/
inductive Phase where
  | fresh
  | extended
  | cached
  deriving DecidableEq

structure Live where
  req : Req
  phase : Phase

/-- The length that the tree has for a request. -/
abbrev Live.matched (x : Live) : Nat := x.req.lastMatchedPrefixLen

/-- The length of the KV of a request. -/
def Live.len (x : Live) : Nat := if x.phase = .fresh then x.matched else x.req.fillIds.length

/-- The slots of a request: those on the way to its node, and then those of its own pages. -/
def kv (pageSize : Nat) (t : View) (x : Live) (pages : List Nat) : List Nat :=
  t.slots x.req.lastNode ++ (wholePages pageSize pages).take (x.len - x.matched)

/-- What the tree and its own `pages` hold for a request. The row of a request is that up to the
    length that the tree has for it; `clean` is when the rest of the row is, too. -/
structure Holds (cfg : Config) (clean : Prop) (m : Memory) (t : View) (x : Live) (pages : List Nat) : Prop where
  live : x.req.lastNode ∈ t.live
  space : InSpace m.pool.cache x.req.extraKey x.req.lastNode
  path : t.path x.req.lastNode = (keyTokens cfg x.req).take x.matched
  slots : (t.slots x.req.lastNode).length = x.matched
  matched : x.matched = oldPrefixLen cfg x.req / cfg.pageSize * cfg.pageSize
  le : x.matched ≤ x.len
  len_le : x.len ≤ x.req.tokenIds.length
  count : pages.length = pageCount cfg.pageSize (x.len - x.matched)
  pre : x.phase ≠ .extended → x.req.prefixIndices = kv cfg.pageSize t x pages
  filled : x.phase ≠ .fresh → x.req.fillIds = x.req.tokenIds.take x.len ∧ x.req.kvCommittedLen = x.len ∧ 0 < x.len ∧
    oldPrefixLen cfg x.req ≤ actualKvLen cfg x.len
  row : x.phase ≠ .fresh →
    (m.row x.req.reqPoolIdx x.len).drop x.matched = (kv cfg.pageSize t x pages).drop x.matched
  row_clean : x.phase ≠ .fresh → (x.phase = .extended ∨ clean) → m.row x.req.reqPoolIdx x.len = kv cfg.pageSize t x pages

/-- The prefix of the chunk ends with a page, or the tree holds no page for the key of the chunk that
    goes past `old_prefix_len`. -/
def Safe (cfg : Config) (m : Memory) (req : Req) : Prop :=
  cfg.pageSize ∣ oldPrefixLen cfg req ∨ ∀ p v,
    p <+: (insertKey cfg (radixKey req (req.fillIds.take (pageAlignedTokenLen cfg req.fillIds.length)))).tokenIds →
    Binds cfg.pageSize m.pool.cache req.extraKey p v → p.length ≤ oldPrefixLen cfg req

theorem kv_eq {pageSize : Nat} {t : View} {x : Live} {pages above : List Nat}
    (habove : t.slots x.req.lastNode = wholePages pageSize above)
    (hlen : above.length * pageSize = x.matched) (hle : x.matched ≤ x.len) :
    kv pageSize t x pages = (wholePages pageSize (above ++ pages)).take x.len := by
  have htake : (wholePages pageSize above).take x.len = wholePages pageSize above :=
    take_of_length_le (by rw [length_wholePages, hlen]; exact hle)
  unfold kv
  rw [habove, wholePages_append, take_append, htake, length_wholePages, hlen]

namespace Holds

variable {clean : Prop} {m m' : Memory} {t t' : View} {x : Live} {pages : List Nat}

section
variable (h : Holds cfg clean m t x pages)
include h

theorem frame (hroot : m'.pool.cache.rootNode = m.pool.cache.rootNode)
    (hstays : Stays m.pool.cache t m'.pool.cache t' x.req.lastNode)
    (hrow : x.phase ≠ .fresh → m'.reqToToken x.req.reqPoolIdx = m.reqToToken x.req.reqPoolIdx) :
    Holds cfg clean m' t' x pages := by
  have hkv : kv cfg.pageSize t' x pages = kv cfg.pageSize t x pages := by
    unfold kv
    rw [hstays.slots]
  have hrows : x.phase ≠ .fresh → m'.row x.req.reqPoolIdx x.len = m.row x.req.reqPoolIdx x.len := fun hph => by
    unfold Memory.row
    rw [hrow hph]
  refine ⟨hstays.live, h.space.imp (·.trans hroot.symm) hstays.extra.trans, hstays.path.trans h.path,
    by rw [hstays.slots]; exact h.slots, h.matched, h.le, h.len_le, h.count, ?_, h.filled, ?_, ?_⟩
  · rw [hkv]
    exact h.pre
  · intro hph
    rw [hkv, hrows hph]
    exact h.row hph
  · intro hph hc
    rw [hkv, hrows hph]
    exact h.row_clean hph hc

theorem dvd : cfg.pageSize ∣ x.matched := by
  rw [h.matched]
  exact dvd_mul_left _ _

theorem length_kv (hps : 0 < cfg.pageSize) : (kv cfg.pageSize t x pages).length = x.len := by
  unfold kv
  rw [length_append, h.slots, length_take, length_wholePages, h.count, min_eq_left (le_pageCount_mul hps _)]
  exact Nat.add_sub_cancel' h.le

/-- The prefix of a chunk ends where it was cached, or up to a token before that. -/
theorem old_bounds (hps : 0 < cfg.pageSize) :
    x.matched ≤ oldPrefixLen cfg x.req ∧ oldPrefixLen cfg x.req < x.matched + cfg.pageSize := by
  rw [h.matched]
  exact ⟨div_mul_le_self _ _, by rw [← succ_mul]; exact lt_mul_of_div_lt (lt_succ_self _) hps⟩

end

variable {held : List NodeId} {kvIndices : List Nat}

/-- The position after `k` pages past the matched prefix. -/
abbrev keptTo (cfg : Config) (x : Live) (k : Nat) : Nat := x.matched + k * cfg.pageSize

section
variable (h : Holds cfg clean m t x pages) (htail : kvIndices.drop x.matched = (kv cfg.pageSize t x pages).drop x.matched)
include h htail

/-- The slots from the matched length on. -/
theorem slice_eq {a b : Nat} (ha : x.matched ≤ a) (hb : b ≤ x.len) :
    slice kvIndices a b = ((wholePages cfg.pageSize pages).take (b - x.matched)).drop (a - x.matched) := by
  have hkv : (kv cfg.pageSize t x pages).drop x.matched =
      (wholePages cfg.pageSize pages).take (x.len - x.matched) := drop_left' h.slots
  unfold slice
  rw [show a = x.matched + (a - x.matched) by omega, ← drop_drop, drop_take, htail, hkv,
    take_take, Nat.add_sub_cancel_left, min_eq_left (by omega)]

/-- The duplicates up to a page end. -/
theorem pagesOf_front (hps : 0 < cfg.pageSize) (hnd : pages.Nodup) {k : Nat} (hk : keptTo cfg x k ≤ x.len) :
    (pagesOf cfg.pageSize (slice kvIndices (oldPrefixLen cfg x.req) (keptTo cfg x k))).Perm
      (pages.take k) := by
  obtain ⟨h1, h2⟩ := h.old_bounds hps
  unfold keptTo at hk ⊢
  rw [h.slice_eq htail h1 hk, Nat.add_sub_cancel_left]
  refine Memory.pagesOf_front hps hnd (by omega) ?_
  rw [h.count, ← pageCount_mul hps k]
  exact pageCount_mono (by omega)

/-- What comes after a page end. -/
theorem pagesOf_back (hps : 0 < cfg.pageSize) (hnd : pages.Nodup) (hlen : kvIndices.length = x.len) {k : Nat}
    (hk : keptTo cfg x k ≤ x.len) : (pagesOf cfg.pageSize (kvIndices.drop (keptTo cfg x k))).Perm (pages.drop k) := by
  unfold keptTo at hk
  have hslice : kvIndices.drop (keptTo cfg x k) = slice kvIndices (keptTo cfg x k) x.len := by
    unfold slice
    rw [take_of_length_le (le_of_eq hlen)]
  rw [hslice, h.slice_eq htail (Nat.le_add_right _ _) (le_refl _), Nat.add_sub_cancel_left]
  exact Memory.pagesOf_back hps hnd (by omega) h.count

end

section
variable (h : Holds cfg clean m t x pages)
include h

theorem tree_pages (hr : m.pool.Ready cfg t held) :
    ∃ above : List Nat, t.slots x.req.lastNode = wholePages cfg.pageSize above ∧ above.length * cfg.pageSize = x.matched ∧
      kv cfg.pageSize t x pages = (wholePages cfg.pageSize (above ++ pages)).take x.len := by
  obtain ⟨above, habove⟩ := hr.whole.slots hr.wf _ (hr.wf.live_known _ h.live) h.live
  have hlen : above.length * cfg.pageSize = x.matched := by rw [← length_wholePages, ← habove, h.slots]
  exact ⟨above, habove, hlen, kv_eq habove hlen h.le⟩

/-- The insertion that ends a chunk: the tree takes the pages that it did not have, and the
    others are given back. -/
theorem insert (hps : 0 < cfg.pageSize) (hd : cfg.disable = false) (hr : m.pool.Ready cfg t held) (hph : x.phase ≠ .fresh)
    (hnd : pages.Nodup) (hlen : kvIndices.length = x.len)
    (htail : kvIndices.drop x.matched = (kv cfg.pageSize t x pages).drop x.matched) :
    ∃ c t1 k b, RadixCache.insert cfg m.pool.cache
        (radixKey x.req ((x.req.tokenIds.take x.len).take (pageAlignedTokenLen cfg x.len))) (pageAlignedKvIndices cfg kvIndices) =
          .ok (c, keptTo cfg x k) ∧
      pageAlignedLen cfg x.len = keptTo cfg x b ∧ k ≤ b ∧
      Inserted cfg.pageSize m.pool.cache t ⟨(keyTokens cfg x.req).take (pageAlignedLen cfg x.len), x.req.extraKey⟩
        ((kv cfg.pageSize t x pages).take (pageAlignedLen cfg x.len)) c t1 (keptTo cfg x k) ∧
      (({ m.pool with cache := c } : Pool).free
        (slice kvIndices (oldPrefixLen cfg x.req) (keptTo cfg x k))).Ready cfg t1 held ∧
      (({ m.pool with cache := c } : Pool).free
        (slice kvIndices (oldPrefixLen cfg x.req) (keptTo cfg x k))).pages cfg.pageSize t1 =
          (pages.take b : List Nat) + m.pool.pages cfg.pageSize t := by
  obtain ⟨-, -, hpos, hold⟩ := h.filled hph
  obtain ⟨hkey, hkeylen⟩ := @radixKey_aligned cfg x.req x.len hpos h.len_le
  have hPA := pageAlignedLen_le_self cfg x.len
  have hge : x.matched ≤ pageAlignedLen cfg x.len := by
    rw [h.matched, pageAlignedLen_eq]
    exact Nat.mul_le_mul_right _ (Nat.div_le_div_right hold)
  have hdvd := dvd_pageAlignedLen cfg x.len
  -- the walk comes at least as far as the node of the request
  have hvlen : (pageAlignedKvIndices cfg kvIndices).length = pageAlignedLen cfg x.len ∨
      (cfg.isEagle = true ∧ pageAlignedLen cfg x.len ≤ (pageAlignedKvIndices cfg kvIndices).length) := by
    unfold pageAlignedKvIndices
    split
    · rw [length_take, hlen, min_eq_left hPA]
      exact .inl rfl
    rename_i h1
    rw [hlen, pageAlignedLen, if_neg h1, actualKvLen]
    split
    · exact .inr ⟨by assumption, by omega⟩
    · exact .inl rfl
  have hvtake : (pageAlignedKvIndices cfg kvIndices).take (pageAlignedLen cfg x.len) =
    kvIndices.take (pageAlignedLen cfg x.len) := by
    unfold pageAlignedKvIndices
    split
    · rw [hlen, take_take, min_self]
    · rfl
  have hspec := @RadixCache.insert_spec cfg m.pool.cache t (pageAlignedKvIndices cfg kvIndices) hps hd hr.wf
    (radixKey x.req ((x.req.tokenIds.take x.len).take (pageAlignedTokenLen cfg x.len)))
  rw [hkey, len, hkeylen, hvtake] at hspec
  obtain ⟨c, t1, r, hcall, hins⟩ := hspec hvlen
  obtain ⟨hrge, hrle, hrdvd⟩ := hins.ge hr.wf hr.aligned hps (by rw [len, hkeylen]; exact hdvd) h.live h.space
    (by rw [h.path]; exact take_prefix_take_left hge)
  rw [← hr.wf.slots_length _ (hr.wf.live_known _ h.live), h.slots] at hrge
  rw [len, hkeylen] at hrle
  obtain ⟨k, rfl⟩ : ∃ k, r = x.matched + k * cfg.pageSize := by
    obtain ⟨k, hk⟩ := (dvd_sub_iff_left hrge h.dvd).mpr hrdvd
    exact ⟨k, by rw [mul_comm, ← hk]; omega⟩
  obtain ⟨b, hb⟩ : ∃ b, pageAlignedLen cfg x.len = x.matched + b * cfg.pageSize := by
    obtain ⟨b, hb⟩ := (dvd_sub_iff_left hge h.dvd).mpr hdvd
    exact ⟨b, by rw [mul_comm, ← hb]; omega⟩
  have hkb : k ≤ b := le_of_mul_le_mul_right (by omega) hps
  have hdrop : (kvIndices.take (pageAlignedLen cfg x.len)).drop (keptTo cfg x k) =
      ((kv cfg.pageSize t x pages).take (pageAlignedLen cfg x.len)).drop (keptTo cfg x k) := by
    rw [drop_take, drop_take, ← drop_drop, htail, drop_drop]
  have hins := hins.congr hdrop
  refine ⟨c, t1, k, b, hcall, hb, hkb, hins, ?_⟩
  obtain ⟨above, -, habove, hkv⟩ := h.tree_pages hr
  have hq : pageAlignedLen cfg x.len = (above.length + b) * cfg.pageSize := by rw [hb, ← habove, add_mul]
  have hvalue : (kv cfg.pageSize t x pages).take (pageAlignedLen cfg x.len) =
    wholePages cfg.pageSize (above ++ pages.take b) := by
    rw [hkv, take_take, min_eq_left hPA, hq, take_wholePages, take_length_add_append]
  have hbl : b ≤ pages.length := by
    rw [h.count, ← pageCount_mul hps b]
    exact pageCount_mono (by omega)
  have hdrop : (above ++ pages.take b).drop (keptTo cfg x k / cfg.pageSize) = (pages.take b).drop k := by
    rw [keptTo, ← habove, ← add_mul, Nat.mul_div_cancel _ hps, drop_length_add_append]
  rw [hvalue] at hins
  obtain ⟨hready, hpages⟩ := hr.inserted hps hd (by rw [len, hkeylen]; exact hdvd)
    (by rw [len, hkeylen, hq, length_append, length_take, min_eq_left hbl]) hins
    (by rw [hdrop]; exact hnd.sublist ((drop_sublist _ _).trans (take_sublist _ _)))
  obtain ⟨hfree, hfreed⟩ := hready.free (slice kvIndices (oldPrefixLen cfg x.req) (keptTo cfg x k))
  have htk : pages.take k = (pages.take b).take k := by rw [take_take, min_eq_left hkb]
  refine ⟨hfree, ?_⟩
  rw [hfreed, hpages, hdrop, coe_eq_coe.mpr (h.pagesOf_front htail hps hnd (by unfold keptTo; omega)), ← add_assoc, coe_add,
    htk, take_append_drop]

/-- A request that ends gives back its own pages, or leaves them in the tree. -/
theorem finished (hps : 0 < cfg.pageSize) (hd : cfg.disable = false)
    (hr : m.pool.Ready cfg t (x.req.lastNode :: held)) (hph : x.phase ≠ .fresh) (hnd : pages.Nodup)
    (isInsert : Bool) : ∃ m' t', cacheFinishedReq cfg m x.req isInsert = .ok m' ∧ m'.reqToToken = m.reqToToken ∧
      m'.pool.Ready cfg t' held ∧ m'.pool.pages cfg.pageSize t' = (pages : Multiset Nat) + m.pool.pages cfg.pageSize t ∧
      m'.pool.cache.rootNode = m.pool.cache.rootNode ∧ ∀ n ∈ t.live, Stays m.pool.cache t m'.pool.cache t' n := by
  obtain ⟨-, hkvlen, -, -⟩ := h.filled hph
  obtain ⟨c, t1, k, b, hcall, hb, -, hins, hready, hpages⟩ := h.insert hps hd hr hph hnd (length_row m _ _) (h.row hph)
  have hPA : keptTo cfg x b ≤ x.len := by
    rw [← hb]
    exact pageAlignedLen_le_self cfg _
  -- in both cases the pages up to the last whole one are in the tree or free
  obtain ⟨pool1, t1, hpool, hready1, hpages1, hroot1, hstays1⟩ : ∃ pool1 t1,
      insertOrFree cfg m x.req (x.req.tokenIds.take x.len) (m.row x.req.reqPoolIdx x.len) isInsert = .ok pool1 ∧
      pool1.Ready cfg t1 (x.req.lastNode :: held) ∧ pool1.pages cfg.pageSize t1 = (pages.take b : List Nat) +
      m.pool.pages cfg.pageSize t ∧
      pool1.cache.rootNode = m.pool.cache.rootNode ∧ ∀ n ∈ t.live, Stays m.pool.cache t pool1.cache t1 n := by
    unfold insertOrFree
    rw [length_row]
    cases isInsert with
    | true =>
      refine ⟨_, t1, ?_, hready, hpages, hins.root, hins.stays hps hr.wf⟩
      rw [if_pos rfl, hcall]
      rfl
    | false =>
      obtain ⟨hfree, hfreed⟩ := hr.free (slice (m.row x.req.reqPoolIdx x.len) (oldPrefixLen cfg x.req) (pageAlignedLen cfg x.len))
      refine ⟨_, t, rfl, hfree, ?_, rfl, fun n hn => .refl hn⟩
      rw [hfreed, hb, coe_eq_coe.mpr (h.pagesOf_front (h.row hph) hps hnd hPA)]
  obtain ⟨hready2, hpages2⟩ := hready1.free ((m.row x.req.reqPoolIdx x.len).drop (pageAlignedLen cfg x.len))
  obtain ⟨c3, d, hdec, hready3, hpages3, hsame⟩ := hready2.decLockRef hd mem_cons_self
  rw [erase_cons_head] at hready3
  refine ⟨{ m with pool :=
      { pool1.free ((m.row x.req.reqPoolIdx x.len).drop (pageAlignedLen cfg x.len)) with cache := c3 } }, t1, ?_, rfl,
    hready3, ?_, hsame.root.trans hroot1, fun n hn => (hstays1 n hn).trans (hsame.stays (hstays1 n hn).live)⟩
  · unfold cacheFinishedReq
    rw [hkvlen]
    simp only [hd, Bool.false_eq_true, if_false]
    rw [hpool]
    simp only [ok_bind]
    rw [hdec]
    rfl
  · rw [hpages3, hpages2, hpages1, hb, coe_eq_coe.mpr (h.pagesOf_back (h.row hph) hps hnd (length_row m _ _) hPA), ← add_assoc,
      coe_add, coe_eq_coe.mpr perm_append_comm, take_append_drop]

end

/-- The slots that a lookup finds after the insertion of a chunk. -/
structure Refound (cfg : Config) (t : View) (x : Live) (pages : List Nat) (k b : Nat) (new : List Nat) : Prop where
  length : new.length = keptTo cfg x b
  front : new.take x.matched = t.slots x.req.lastNode
  back : new.drop (keptTo cfg x k) = ((kv cfg.pageSize t x pages).take (keptTo cfg x b)).drop (keptTo cfg x k)

variable {k b : Nat} {new : List Nat}

section
variable (hps : 0 < cfg.pageSize) (h : Holds cfg clean m t x pages)
include hps h

section
variable {c : RadixCache} {t1 : View} (hr : m.pool.Ready cfg t held) (hpos : 0 < x.len)
  (hins : Inserted cfg.pageSize m.pool.cache t ⟨(keyTokens cfg x.req).take (pageAlignedLen cfg x.len), x.req.extraKey⟩
    ((kv cfg.pageSize t x pages).take (pageAlignedLen cfg x.len)) c t1 (keptTo cfg x k))
include hr hpos hins

theorem safe_iff (hfill : x.req.fillIds = x.req.tokenIds.take x.len) :
    Safe cfg m x.req ↔ cfg.pageSize ∣ oldPrefixLen cfg x.req ∨ k = 0 := by
  obtain ⟨hkey, hkeylen⟩ := @radixKey_aligned cfg x.req x.len hpos h.len_le
  obtain ⟨map, hmap⟩ := exists_represents hr.wf hr.aligned
  -- the insertion reports the longest part of the key that the tree has
  obtain ⟨-, hlongest⟩ := hmap.inserted hr.aligned hps hr.wf
    (by rw [hkeylen, length_take, h.length_kv hps, min_eq_left (pageAlignedLen_le_self cfg _)])
    (by rw [len, hkeylen]; exact dvd_pageAlignedLen cfg _) hins
  have hk : keptTo cfg x k ≤ oldPrefixLen cfg x.req ↔ k = 0 := by
    obtain ⟨hge, hlt⟩ := h.old_bounds hps
    refine ⟨fun hle => Nat.eq_zero_of_not_pos fun hk => ?_, fun hk => by rw [keptTo, hk, zero_mul]; exact hge⟩
    have := Nat.le_mul_of_pos_left cfg.pageSize hk
    unfold keptTo at hle
    omega
  rw [Safe, hfill, length_take, min_eq_left h.len_le, hkey, ← hk, ← hlongest, map.longest_le_iff _ _ hps]
  simp only [hmap _ _ _]

theorem refound {c2 : RadixCache} {t2 : View} {n : NodeId} (hb : pageAlignedLen cfg x.len = keptTo cfg x b)
    (al1 : AlignedTree cfg.pageSize c) (hsteps : Steps cfg.pageSize c t1 c2 t2)
    (hstops : Stops cfg.pageSize c2 t2 ⟨(keyTokens cfg x.req).take (pageAlignedLen cfg x.len), x.req.extraKey⟩ n) :
    t2.path n = (keyTokens cfg x.req).take (pageAlignedLen cfg x.len) ∧ Refound cfg t x pages k b (t2.slots n) := by
  obtain ⟨-, hkeylen⟩ := @radixKey_aligned cfg x.req x.len hpos h.len_le
  have hdvd := dvd_pageAlignedLen cfg x.len
  obtain ⟨y, hy, hyspace, hypath, hyslots⟩ := hins.holds hps hr.wf hr.aligned (by rw [len, hkeylen]; exact hdvd)
    (by rw [len, hkeylen, length_take, h.length_kv hps, min_eq_left (pageAlignedLen_le_self cfg _)])
  have w1 := hins.wf hps hr.wf
  have w2 := hsteps.wf hps w1
  have al2 := hsteps.aligned hps w1 al1
  have hystays := hsteps.stays hps w1 y hy
  have hyspace2 : InSpace c2 x.req.extraKey y := hyspace.imp (·.trans hsteps.root.symm) hystays.extra.trans
  obtain ⟨hpath, hslots⟩ := hstops.full hps w2 al2 hystays.live hyspace2 (hystays.path.trans hypath)
  have hstays := (hins.stays hps hr.wf _ h.live).trans (hsteps.stays hps w1 _ (hins.stays hps hr.wf _ h.live).live)
  have hspace2 : InSpace c2 x.req.extraKey x.req.lastNode :=
    h.space.imp (·.trans (hsteps.root.trans hins.root).symm) hstays.extra.trans
  have hplen : (t.path x.req.lastNode).length = x.matched := by
    rw [← hr.wf.slots_length _ (hr.wf.live_known _ h.live), h.slots]
  refine ⟨hpath, ?_, ?_, ?_⟩
  · rw [w2.slots_length n (w2.live_known n hstops.live), hpath, hkeylen, hb]
  · have hfront := w2.slots_prefix al2 hstops.live hstays.live (hstops.extra.imp_right Eq.symm) hspace2 (by
      rw [hstays.path, h.path, hpath, hb]
      exact take_prefix_take_left (Nat.le_add_right _ _))
    rwa [hstays.path, hstays.slots, hplen] at hfront
  · rw [hslots, hystays.slots, hyslots, hb]

end

omit hps in
/-- The slots after the chunk is cached. -/
theorem kv_drop (b : Nat) : (kv cfg.pageSize t x pages).drop (keptTo cfg x b) =
    (wholePages cfg.pageSize (pages.drop b)).take (x.len - keptTo cfg x b) := by
  unfold kv
  rw [← drop_drop, drop_left' h.slots, drop_take, drop_wholePages, Nat.sub_sub]

/-- The row is the slots that were found and then its own, unless the part of a page before
    `old_prefix_len` is of a page that was given back. -/
theorem Refound.row (hrow : m.row x.req.reqPoolIdx x.len = kv cfg.pageSize t x pages)
    (hle : keptTo cfg x b ≤ x.len) (hf : Refound cfg t x pages k b new) :
    let row := (m.write x.req.reqPoolIdx (oldPrefixLen cfg x.req) (new.drop (oldPrefixLen cfg x.req))).row x.req.reqPoolIdx x.len
    row.drop new.length = (kv cfg.pageSize t x pages).drop new.length ∧
    (cfg.pageSize ∣ oldPrefixLen cfg x.req ∨ k = 0 → row = new ++ (kv cfg.pageSize t x pages).drop new.length) := by
  intro row
  have hlen := h.length_kv hps
  rw [← hf.length] at hle
  have hget : ∀ j < x.len, row[j]? =
      if oldPrefixLen cfg x.req ≤ j ∧ j < new.length then new[j]? else (kv cfg.pageSize t x pages)[j]? := fun j hj => by
    rw [← hrow]
    exact getElem?_row_write m _ _ hj
  have hdrop : row.drop new.length = (kv cfg.pageSize t x pages).drop new.length := by
    apply ext_getElem?
    intro j
    rw [getElem?_drop, getElem?_drop]
    by_cases hj : new.length + j < x.len
    · rw [hget _ hj, if_neg (by omega)]
    · rw [getElem?_eq_none (by simpa [row] using hj), getElem?_eq_none (by omega)]
  refine ⟨hdrop, fun hsafe => ?_⟩
  rw [← hdrop]
  conv_lhs => rw [← take_append_drop new.length row]
  congr 1
  apply ext_getElem?
  intro j
  by_cases hj : j < new.length
  · rw [getElem?_take, if_pos hj, hget j (by omega)]
    split
    · rfl
    rename_i hlt
    by_cases hm : j < x.matched
    · have h1 : new[j]? = (t.slots x.req.lastNode)[j]? := by rw [← hf.front, getElem?_take, if_pos hm]
      rw [h1, kv, getElem?_append_left (by rw [h.slots]; exact hm)]
    -- the walk of the insertion came no further than the request's node
    have hk : k = 0 := by
      refine hsafe.resolve_left fun hdvd => ?_
      have := h.matched
      rw [Nat.div_mul_cancel hdvd] at this
      omega
    have hback := congrArg (fun l => l[j - x.matched]?) hf.back
    simp only [keptTo, hk, Nat.zero_mul, Nat.add_zero, getElem?_drop, Nat.add_sub_cancel' (Nat.le_of_not_lt hm)] at hback
    rw [hback, getElem?_take, if_pos (by rw [hf.length] at hj; exact hj)]
  · rw [getElem?_eq_none (by rw [length_take]; omega), getElem?_eq_none (by omega)]

/-- Otherwise the row keeps a slot of that page. -/
theorem stale_slot (hr : m.pool.Ready cfg t held) (hph : x.phase ≠ .fresh) (hnd : pages.Nodup)
    (hrow : m.row x.req.reqPoolIdx x.len = kv cfg.pageSize t x pages) (hndvd : ¬ cfg.pageSize ∣ oldPrefixLen cfg x.req)
    (hk : 0 < k) (hle : keptTo cfg x k ≤ x.len) (c : RadixCache) (values : List Nat) : ∃ j < x.len,
      (m.write x.req.reqPoolIdx (oldPrefixLen cfg x.req) values).reqToToken x.req.reqPoolIdx j / cfg.pageSize ∈
        (({ m.pool with cache := c } : Pool).free
          (slice (m.row x.req.reqPoolIdx x.len) (oldPrefixLen cfg x.req) (keptTo cfg x k))).allocator.allFree := by
  have hlt : x.matched < oldPrefixLen cfg x.req :=
    lt_of_le_of_ne (h.old_bounds hps).1 fun he => hndvd (he ▸ h.dvd)
  have hlen : x.matched < x.len := by
    have := Nat.mul_pos hk hps
    unfold keptTo at hle
    omega
  have hget : (kv cfg.pageSize t x pages)[x.matched]? = some (m.reqToToken x.req.reqPoolIdx x.matched) := by
    rw [← hrow]
    exact getElem?_row m _ hlen
  unfold kv at hget
  rw [getElem?_append_right (by rw [h.slots]), h.slots, Nat.sub_self, getElem?_take, if_pos (by omega), getElem?_wholePages hps,
    Nat.zero_div, Nat.zero_mod] at hget
  obtain ⟨p, hp, hx⟩ := Option.map_eq_some_iff.mp hget
  refine ⟨x.matched, hlen, ?_⟩
  unfold write
  dsimp only
  rw [if_neg (by omega), ← hx, add_zero, Nat.mul_div_cancel p hps]
  -- the first page of the request is among those given back
  refine (free_perm hr.notInFreeGroup _).mem_iff.mpr (mem_append_left _ ?_)
  rw [hr.pageSize]
  refine (h.pagesOf_front (h.row hph) hps hnd hle).mem_iff.mpr ?_
  exact mem_iff_getElem?.mpr ⟨0, by rw [getElem?_take, if_pos hk]; exact hp⟩

/-- The request after its chunk is cached, when the tree has the slots `new` for it at node `n`. -/
def recached (cfg : Config) (m : Memory) (req : Req) (new : List Nat) (n : NodeId) : Req :=
  let kvIndices := m.row req.reqPoolIdx req.fillIds.length
  { req with
    lastMatchedPrefixLen := new.length
    prefixIndices := if cfg.pageSize ≠ 1 then new ++ kvIndices.drop new.length
      else if cfg.isEagle then new ++ kvIndices.drop (actualKvLen cfg req.fillIds.length) else new
    lastNode := n }

section
variable (hph : x.phase = .extended) (hb : pageAlignedLen cfg x.len = keptTo cfg x b) (hf : Refound cfg t x pages k b new)
  (hrow : (m'.row x.req.reqPoolIdx x.len).drop new.length = (kv cfg.pageSize t x pages).drop new.length)
include hph hb hf hrow

/-- The prefix of the next chunk, and where it begins to be written. -/
theorem Refound.recached (n : NodeId) : (recached cfg m' x.req new n).prefixIndices =
    new ++ (kv cfg.pageSize t x pages).drop new.length ∧
    oldPrefixLen cfg (Holds.recached cfg m' x.req new n) = actualKvLen cfg x.len := by
  have hlen : x.req.fillIds.length = x.len := by simp [Live.len, hph]
  have hnew : new.length = pageAlignedLen cfg x.len := hf.length.trans hb.symm
  have hle := pageAlignedLen_le cfg x.len
  have hpre : (Holds.recached cfg m' x.req new n).prefixIndices = new ++ (kv cfg.pageSize t x pages).drop new.length := by
    unfold Holds.recached
    dsimp only
    rw [hlen, ← hrow]
    split
    · rfl
    rename_i h1
    have hactual : actualKvLen cfg x.len = new.length := by rw [hnew, pageAlignedLen, if_neg h1]
    split
    · rw [hactual]
    rename_i he
    rw [drop_of_length_le, append_nil]
    rw [length_row, ← hactual, actualKvLen, if_neg he]
  refine ⟨hpre, ?_⟩
  have hactual := actualKvLen_le cfg x.len
  have hprelen : (Holds.recached cfg m' x.req new n).prefixIndices.length = x.len := by
    rw [hpre, length_append, length_drop, h.length_kv hps]
    omega
  unfold oldPrefixLen
  rw [hprelen, show (Holds.recached cfg m' x.req new n).lastMatchedPrefixLen = pageAlignedLen cfg x.len from hnew]
  unfold actualKvLen at hle hactual ⊢
  split at hle
  · rename_i he
    have := (h.filled (by simp [hph])).2.2.1
    rw [if_pos ⟨he, by omega⟩, if_pos he]
  · rename_i he
    rw [if_neg fun hc => he hc.1, if_neg he]

theorem Refound.holds {n : NodeId} {clean' : Prop} (hlive : n ∈ t'.live) (hspace : InSpace m'.pool.cache x.req.extraKey n)
    (hpath : t'.path n = (keyTokens cfg x.req).take (pageAlignedLen cfg x.len)) (hslots : t'.slots n = new)
    (hclean : clean' → m'.row x.req.reqPoolIdx x.len = new ++ (kv cfg.pageSize t x pages).drop new.length) :
    Holds cfg clean' m' t' ⟨Holds.recached cfg m' x.req new n, .cached⟩ (pages.drop b) := by
  subst hslots
  obtain ⟨hpre, hold⟩ := hf.recached hps h hph hb hrow n
  obtain ⟨hfill, hcommitted, hpos, -⟩ := h.filled (by simp [hph])
  have hlen : (⟨Holds.recached cfg m' x.req (t'.slots n) n, .cached⟩ : Live).len = x.len :=
    by simp [Live.len, hph, Holds.recached]
  have hnew : (t'.slots n).length = pageAlignedLen cfg x.len := hf.length.trans hb.symm
  have hPA := pageAlignedLen_le_self cfg x.len
  have hkv : kv cfg.pageSize t' ⟨Holds.recached cfg m' x.req (t'.slots n) n, .cached⟩ (pages.drop b) =
      t'.slots n ++ (kv cfg.pageSize t x pages).drop (t'.slots n).length := by
    rw [hf.length, h.kv_drop, ← hf.length, kv, hlen]
    rfl
  refine ⟨hlive, hspace, ?_, rfl, ?_, ?_, ?_, ?_, fun _ => hpre.trans hkv.symm, fun _ => ?_, fun _ => ?_, fun _ hc => ?_⟩
  · rw [← hnew] at hpath
    exact hpath
  · rw [hold, ← pageAlignedLen_eq]
    exact hnew
  · rw [hlen]
    exact hnew.trans_le hPA
  · rw [hlen]
    exact h.len_le
  · rw [hlen, length_drop, h.count]
    show _ = pageCount cfg.pageSize (x.len - (t'.slots n).length)
    have hle := h.le
    have hlen' := hf.length
    unfold keptTo at hlen'
    rw [show x.len - x.matched = b * cfg.pageSize + (x.len - (t'.slots n).length) by omega, pageCount_add hps]
    omega
  · rw [hlen, hold]
    exact ⟨hfill, hcommitted, hpos, le_refl _⟩
  · rw [hlen, hkv]
    exact hrow.trans (drop_left' rfl).symm
  · rw [hlen, hkv]
    exact hclean (hc.resolve_left (by simp))

end

/-- After a chunk is cached the tree or the request has its pages. Its row is clean exactly if the call was safe. -/
theorem unfinished (hd : cfg.disable = false)
    (hr : m.pool.Ready cfg t (x.req.lastNode :: held)) (hph : x.phase = .extended) (hnd : pages.Nodup) :
    ∃ m' req' t' rest, cacheUnfinishedReq cfg m x.req = .ok (m', req') ∧ m'.pool.Ready cfg t' (req'.lastNode :: held) ∧
      m'.pool.pages cfg.pageSize t' + (rest : List Nat) = m.pool.pages cfg.pageSize t + (pages : List Nat) ∧
      m'.pool.cache.rootNode = m.pool.cache.rootNode ∧ (∀ n ∈ t.live, Stays m.pool.cache t m'.pool.cache t' n) ∧
      (∀ i ≠ x.req.reqPoolIdx, m'.reqToToken i = m.reqToToken i) ∧ req'.reqPoolIdx = x.req.reqPoolIdx ∧
      req'.fillIds = x.req.fillIds ∧
      (∀ clean' : Prop, (clean' → Safe cfg m x.req) → Holds cfg clean' m' t' ⟨req', .cached⟩ rest) ∧
      (¬ Safe cfg m x.req → ∃ j < x.req.fillIds.length, m'.reqToToken x.req.reqPoolIdx j / cfg.pageSize ∈
      m'.pool.allocator.allFree) := by
  have hne : x.phase ≠ .fresh := by simp [hph]
  have hxlen : x.len = x.req.fillIds.length := by simp [Live.len, hph]
  obtain ⟨hfill, -, hpos, -⟩ := h.filled hne
  have hrow := h.row_clean hne (.inl hph)
  obtain ⟨hkey, hkeylen⟩ := @radixKey_aligned cfg x.req x.len hpos h.len_le
  have hPA := pageAlignedLen_le_self cfg x.len
  -- the insertion and the lookup of what it left
  obtain ⟨c, t1, k, b, hcall, hb, hkb, hins, hr1, hpages1⟩ := h.insert hps hd hr hne hnd (length_row m _ _) (h.row hne)
  have hsafe := h.safe_iff hps hr hpos hins hfill
  rw [← hfill] at hkey hcall
  obtain ⟨c2, t2, n, hmatch, hsteps, hn, hfound⟩ := matchPrefix_spec hps hd hr1.wf
    (radixKey x.req (x.req.fillIds.take (pageAlignedTokenLen cfg x.len)))
  have hstops := hfound hr1.aligned
  rw [lookupKey_eq (by rw [hkey, len, hkeylen]; exact dvd_pageAlignedLen cfg _), hkey] at hstops
  obtain ⟨hpath, hf⟩ := h.refound hps hr hpos hins hb hr1.aligned hsteps hstops
  obtain ⟨hr2, hpages2⟩ := hr1.steps hps hd hsteps
  -- the lock goes from the old node to the new one
  obtain ⟨c3, d3, hdec, hr3, hpages3, hsame3⟩ := hr2.decLockRef hd mem_cons_self
  rw [erase_cons_head] at hr3
  obtain ⟨c4, d4, hinc, hr4, hpages4, hsame4⟩ := hr3.incLockRef hd hn
  have hsame := hsame3.trans hsame4
  obtain ⟨hrow1, hrow2⟩ := hf.row hps h hrow (hb ▸ hPA)
  set pool1 := ({ m.pool with cache := c } : Pool).free
    (slice (m.row x.req.reqPoolIdx x.len) (oldPrefixLen cfg x.req) (keptTo cfg x k)) with hpool1
  set m' : Memory := ((({ m with pool := pool1 } : Memory).withCache c2).write x.req.reqPoolIdx (oldPrefixLen cfg x.req)
    ((t2.slots n).drop (oldPrefixLen cfg x.req))).withCache c4
  refine ⟨m', recached cfg m' x.req (t2.slots n) n, t2, pages.drop b, ?_, hr4, ?_, hsame.root.trans (hsteps.root.trans hins.root),
    fun y hy => ?_, fun i hi => write_other _ hi _ _, rfl, rfl, fun clean' hc => ?_, fun hunsafe => ?_⟩
  · unfold cacheUnfinishedReq
    simp only [hd, Bool.false_eq_true, if_false]
    rw [← hxlen, hcall]
    simp only [ok_bind]
    rw [show matchPrefix cfg pool1.cache _ = _ from hmatch]
    simp only [ok_bind, withCache, write]
    rw [hdec]
    simp only [ok_bind]
    rw [hinc, recached, ← hxlen]
    rfl
  · show Pool.pages cfg.pageSize { pool1 with cache := c4 } t2 + _ = _
    rw [hpages4, hpages3, hpages2, hpages1, add_comm (_ : Multiset Nat) (m.pool.pages cfg.pageSize t), add_assoc, coe_add,
      take_append_drop]
  · have h1 := (hins.stays hps hr.wf y hy).trans (hsteps.stays hps hr1.wf y (hins.stays hps hr.wf y hy).live)
    exact h1.trans (hsame.stays h1.live)
  · exact hf.holds hps h hph hb (show (m'.row x.req.reqPoolIdx x.len).drop _ = _ from hrow1) hn
      (hstops.extra.imp (·.trans hsame.root.symm) fun hs => (congrArg _ (hsame.key n)).trans hs.symm) hpath rfl
      fun hcl => hrow2 (hsafe.mp (hc hcl))
  · rw [hsafe, not_or] at hunsafe
    rw [← hxlen]
    refine h.stale_slot hps hr hne hnd hrow hunsafe.1 (pos_of_ne_zero hunsafe.2) ?_ c _
    have := mul_le_mul_right cfg.pageSize hkb
    unfold keptTo at hb ⊢
    omega

end

theorem lastLoc_eq {l : List Nat} (h : l ≠ []) : ∃ y : Nat, l[l.length - 1]? = some y ∧ lastLoc l = y := by
  refine ⟨l.getLast h, ?_, ?_⟩
  · rw [← getLast?_eq_getElem?, getLast?_eq_getLast_of_ne_nil h]
  · unfold lastLoc
    rw [getLast?_eq_getLast_of_ne_nil h]

/-- A chunk fills up the last page of a request and then new ones. -/
theorem extended (hps : 0 < cfg.pageSize) (hr : m.pool.Ready cfg t held) (hheld : x.req.lastNode ∈ held)
    (h : Holds cfg clean m t x pages) (hph : x.phase ≠ .extended) {sched : Schedule} {idx n : Nat} (hn : 0 < n)
    (hle : x.req.prefixIndices.length + n ≤ x.req.tokenIds.length) {req' : Req} (hcall : extend cfg sched m x.req idx n =
    .ok (m', req')) :
    ∃ (t' : View) (new : List Nat), m'.pool.Ready cfg t' held ∧
      (new : Multiset Nat) + m'.pool.pages cfg.pageSize t' = m.pool.pages cfg.pageSize t ∧
      m'.pool.cache.rootNode = m.pool.cache.rootNode ∧ (∀ n ∈ t'.live, Stays m.pool.cache t m'.pool.cache t' n) ∧
      (∀ i ≠ idx, m'.reqToToken i = m.reqToToken i) ∧ req'.reqPoolIdx = idx ∧ req'.lastNode = x.req.lastNode ∧
      ∀ clean' : Prop, Holds cfg clean' m' t' ⟨req', .extended⟩ (pages ++ new) := by
  have hpre := h.pre hph
  have hplen : x.req.prefixIndices.length = x.len := by rw [hpre, h.length_kv hps]
  have hfill : (x.req.tokenIds.take (x.req.prefixIndices.length + n)).length = x.len + n := by
    rw [length_take, hplen, min_eq_left (by omega)]
  unfold extend at hcall
  dsimp only at hcall
  rw [hfill] at hcall
  cases halloc : allocExtend cfg sched m.pool x.req.prefixIndices (x.len + n) with
  | error e =>
    rw [halloc] at hcall
    cases hcall
  | ok res =>
    obtain ⟨pool', out⟩ := res
    rw [halloc] at hcall
    cases hcall
    obtain ⟨t', new, hr', hpages, hnew, hout, hroot, hstays⟩ := allocExtend_spec hps hr (by omega) halloc
    have hstay := hstays _ (hr'.locked.held_live _ hheld)
    obtain ⟨above, habove, hlen, hkv⟩ := h.tree_pages hr
    refine ⟨t', new, hr', hpages, hroot, hstays, fun i hi => ?_, rfl, rfl, fun clean' => ?_⟩
    · rw [write_other _ hi, write_other _ hi]
    set req' : Req := { x.req with
      fillIds := x.req.tokenIds.take (x.req.prefixIndices.length + n)
      reqPoolIdx := idx
      kvCommittedLen := x.len + n } with hreq'
    have hlen' : (⟨req', .extended⟩ : Live).len = x.len + n := hfill
    have hle' : x.matched ≤ x.len + n := by have := h.le; omega
    have houtlen : out.length = n := by rw [hout, length_map, length_range, hplen, Nat.add_sub_cancel_left]
    have hcount : (above ++ pages).length = pageCount cfg.pageSize x.len := by
      rw [length_append, h.count, ← pageCount_add hps, hlen, Nat.add_sub_cancel' h.le]
    have hcount' : pageCount cfg.pageSize (x.len + n) = above.length + pageCount cfg.pageSize (x.len + n - x.matched) := by
      rw [← pageCount_add hps, hlen, Nat.add_sub_cancel' hle']
    have hmono := @pageCount_mono cfg.pageSize x.len (x.len + n) (by omega)
    have hcover := le_pageCount_mul hps (x.len + n)
    rw [hplen] at hnew
    have hall : (above ++ pages ++ new).length = pageCount cfg.pageSize (x.len + n) := by
      rw [length_append, hcount, hnew]
      omega
    have hkv' : kv cfg.pageSize t' ⟨req', .extended⟩ (pages ++ new) = x.req.prefixIndices ++ out := by
      rw [kv_eq (x := ⟨req', .extended⟩) (hstay.slots.trans habove) hlen (by rw [hlen']; exact hle'), hlen', ← append_assoc]
      apply ext_getElem?
      intro j
      by_cases hj : j < x.len + n
      · rw [getElem?_take, if_pos hj]
        by_cases hj' : j < x.len
        · rw [getElem?_append_left (by rw [hplen]; exact hj'), hpre, hkv, getElem?_take, if_pos hj', wholePages_append,
            getElem?_append_left]
          rw [length_wholePages, hcount]
          exact lt_of_lt_of_le hj' (le_pageCount_mul hps _)
        obtain ⟨i, rfl⟩ := Nat.exists_eq_add_of_le (Nat.le_of_not_lt hj')
        rw [getElem?_append_right (by omega), hplen, Nat.add_sub_cancel_left, hout, getElem?_map, hplen,
          getElem?_range (by omega), Option.map_some]
        refine getElem?_extendSlot hps hcount (fun hmod => ?_) (by rw [hall]; omega)
        -- the last slot so far is that of the page that goes on
        have hpos : 0 < x.len := pos_of_ne_zero fun h0 => hmod (by rw [h0, Nat.zero_mod])
        obtain ⟨y, hy, hlast⟩ := @lastLoc_eq x.req.prefixIndices (ne_nil_of_length_pos (by omega))
        refine ⟨y, ?_, hlast⟩
        rw [hplen, hpre, hkv, getElem?_take, if_pos (by omega)] at hy
        exact hy
      · rw [getElem?_eq_none (by rw [length_take]; omega), getElem?_eq_none (by rw [length_append, hplen, houtlen]; omega)]
    have hrow :
      (((({ m with pool := pool' } : Memory).write idx 0 x.req.prefixIndices).write idx x.req.prefixIndices.length out)).row idx
        (x.len + n) = x.req.prefixIndices ++ out := by
      rw [show x.len + n = x.req.prefixIndices.length + out.length by rw [hplen, houtlen]]
      exact row_write _ _ _ _
    have hold : oldPrefixLen cfg req' = oldPrefixLen cfg x.req := rfl
    refine ⟨hstay.live, h.space.imp (·.trans hroot.symm) hstay.extra.trans, hstay.path.trans h.path,
      by rw [show t'.slots req'.lastNode = _ from hstay.slots]; exact h.slots, ?_, ?_, ?_, ?_, absurd rfl, fun _ => ?_,
      fun _ => ?_, fun _ _ => ?_⟩
    · rw [hold]
      exact h.matched
    · rw [hlen']
      exact hle'
    · rw [hlen', ← hplen]
      exact hle
    · rw [hlen', length_append, h.count, hnew]
      show _ = pageCount cfg.pageSize (x.len + n - x.matched)
      rw [length_append, h.count] at hcount
      omega
    · rw [hlen', hold]
      refine ⟨by rw [← hplen], rfl, by omega, ?_⟩
      have h1 : oldPrefixLen cfg x.req ≤ x.req.prefixIndices.length := by
        unfold oldPrefixLen
        split <;> omega
      unfold actualKvLen
      split <;> omega
    · rw [hlen', hkv']
      exact congrArg _ hrow
    · rw [hlen', hkv']
      exact hrow

end Holds

/-- The prefix that a request is admitted with. -/
theorem initNextRoundInput_spec (hps : 0 < cfg.pageSize) (hd : cfg.disable = false) {m : Memory} {t : View} {held : List NodeId}
    (hr : m.pool.Ready cfg t held) (req : Req) (k : Nat) : ∃ m' req' t', initNextRoundInput cfg m req k = .ok (m', req') ∧
      m'.reqToToken = m.reqToToken ∧ m'.pool.Ready cfg t' (req'.lastNode :: held) ∧
      m'.pool.pages cfg.pageSize t' = m.pool.pages cfg.pageSize t ∧ m'.pool.cache.rootNode = m.pool.cache.rootNode ∧
      (∀ n ∈ t.live, Stays m.pool.cache t m'.pool.cache t' n) ∧ ∀ clean : Prop, Holds cfg clean m' t' ⟨req', .fresh⟩ [] := by
  obtain ⟨c, t', n, hmatch, hsteps, hn, hfound⟩ := matchPrefix_spec hps hd hr.wf (radixKey req (req.tokenIds.take k))
  have hstops := hfound hr.aligned
  obtain ⟨hr1, hpages1⟩ := hr.steps hps hd hsteps
  obtain ⟨c2, d, hinc, hr2, hpages2, hsame⟩ := hr1.incLockRef hd hn
  have hslots := hr1.wf.slots_length n (hr1.wf.live_known n hn)
  have hdvd : cfg.pageSize ∣ (t'.slots n).length := by
    rw [hslots]
    exact hr1.aligned.path hr1.wf n (hr1.wf.live_known n hn)
  have hpath : t'.path n <+: keyTokens cfg req := by
    obtain ⟨rest, hkey, -⟩ := hstops.path
    refine List.IsPrefix.trans ⟨rest, hkey.symm⟩ (List.IsPrefix.trans ( take_prefix _ _) ?_)
    exact keyConvertFn_prefix req.tokenIds k
  let req' : Req := { req with prefixIndices := t'.slots n, lastMatchedPrefixLen := (t'.slots n).length, lastNode := n }
  refine ⟨m.withCache c2, req', t', ?_, rfl, hr2, hpages2.trans hpages1, hsame.root.trans hsteps.root,
    fun y hy => (hsteps.stays hps hr.wf y hy).trans (hsame.stays (hsteps.stays hps hr.wf y hy).live), fun clean => ?_⟩
  · unfold initNextRoundInput
    rw [hmatch]
    simp only [ok_bind]
    rw [hinc]
    rfl
  have hlen : (⟨req', .fresh⟩ : Live).len = (t'.slots n).length := rfl
  refine ⟨hn, ?_, ?_, rfl, ?_, ?_, ?_, ?_, fun _ => ?_, absurd rfl, absurd rfl, absurd rfl⟩
  · exact hstops.extra.imp (·.trans hsame.root.symm) fun hs => (congrArg _ (hsame.key n)).trans hs.symm
  · show t'.path n = (keyTokens cfg req).take (t'.slots n).length
    rw [hslots]
    exact prefix_iff_eq_take.mp hpath
  · have hold : oldPrefixLen cfg req' = (t'.slots n).length := if_neg fun hc => lt_irrefl _ hc.2
    rw [hold, Nat.div_mul_cancel hdvd]
  · rw [hlen]
  · rw [hlen, hslots]
    refine le_trans hpath.length_le ?_
    rw [keyTokens, length_keyConvertFn]
    exact actualKvLen_le cfg _
  · rw [hlen, Nat.sub_self]
    simp [pageCount, div_eq_of_lt (sub_lt hps one_pos)]
  · simp [kv, req']

end Memory

end DynaSpec.MemCache
