/-
  DynaSpec.MemCache.RadixKeys — what the key functions of the radix tree compute.

  `keyMatchFn_spec` says of both comparison functions at once that they return the length
  of the pages on which two keys of one namespace agree. `getChildKey_inj`: two non-empty
  keys are filed under the same child key exactly when they have the same namespace and
  the same first page.
-/

import DynaSpec.MemCache.RadixCache

namespace DynaSpec.MemCache

open DynaSpec.Lib List RadixKey Nat

variable {pageSize : Nat} {key : RadixKey} {k x : ChildKey}

@[simp] theorem RadixKey.tokenIds_upto (key : RadixKey) (n : Nat) : (key.upto n).tokenIds = key.tokenIds.take n := rfl
@[simp] theorem RadixKey.tokenIds_from (key : RadixKey) (n : Nat) : (key.from_ n).tokenIds = key.tokenIds.drop n := rfl
theorem RadixKey.len_upto {r : Nat} (h : r ≤ key.len) : (key.upto r).len = r := length_take_of_le h

theorem RadixKey.len_from (key : RadixKey) (r : Nat) : (key.from_ r).len = key.len - r := length_drop

/-! ## Pages of a token list -/

/-- Between two whole numbers of pages lies at least a page. -/
theorem add_page_le {a b : Nat} (ha : pageSize ∣ a) (hb : pageSize ∣ b) (h : a < b) : a + pageSize ≤ b := by
  obtain ⟨i, rfl⟩ := ha
  obtain ⟨j, rfl⟩ := hb
  rw [← mul_succ]
  exact Nat.mul_le_mul_left _ (Nat.lt_of_mul_lt_mul_left h)

theorem take_succ_page (l : List Token) (i : Nat) : l.take (i + pageSize) = l.take i ++ pageAt pageSize l i :=
  take_add

theorem take_eq_of_pages {a b : List Token} (t : Nat)
    (h : ∀ i < t, pageAt pageSize a (i * pageSize) = pageAt pageSize b (i * pageSize)) :
    a.take (t * pageSize) = b.take (t * pageSize) := by
  induction t with
  | zero => simp
  | succ t ih =>
    rw [succ_mul, take_succ_page, take_succ_page, ih fun i hi => h i (by omega), h t (lt_succ_self t)]

/-! ## Comparison -/

/-- `r` is the length of the pages on which `a` and `b` agree. -/
structure Agrees (pageSize : Nat) (a b : List Token) (r : Nat) : Prop where
  aligned : pageSize ∣ r
  pages : ∀ i, pageSize ∣ i → i < r → pageAt pageSize a i = pageAt pageSize b i
  stops : min a.length b.length ≤ r ∨ pageAt pageSize a r ≠ pageAt pageSize b r
  started : r < min a.length b.length + pageSize

theorem commonLen_agrees (a b : List Token) : Agrees 1 a b (commonLen a b) := by
  induction a generalizing b with
  | nil => exact ⟨one_dvd _, by simp [commonLen], by simp [commonLen], by simp [commonLen]⟩
  | cons x a ih =>
    cases b with
    | nil => exact ⟨one_dvd _, by simp [commonLen], by simp [commonLen], by simp [commonLen]⟩
    | cons y b =>
      obtain ⟨-, hpages, hstops, hstarted⟩ := ih b
      by_cases hxy : x = y
      · have hlen : commonLen (x :: a) (y :: b) = commonLen a b + 1 := by simp [commonLen, hxy]
        rw [hlen]
        refine ⟨one_dvd _, fun i _ hi => ?_, ?_, ?_⟩
        · cases i with
          | zero => simp [pageAt, hxy]
          | succ i => exact hpages i (one_dvd i) (by omega)
        · rcases hstops with h | h
          · left; simp only [length_cons]; omega
          · right; exact h
        · simp only [length_cons]; omega
      · have hlen : commonLen (x :: a) (y :: b) = 0 := by simp [commonLen, hxy]
        rw [hlen]
        refine ⟨one_dvd _, by omega, .inr (by simpa [pageAt] using hxy), by simp⟩

theorem keyMatchPaged_agrees (hps : 0 < pageSize) {key0 key1 : RadixKey} (he : key0.extraKey = key1.extraKey) :
    ∃ r, keyMatchPaged pageSize key0 key1 = .ok r ∧ Agrees pageSize key0.tokenIds key1.tokenIds r := by
  set m := min key0.len key1.len with hm
  have hloop := whileLoop_ok PyError.outOfFuel
    (fun i => decide (i < m ∧ pageAt pageSize key0.tokenIds i = pageAt pageSize key1.tokenIds i))
    (fun i => .ok (i + pageSize))
    (fun r => pageSize ∣ r ∧ (∀ i, pageSize ∣ i → i < r → pageAt pageSize key0.tokenIds i = pageAt pageSize key1.tokenIds i) ∧
      r < m + pageSize)
    (fun i => m - i) (by
      rintro r ⟨hdvd, hpages, -⟩ hc
      obtain ⟨hlt, heq⟩ := of_decide_eq_true hc
      refine ⟨r + pageSize, rfl, ⟨(Nat.dvd_add_right hdvd).mpr (dvd_refl _), fun i hi hir => ?_, by omega⟩, by omega⟩
      rcases lt_trichotomy i r with h | rfl | h
      · exact hpages i hi h
      · exact heq
      · have := add_page_le hdvd hi h
        omega)
  obtain ⟨r, hr, ⟨hdvd, hpages, hstart⟩, hc⟩ := hloop m 0 ⟨dvd_zero _, by omega, by omega⟩ (by omega)
  refine ⟨r, ?_, hdvd, hpages, ?_, hstart⟩
  · unfold keyMatchPaged checkExtraKey
    rw [if_neg (not_not.mpr he)]
    exact hr
  · have := of_decide_eq_false hc
    by_cases hlt : r < m
    · exact .inr fun h => this ⟨hlt, h⟩
    · exact .inl (by have := hm; unfold len at this; omega)

theorem keyMatchFn_spec (hps : 0 < pageSize) {key0 key1 : RadixKey} (he : key0.extraKey = key1.extraKey) :
    ∃ r, keyMatchFn pageSize key0 key1 = .ok r ∧ Agrees pageSize key0.tokenIds key1.tokenIds r := by
  unfold keyMatchFn
  by_cases h1 : pageSize = 1
  · subst h1
    refine ⟨_, ?_, commonLen_agrees _ _⟩
    simp only [if_true, keyMatchPageSize1, checkExtraKey, he, ne_eq, not_true, if_false]
    rfl
  · rw [if_neg h1]
    exact keyMatchPaged_agrees hps he

namespace Agrees

variable {a b : List Token} {r : Nat}

theorem page_le (h : Agrees pageSize a b r) (ha : a ≠ []) (hb : b ≠ []) (h0 : a.take pageSize = b.take pageSize) :
    pageSize ≤ r := by
  have hr : r ≠ 0 := by
    rintro rfl
    rcases h.stops with h | h
    · have := length_pos_iff.mpr ha
      have := length_pos_iff.mpr hb
      omega
    · exact h (by simpa [pageAt] using h0)
  exact le_of_dvd (pos_of_ne_zero hr) h.aligned

theorem take_eq (h : Agrees pageSize a b r) : a.take r = b.take r := by
  obtain ⟨t, rfl⟩ := h.aligned
  rcases Nat.eq_zero_or_pos pageSize with rfl | h0
  · simp
  rw [mul_comm]
  refine take_eq_of_pages t fun i hi => h.pages _ (dvd_mul_left _ _) ?_
  rw [mul_comm pageSize t]
  exact mul_lt_mul_of_pos_right hi h0

/-- A common length stays inside both keys when these are whole pages. -/
theorem le_min (h : Agrees pageSize a b r) (ha : pageSize ∣ a.length) (hb : pageSize ∣ b.length) : r ≤ min a.length b.length := by
  have hm : pageSize ∣ min a.length b.length := by
    rcases le_total a.length b.length with hab | hab
    · rwa [min_eq_left hab]
    · rwa [min_eq_right hab]
  by_contra hlt
  have := add_page_le hm h.aligned (Nat.lt_of_not_le hlt)
  have := h.started
  omega

end Agrees

/-! ## Child keys -/

theorem getChildKey_ok (pageSize : Nat) (h : key.tokenIds ≠ []) : ∃ k, getChildKey pageSize key = .ok k := by
  unfold getChildKey
  obtain ⟨t, l, hl⟩ := exists_cons_of_ne_nil h
  by_cases h1 : pageSize = 1 <;> cases he : key.extraKey <;> simp [h1, hl, pure, Except.pure]

/-- The child key of a walk with some of its key left. -/
theorem nextKey_ok (pageSize : Nat) (key : RadixKey) (k : ChildKey) :
    ∃ k', (if 0 < key.len then getChildKey pageSize key else .ok k) = .ok k' ∧
    (0 < key.len → getChildKey pageSize key = .ok k') := by
  by_cases hpos : 0 < key.len
  · obtain ⟨k', hk'⟩ := getChildKey_ok pageSize (length_pos_iff.mp hpos)
    exact ⟨k', by rw [if_pos hpos, hk'], fun _ => hk'⟩
  · exact ⟨k, by rw [if_neg hpos], fun h => absurd h hpos⟩

theorem getChildKey_inj {key0 key1 : RadixKey} (h0 : getChildKey pageSize key0 = .ok k) (h1 : key1.tokenIds ≠ []) :
    getChildKey pageSize key1 = .ok k ↔ key0.extraKey = key1.extraKey ∧ key0.tokenIds.take pageSize =
    key1.tokenIds.take pageSize := by
  obtain ⟨l0, e0⟩ := key0
  obtain ⟨l1, e1⟩ := key1
  obtain ⟨t1, l1', rfl⟩ := exists_cons_of_ne_nil h1
  unfold getChildKey at h0 ⊢
  by_cases hp : pageSize = 1
  · subst hp
    rcases l0 with _ | ⟨t0, l0⟩
    · simp at h0
    · rcases e0 with _ | e0 <;> rcases e1 with _ | e1 <;> simp [pure, Except.pure] at h0 ⊢ <;> simp [← h0] <;> tauto
  · rcases e0 with _ | e0 <;> rcases e1 with _ | e1 <;> simp [pure, Except.pure, hp] at h0 ⊢ <;> simp [← h0] <;> tauto

/-- Keys that are filed under the same child key begin with the same pages. -/
theorem keyMatchFn_filed (hps : 0 < pageSize) {key0 key1 : RadixKey} (hpos0 : 0 < key0.len) (hpos1 : 0 < key1.len)
    (hdvd0 : pageSize ∣ key0.len) (hdvd1 : pageSize ∣ key1.len) (hx0 : getChildKey pageSize key0 = .ok x)
    (hx1 : getChildKey pageSize key1 = .ok x) :
    ∃ r, keyMatchFn pageSize key0 key1 = .ok r ∧ pageSize ∣ r ∧ 0 < r ∧ r ≤ key0.len ∧ r ≤ key1.len ∧
    key0.extraKey = key1.extraKey ∧
      Agrees pageSize key0.tokenIds key1.tokenIds r := by
  have hne0 : key0.tokenIds ≠ [] := ne_nil_of_length_pos hpos0
  have hne1 : key1.tokenIds ≠ [] := ne_nil_of_length_pos hpos1
  obtain ⟨hextra, hpage⟩ := (getChildKey_inj hx0 hne1).mp hx1
  obtain ⟨r, hr, hagrees⟩ := keyMatchFn_spec hps hextra
  have hrps := hagrees.page_le hne0 hne1 hpage
  have hmin := hagrees.le_min hdvd0 hdvd1
  exact ⟨r, hr, hagrees.aligned, by omega, le_trans hmin (min_le_left _ _), le_trans hmin (min_le_right _ _), hextra, hagrees⟩

/-- Cutting a key after its first page leaves it where it was filed. -/
theorem getChildKey_upto {r : Nat} (hps : 0 < pageSize) (h : pageSize ≤ r) (hne : key.tokenIds ≠ []) :
    getChildKey pageSize (key.upto r) = getChildKey pageSize key := by
  obtain ⟨k, hk⟩ := getChildKey_ok pageSize hne
  rw [hk, getChildKey_inj hk]
  · exact ⟨rfl, by simp [take_take, min_eq_left h]⟩
  · intro h0
    rcases take_eq_nil_iff.mp h0 with h0 | h0
    · omega
    · exact hne h0

/-! ## The word of a key -/

/-- The pages of a key, each as the name of the child that a key beginning there is found under. -/
def word (pageSize : Nat) (key : RadixKey) : List ChildKey :=
  (List.range (key.len / pageSize)).filterMap fun i => (getChildKey pageSize (key.from_ (i * pageSize))).toOption

theorem word_head (hps : 0 < pageSize) (hpos : 0 < key.len) (hdvd : pageSize ∣ key.len)
    (hk : getChildKey pageSize key = .ok k) : (word pageSize key).head? = some k := by
  obtain ⟨t, ht⟩ := exists_eq_succ_of_ne_zero (ne_of_gt (div_pos (le_of_dvd hpos hdvd) hps))
  have hzero : key.from_ (0 * pageSize) = key := by
    rw [zero_mul]
    rfl
  rw [word, ht, range_succ_eq_map, filterMap_cons_some (b := k)]
  · rfl
  · rw [hzero, hk]
    rfl

theorem word_ne_nil (hps : 0 < pageSize) (hpos : 0 < key.len) (hdvd : pageSize ∣ key.len) : word pageSize key ≠ [] := by
  obtain ⟨k, hk⟩ := getChildKey_ok pageSize (length_pos_iff.mp hpos)
  intro hnil
  have := word_head hps hpos hdvd hk
  rw [hnil] at this
  cases this

theorem word_eq_nil (h : key.len = 0) : word pageSize key = [] := by simp [word, h]

theorem len_pos_of_word (h : word pageSize key ≠ []) : 0 < key.len :=
  Nat.pos_of_ne_zero fun h0 => h (word_eq_nil h0)

/-- A key is found under the first letter of its word. -/
theorem getChildKey_of_head (hps : 0 < pageSize) (hdvd : pageSize ∣ key.len)
    (hx : (word pageSize key).head? = some x) : getChildKey pageSize key = .ok x := by
  have hpos : 0 < key.len := len_pos_of_word fun hnil => by
    rw [hnil] at hx
    cases hx
  obtain ⟨k, hk⟩ := getChildKey_ok pageSize (ne_nil_of_length_pos hpos)
  rw [word_head hps hpos hdvd hk] at hx
  rw [hk, Option.some.inj hx]

theorem word_split (hps : 0 < pageSize) {r : Nat} (hr : pageSize ∣ r) (hle : r ≤ key.len) :
    word pageSize key = word pageSize (key.upto r) ++ word pageSize (key.from_ r) := by
  obtain ⟨t, rfl⟩ := hr
  have hupto : (key.upto (pageSize * t)).len / pageSize = t := by
    simp only [len, tokenIds_upto, length_take]
    rw [min_eq_left (show pageSize * t ≤ key.tokenIds.length from hle), Nat.mul_div_cancel_left t hps]
  have hfrom : (key.from_ (pageSize * t)).len / pageSize = key.len / pageSize - t := by
    simp only [len, tokenIds_from, length_drop]
    rw [sub_mul_div]
  have ht : t ≤ key.len / pageSize := (le_div_iff_mul_le hps).mpr (by rwa [mul_comm])
  unfold word
  rw [hupto, hfrom]
  conv_lhs => rw [← Nat.add_sub_cancel' ht, range_add, filterMap_append]
  congr 1
  · refine filterMap_congr fun i hi => ?_
    have hi := mem_range.mp hi
    have hlt : (i + 1) * pageSize ≤ pageSize * t := by
      rw [mul_comm]
      exact mul_le_mul_left _ hi
    rw [succ_mul] at hlt
    have hcomm : (key.upto (pageSize * t)).from_ (i * pageSize) =
      (key.from_ (i * pageSize)).upto (pageSize * t - i * pageSize) := by
      simp [upto, from_, drop_take]
    rw [hcomm, getChildKey_upto hps (by omega)]
    refine ne_nil_of_length_pos ?_
    simp only [tokenIds_from, length_drop]
    have : pageSize * t ≤ key.tokenIds.length := hle
    omega
  · rw [filterMap_map]
    refine filterMap_congr fun i _ => ?_
    have hshift : (key.from_ (pageSize * t)).from_ (i * pageSize) = key.from_ ((t + i) * pageSize) := by
      rw [show (t + i) * pageSize = pageSize * t + i * pageSize by rw [add_mul, mul_comm t]]
      simp [from_, drop_drop]
    simp only [Function.comp_apply]
    rw [hshift]

end DynaSpec.MemCache
