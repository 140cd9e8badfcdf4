/-
  DynaSpec.Lib.Utf8 — UTF-8 and its lossy decoding.

  `lossy` decodes any bytes: what cannot be decoded gives U+FFFD, one for each longest run of
  bytes that starts some character (`scan`), as `String::from_utf8_lossy` does. Whole characters
  come through (`lossy_encode_append`) and a character that is cut off at the end gives one U+FFFD
  (`lossy_cut`). Bytes that do not end inside a character decode to the same characters whatever
  follows them (`lossy_append_of_boundary`); a text's bytes never do, wherever they are taken
  from (`lossy_drop_encode`).
-/

import Mathlib

namespace DynaSpec.Lib.Utf8

open List Nat

/-- The replacement character. -/
def replacement : Char := Char.ofNat 0xFFFD

variable (c : Char)

def encode : List Nat :=
  let v := c.toNat
  if v < 0x80 then [v]
  else if v < 0x800 then [v / 64 + 0xC0, v % 64 + 0x80]
  else if v < 0x10000 then [v / 4096 + 0xE0, v / 64 % 64 + 0x80, v % 64 + 0x80]
  else [v / 262144 + 0xF0, v / 4096 % 64 + 0x80, v / 64 % 64 + 0x80, v % 64 + 0x80]

variable (s : List Char)

def encodeText : List Nat := s.flatMap encode

/-- What a first byte asks for: the number of bytes after it and the range of the next one. -/
def lead (b : Nat) : Option (Nat × Nat × Nat) :=
  if b < 0x80 then some (0, 0x80, 0xBF)
  else if 0xC2 ≤ b ∧ b ≤ 0xDF then some (1, 0x80, 0xBF)
  else if b = 0xE0 then some (2, 0xA0, 0xBF)
  else if b = 0xED then some (2, 0x80, 0x9F)
  else if 0xE1 ≤ b ∧ b ≤ 0xEF then some (2, 0x80, 0xBF)
  else if b = 0xF0 then some (3, 0x90, 0xBF)
  else if 0xF1 ≤ b ∧ b ≤ 0xF3 then some (3, 0x80, 0xBF)
  else if b = 0xF4 then some (3, 0x80, 0x8F)
  else none

/-- How many of the bytes that are asked for are there, and whether these are all. -/
def scan : Nat → Nat → Nat → List Nat → Nat × Bool
  | 0, _, _, _ => (0, true)
  | owed + 1, lo, hi, b :: bs =>
    if lo ≤ b ∧ b ≤ hi then ((scan owed 0x80 0xBF bs).1 + 1, (scan owed 0x80 0xBF bs).2) else (0, false)
  | _ + 1, _, _, [] => (0, false)

def value : List Nat → Nat
  | [a] => a
  | [a, b] => a % 32 * 64 + b % 64
  | [a, b, c] => a % 16 * 4096 + b % 64 * 64 + c % 64
  | [a, b, c, d] => a % 8 * 262144 + b % 64 * 4096 + c % 64 * 64 + d % 64
  | _ => 0

def lossyFuel : Nat → List Nat → List Char
  | 0, _ => []
  | _ + 1, [] => []
  | fuel + 1, b :: bs =>
    match lead b with
    | none => replacement :: lossyFuel fuel bs
    | some (owed, lo, hi) =>
      let (taken, complete) := scan owed lo hi bs
      (if complete then Char.ofNat (value (b :: bs.take taken)) else replacement) :: lossyFuel fuel (bs.drop taken)

def lossy (bytes : List Nat) : List Char := lossyFuel bytes.length bytes

/-- The number of bytes of a text. -/
def size : Nat := (s.map Char.utf8Size).sum

@[simp] theorem size_nil : size [] = 0 := rfl

@[simp] theorem size_cons : size (c :: s) = c.utf8Size + size s := by simp [size]

@[simp] theorem size_append (s t : List Char) : size (s ++ t) = size s + size t := by simp [size]

@[simp] theorem encodeText_cons : encodeText (c :: s) = encode c ++ encodeText s := rfl

@[simp] theorem encodeText_append (s t : List Char) : encodeText (s ++ t) = encodeText s ++ encodeText t := flatMap_append

/-! ## Characters -/

theorem toNat_valid : c.toNat < 0xD800 ∨ (0xDFFF < c.toNat ∧ c.toNat < 0x110000) := c.valid

theorem utf8Size_eq_ite : c.utf8Size =
    if c.toNat < 0x80 then 1 else if c.toNat < 0x800 then 2 else if c.toNat < 0x10000 then 3 else 4 := by
  have hle : ∀ (k : Nat) (hk : k < UInt32.size), c.val ≤ UInt32.ofNatLT k hk ↔ c.toNat < k + 1 := by
    intro k hk
    rw [UInt32.le_iff_toNat_le, UInt32.toNat_ofNatLT]
    exact Nat.lt_succ_iff.symm
  unfold Char.utf8Size
  simp only [hle]

theorem length_encode : (encode c).length = c.utf8Size := by
  rw [utf8Size_eq_ite]
  unfold encode
  dsimp only
  split
  · rfl
  split
  · rfl
  · split <;> rfl

@[simp] theorem length_encodeText : (encodeText s).length = size s := by
  induction s with
  | nil => rfl
  | cons c s ih => rw [encodeText_cons, length_append, length_encode, ih, size_cons]

/-- The bytes are in the ranges that the first byte asks for. -/
def Fits : Nat → Nat → List Nat → Prop
  | _, _, [] => True
  | lo, hi, b :: bs => (lo ≤ b ∧ b ≤ hi) ∧ (0x80 ≤ b ∧ b ≤ 0xBF) ∧ Fits 0x80 0xBF bs

theorem encode_spec : ∃ b tail lo hi, encode c = b :: tail ∧ lead b = some (tail.length, lo, hi) ∧ Fits lo hi tail ∧
    value (b :: tail) = c.toNat := by
  have hvalid := toNat_valid c
  generalize hv : c.toNat = v at hvalid
  unfold encode
  simp only [hv]
  by_cases h1 : v < 0x80
  · rw [if_pos h1]
    exact ⟨v, [], 0x80, 0xBF, rfl, by simp [lead, h1], trivial, rfl⟩
  rw [if_neg h1]
  by_cases h2 : v < 0x800
  · rw [if_pos h2]
    refine ⟨_, _, 0x80, 0xBF, rfl, ?_, by simp only [Fits, and_true]; omega, by simp only [value]; omega⟩
    rw [lead, if_neg (by omega), if_pos (by omega)]
    rfl
  rw [if_neg h2]
  by_cases h3 : v < 0x10000
  · rw [if_pos h3]
    -- the second byte is bounded further after 0xE0 and after 0xED
    by_cases hE0 : v / 4096 = 0
    · refine ⟨_, _, 0xA0, 0xBF, rfl, ?_, by simp only [Fits, and_true]; omega, by simp only [value]; omega⟩
      rw [hE0]
      rfl
    by_cases hED : v / 4096 = 13
    · refine ⟨_, _, 0x80, 0x9F, rfl, ?_, by simp only [Fits, and_true]; omega, by simp only [value]; omega⟩
      rw [hED]
      rfl
    refine ⟨_, _, 0x80, 0xBF, rfl, ?_, by simp only [Fits, and_true]; omega, by simp only [value]; omega⟩
    rw [lead, if_neg (by omega), if_neg (by omega), if_neg (by omega), if_neg (by omega), if_pos (by omega)]
    rfl
  rw [if_neg h3]
  by_cases hF0 : v / 262144 = 0
  · refine ⟨_, _, 0x90, 0xBF, rfl, ?_, by simp only [Fits, and_true]; omega, by simp only [value]; omega⟩
    rw [hF0]
    rfl
  by_cases hF4 : v / 262144 = 4
  · refine ⟨_, _, 0x80, 0x8F, rfl, ?_, by simp only [Fits, and_true]; omega, by simp only [value]; omega⟩
    rw [hF4]
    rfl
  refine ⟨_, _, 0x80, 0xBF, rfl, ?_, by simp only [Fits, and_true]; omega, by simp only [value]; omega⟩
  rw [lead, if_neg (by omega), if_neg (by omega), if_neg (by omega), if_neg (by omega), if_neg (by omega),
    if_neg (by omega), if_pos (by omega)]
  rfl

/-! ## Lossy decoding -/

theorem lossyFuel_congr {fuel fuel' : Nat} {bytes : List Nat} (h : bytes.length ≤ fuel) (h' : bytes.length ≤ fuel') :
    lossyFuel fuel bytes = lossyFuel fuel' bytes := by
  induction fuel generalizing fuel' bytes with
  | zero =>
    rw [eq_nil_of_length_eq_zero (Nat.le_zero.mp h)]
    cases fuel' <;> rfl
  | succ fuel ih =>
    cases bytes with
    | nil => cases fuel' <;> rfl
    | cons b bs =>
      cases fuel' with
      | zero => cases h'
      | succ fuel' =>
        have hle : bs.length ≤ fuel := le_of_succ_le_succ h
        have hle' : bs.length ≤ fuel' := le_of_succ_le_succ h'
        simp only [lossyFuel]
        cases lead b with
        | none => rw [ih hle hle']
        | some r =>
          have hdrop : (bs.drop (scan r.1 r.2.1 r.2.2 bs).1).length ≤ bs.length := by
            rw [length_drop]
            omega
          exact congrArg _ (ih (hdrop.trans hle) (hdrop.trans hle'))

@[simp] theorem lossy_nil : lossy [] = [] := rfl

theorem lossy_cons (b : Nat) (bs : List Nat) : lossy (b :: bs) = match lead b with
    | none => replacement :: lossy bs
    | some (owed, lo, hi) =>
      (if (scan owed lo hi bs).2 then Char.ofNat (value (b :: bs.take (scan owed lo hi bs).1)) else replacement) ::
        lossy (bs.drop (scan owed lo hi bs).1) := by
  rw [lossy, length_cons, lossyFuel]
  cases lead b with
  | none => rfl
  | some r =>
    dsimp only
    rw [lossy, lossyFuel_congr (by rw [length_drop]; omega) (le_refl _)]

variable {lo hi : Nat} {tail : List Nat}

theorem scan_fits (h : Fits lo hi tail) (rest : List Nat) : scan tail.length lo hi (tail ++ rest) = (tail.length, true) := by
  induction tail generalizing lo hi with
  | nil => cases rest <;> rfl
  | cons b tail ih =>
    obtain ⟨hb, -, htail⟩ := h
    rw [cons_append, length_cons, scan, if_pos hb, ih htail]

theorem scan_cut {tail cut : List Nat} (h : Fits lo hi tail) (hpre : cut <+: tail) (hlt : cut.length < tail.length) :
    scan tail.length lo hi cut = (cut.length, false) := by
  induction tail generalizing lo hi cut with
  | nil => cases hlt
  | cons b tail ih =>
    obtain ⟨hb, -, htail⟩ := h
    cases cut with
    | nil => rfl
    | cons a cut =>
      obtain ⟨rfl, hcut⟩ := cons_prefix_cons.mp hpre
      rw [length_cons, scan, if_pos hb, ih htail hcut (lt_of_succ_lt_succ hlt), length_cons]

/-- A whole character comes through. -/
theorem lossy_encode_append (c : Char) (rest : List Nat) : lossy (encode c ++ rest) = c :: lossy rest := by
  obtain ⟨b, tail, lo, hi, henc, hlead, hfits, hvalue⟩ := encode_spec c
  rw [henc, cons_append, lossy_cons, hlead]
  dsimp only
  rw [scan_fits hfits, if_pos rfl, take_left, drop_left, hvalue, Char.ofNat_toNat]

theorem lossy_encodeText_append (s : List Char) (rest : List Nat) : lossy (encodeText s ++ rest) = s ++ lossy rest := by
  induction s with
  | nil => rfl
  | cons c s ih => rw [encodeText_cons, append_assoc, lossy_encode_append, ih, cons_append]

theorem lossy_encodeText (s : List Char) : lossy (encodeText s) = s := by
  have := lossy_encodeText_append s []
  rwa [append_nil, lossy_nil, append_nil] at this

/-- A character that is cut off gives one replacement character. -/
theorem lossy_cut {c : Char} {q : List Nat} (hpre : q <+: encode c) (hne : q ≠ []) (hlt : q.length < (encode c).length) :
    lossy q = [replacement] := by
  obtain ⟨b, tail, lo, hi, henc, hlead, hfits, -⟩ := encode_spec c
  rw [henc] at hpre hlt
  cases q with
  | nil => exact absurd rfl hne
  | cons a cut =>
    obtain ⟨rfl, hcut⟩ := cons_prefix_cons.mp hpre
    rw [lossy_cons, hlead]
    dsimp only
    rw [scan_cut hfits hcut (lt_of_succ_lt_succ hlt)]
    simp

/-- The bytes begin a character and end before it does. -/
def isCut : List Nat → Bool
  | [] => false
  | b :: bs =>
    match lead b with
    | none => false
    | some (owed, lo, hi) => scan owed lo hi bs == (bs.length, false)

/-- The bytes end where a character does. -/
def endsAtBoundary (bytes : List Nat) : Bool := bytes.tails.all (!isCut ·)

theorem scan_le (owed lo hi : Nat) (bs : List Nat) : (scan owed lo hi bs).1 ≤ bs.length := by
  induction bs generalizing owed lo hi with
  | nil => cases owed <;> exact le_refl 0
  | cons b bs ih =>
    cases owed with
    | zero => exact zero_le _
    | succ owed =>
      rw [scan]
      split
      · exact succ_le_succ (ih _ _ _)
      · exact zero_le _

theorem scan_append {owed lo hi : Nat} {bs : List Nat} (h : scan owed lo hi bs ≠ (bs.length, false)) (rest : List Nat) :
    scan owed lo hi (bs ++ rest) = scan owed lo hi bs := by
  induction bs generalizing owed lo hi with
  | nil =>
    cases owed with
    | zero => cases rest <;> rfl
    | succ owed => exact absurd rfl h
  | cons b bs ih =>
    cases owed with
    | zero => rfl
    | succ owed =>
      rw [cons_append, scan, scan]
      split
      · rename_i hb
        rw [ih fun he => h (by rw [scan, if_pos hb, he, length_cons])]
      · rfl

/-- Bytes decode apart from what follows them, unless they end inside a character. -/
theorem lossy_append_or (a rest : List Nat) : lossy (a ++ rest) = lossy a ++ lossy rest ∨
    (∃ q, q <:+ a ∧ isCut q = true) ∧ (lossy a).getLast? = some replacement := by
  induction hn : a.length using Nat.strong_induction_on generalizing a with
  | _ n ih =>
    cases a with
    | nil => exact .inl rfl
    | cons b bs =>
      -- the character at the front, before what the induction is about
      have hcons : ∀ c k, lossy (bs.drop k ++ rest) = lossy (bs.drop k) ++ lossy rest ∨ (∃ q, q <:+ bs.drop k ∧ isCut q = true) ∧
          (lossy (bs.drop k)).getLast? = some replacement → c :: lossy (bs.drop k ++ rest) = c :: lossy (bs.drop k) ++
          lossy rest ∨
          (∃ q, q <:+ b :: bs ∧ isCut q = true) ∧ (c :: lossy (bs.drop k)).getLast? = some replacement := by
        intro c k h
        rcases h with h | ⟨⟨q, hq, hcut⟩, hlast⟩
        · exact .inl (by rw [h, cons_append])
        · exact .inr ⟨⟨q, hq.trans ((drop_suffix k bs).trans (suffix_cons b bs)), hcut⟩, by rw [getLast?_cons, hlast]; rfl⟩
      have hih : ∀ k, _ := fun k => ih (bs.drop k).length (by rw [← hn, length_cons, length_drop]; omega) _ rfl
      rw [cons_append, lossy_cons, lossy_cons]
      cases hlead : lead b with
      | none => exact hcons replacement 0 (hih 0)
      | some r =>
        obtain ⟨owed, lo, hi⟩ := r
        dsimp only
        by_cases hcut : scan owed lo hi bs = (bs.length, false)
        · refine .inr ⟨⟨b :: bs, suffix_rfl, by simp [isCut, hlead, hcut]⟩, ?_⟩
          simp [hcut]
        · have hle := scan_le owed lo hi bs
          rw [scan_append hcut, take_append_of_le_length hle, drop_append_of_le_length hle]
          exact hcons _ _ (hih _)

/-- What is left of such bytes after the first of them decodes apart too. -/
theorem lossy_append_of_boundary {p a : List Nat} (h : endsAtBoundary p = true) (hs : a <:+ p) (rest : List Nat) :
    lossy (a ++ rest) = lossy a ++ lossy rest := by
  rcases lossy_append_or a rest with hl | ⟨⟨q, hq, hcut⟩, -⟩
  · exact hl
  · have := all_eq_true.mp h q ((mem_tails q p).mpr (hq.trans hs))
    simp [hcut] at this

theorem lead_continuation {b : Nat} (hb : 0x80 ≤ b ∧ b ≤ 0xBF) : lead b = none := by
  unfold lead
  rw [if_neg (by omega), if_neg (by omega), if_neg (by omega), if_neg (by omega), if_neg (by omega), if_neg (by omega),
    if_neg (by omega), if_neg (by omega)]

/-- No cut character begins after the first byte of a whole one. -/
theorem Fits.suffix (h : Fits lo hi tail) {q rest : List Nat} (hq : q <:+ tail ++ rest) (hcut : isCut q = true) : q <:+ rest := by
  induction tail generalizing lo hi with
  | nil => exact hq
  | cons b tail ih =>
    obtain ⟨-, hb, htail⟩ := h
    rcases suffix_cons_iff.mp hq with rfl | hq
    · simp [isCut, lead_continuation hb] at hcut
    · exact ih htail hq

theorem endsAtBoundary_encodeText (s : List Char) : endsAtBoundary (encodeText s) = true := by
  have hcut : ∀ q, q <:+ encodeText s → isCut q ≠ true := by
    induction s with
    | nil =>
      intro q hq
      rw [suffix_nil.mp hq]
      nofun
    | cons c s ih =>
      intro q hq hcut
      obtain ⟨b, tail, lo, hi, henc, hlead, hfits, -⟩ := encode_spec c
      rw [encodeText_cons, henc] at hq
      rcases suffix_cons_iff.mp hq with rfl | hq
      · simp [isCut, hlead, scan_fits hfits] at hcut
      · exact ih q (hfits.suffix hq hcut) hcut
  simpa [endsAtBoundary] using hcut

/-- What is left of a text after its first bytes decodes to the same characters before anything. -/
theorem lossy_drop_encode (s : List Char) (k : Nat) : ∃ l, ∀ rest, lossy ((encodeText s).drop k ++ rest) = l ++ lossy rest :=
  ⟨_, lossy_append_of_boundary (endsAtBoundary_encodeText s) (drop_suffix k _)⟩

/-! ## Positions in bytes -/

def isCharBoundary : List Char → Nat → Bool
  | _, 0 => true
  | [], _ + 1 => false
  | c :: s, i + 1 => if i + 1 < c.utf8Size then false else isCharBoundary s (i + 1 - c.utf8Size)

/-- The text from a byte position on; `none` when the position is inside a character or past the end. -/
def sliceFrom : List Char → Nat → Option (List Char)
  | s, 0 => some s
  | [], _ + 1 => none
  | c :: s, i + 1 => if i + 1 < c.utf8Size then none else sliceFrom s (i + 1 - c.utf8Size)

/-- The nearest boundary at or before a position. -/
def floorBoundary (s : List Char) : Nat → Nat
  | 0 => 0
  | i + 1 => if isCharBoundary s (i + 1) then i + 1 else floorBoundary s i

/-- The characters that lie within the first bytes. -/
def finished : Nat → List Char → List Char
  | _, [] => []
  | n, c :: s => if c.utf8Size ≤ n then c :: finished (n - c.utf8Size) s else []

@[simp] theorem finished_nil (n : Nat) : finished n [] = [] := by cases n <;> rfl

theorem finished_cons (n : Nat) (c : Char) (s : List Char) :
    finished n (c :: s) = if c.utf8Size ≤ n then c :: finished (n - c.utf8Size) s else [] := by cases n <;> rfl

@[simp] theorem finished_zero (s : List Char) : finished 0 s = [] := by
  cases s with
  | nil => rfl
  | cons c s => rw [finished_cons, if_neg (Nat.not_le.mpr c.utf8Size_pos)]

theorem finished_prefix (n : Nat) (s : List Char) : finished n s <+: s := by
  induction s generalizing n with
  | nil => simp
  | cons c s ih =>
    rw [finished_cons]
    split
    · exact cons_prefix_cons.mpr ⟨rfl, ih _⟩
    · exact nil_prefix

theorem finished_of_size_le {n : Nat} {s : List Char} (h : size s ≤ n) : finished n s = s := by
  induction s generalizing n with
  | nil => simp
  | cons c s ih =>
    rw [size_cons] at h
    rw [finished_cons, if_pos (by omega), ih (by omega)]

theorem finished_append (l t : List Char) (k : Nat) : finished (size l + k) (l ++ t) = l ++ finished k t := by
  induction l with
  | nil => simp
  | cons c l ih =>
    rw [cons_append, finished_cons, size_cons, if_pos (by omega), show c.utf8Size + size l + k - c.utf8Size =
      size l + k by omega, ih]
    rfl

theorem finished_mono {n m : Nat} (h : n ≤ m) (s : List Char) : finished n s <+: finished m s := by
  induction s generalizing n m with
  | nil => simp
  | cons c s ih =>
    rw [finished_cons, finished_cons]
    split
    · rw [if_pos (by omega)]
      exact cons_prefix_cons.mpr ⟨rfl, ih (by omega)⟩
    · exact nil_prefix

theorem isCharBoundary_iff (s : List Char) (i : Nat) : isCharBoundary s i = true ↔ size (finished i s) = i := by
  induction s generalizing i with
  | nil => cases i <;> simp [isCharBoundary]
  | cons c s ih =>
    cases i with
    | zero => simp [isCharBoundary]
    | succ i =>
      rw [finished_cons, isCharBoundary]
      by_cases hlt : i + 1 < c.utf8Size
      · rw [if_pos hlt, if_neg (by omega)]
        simp
      · rw [if_neg hlt, if_pos (by omega), ih, size_cons]
        omega

theorem finished_succ {s : List Char} {i : Nat} (h : isCharBoundary s (i + 1) = false) : finished (i + 1) s = finished i s := by
  induction s generalizing i with
  | nil => simp
  | cons c s ih =>
    rw [isCharBoundary] at h
    rw [finished_cons, finished_cons]
    by_cases hlt : i + 1 < c.utf8Size
    · rw [if_neg (by omega), if_neg (by omega)]
    rw [if_neg hlt] at h
    have hne : i + 1 - c.utf8Size ≠ 0 := by
      intro h0
      rw [h0] at h
      cases s <;> cases h
    rw [if_pos (by omega), if_pos (by omega), show i + 1 - c.utf8Size = (i - c.utf8Size) + 1 by omega,
      ih (by rwa [show i + 1 - c.utf8Size = (i - c.utf8Size) + 1 by omega] at h)]

theorem floorBoundary_eq (s : List Char) (i : Nat) : floorBoundary s i = size (finished i s) := by
  induction i with
  | zero => simp [floorBoundary]
  | succ i ih =>
    rw [floorBoundary]
    split
    · rename_i hb
      exact ((isCharBoundary_iff s (i + 1)).mp hb).symm
    · rename_i hb
      rw [ih, finished_succ (by simpa using hb)]

theorem sliceFrom_size (s t : List Char) : sliceFrom (s ++ t) (size s) = some t := by
  induction s with
  | nil => cases t <;> rfl
  | cons c s ih =>
    have hpos := c.utf8Size_pos
    rw [size_cons, cons_append]
    obtain ⟨k, hk⟩ : ∃ k, c.utf8Size + size s = k + 1 := ⟨c.utf8Size + size s - 1, by omega⟩
    rw [hk, sliceFrom, if_neg (by omega), ← hk, Nat.add_sub_cancel_left, ih]

/-- The first bytes of a text are its finished characters and the start of one more. -/
theorem take_encodeText (s : List Char) (n : Nat) (hn : n ≤ size s) :
    ∃ q, (encodeText s).take n = encodeText (finished n s) ++ q ∧
    size (finished n s) + q.length = n ∧ (q = [] ∨ lossy q = [replacement]) := by
  induction s generalizing n with
  | nil =>
    obtain rfl : n = 0 := Nat.le_zero.mp hn
    exact ⟨[], rfl, rfl, .inl rfl⟩
  | cons c s ih =>
    rw [size_cons] at hn
    rw [encodeText_cons, finished_cons]
    by_cases hle : c.utf8Size ≤ n
    · obtain ⟨q, htake, hlen, hq⟩ := ih (n - c.utf8Size) (by omega)
      refine ⟨q, ?_, by rw [if_pos hle, size_cons]; omega, hq⟩
      rw [if_pos hle, take_append, length_encode, htake, take_of_length_le (by rw [length_encode]; exact hle), encodeText_cons,
        append_assoc]
    rw [if_neg hle, take_append, length_encode, Nat.sub_eq_zero_of_le (by omega), take_zero, append_nil]
    have hlen : ((encode c).take n).length = n := by
      rw [length_take, length_encode]
      omega
    refine ⟨(encode c).take n, rfl, by rw [size_nil, zero_add, hlen], ?_⟩
    rcases Nat.eq_zero_or_pos n with h0 | hpos
    · exact .inl (by rw [h0, take_zero])
    refine .inr (lossy_cut ( take_prefix n _) (ne_nil_of_length_pos (by omega)) ?_)
    rw [hlen, length_encode]
    omega

end DynaSpec.Lib.Utf8
