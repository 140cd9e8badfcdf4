/-
  DynaSpec.Router.TokenizerCache — the caching tokenizer
  (sgl-router/src/tokenizer/cache/mod.rs, l0.rs and l1.rs).

  L0 keeps the encodings of whole texts, L1 those of the starts of texts that end with a
  special token, under the hash of the start. Which entry a walk over a hash map meets first is
  left open (`MapOrder`), no two starts that a run hashes have the same hash (`hashed`), and
  `none` is a call that does not return. Texts are lists of characters and positions count characters; the sizes that the
  eviction of L1 adds up are in bytes.

  The inner tokenizer cuts its input at the leftmost occurrences of special tokens (`Cuts`). No
  two different special tokens overlap (`Apart`), so that the scan for each special token alone
  only finds places where the inner tokenizer cuts as well, in every text that goes on after
  them (`inner_cut`). So every entry of the caches stays right, whatever is evicted, and
  `encode_transparent`: every call answers what the inner tokenizer answers.
-/

import DynaSpec.Lib.Dict
import DynaSpec.Lib.Gather
import DynaSpec.Lib.Search
import DynaSpec.Lib.Utf8
import DynaSpec.Lib.While

namespace DynaSpec.Router.TokenizerCache

open DynaSpec.Lib List Option Dict

structure SpecialTokens where
  bosToken : Option (List Char)
  eosToken : Option (List Char)
  unkToken : Option (List Char)
  sepToken : Option (List Char)
  padToken : Option (List Char)
  clsToken : Option (List Char)
  maskToken : Option (List Char)
  additionalSpecialTokens : List (List Char)

def extractSpecialTokenStrings (t : SpecialTokens) : List (List Char) :=
  t.bosToken.toList ++ t.eosToken.toList ++ t.unkToken.toList ++ t.sepToken.toList ++ t.padToken.toList ++ t.clsToken.toList ++
    t.maskToken.toList ++ t.additionalSpecialTokens

structure CachedPrefix where
  tokens : List Nat
  lastAccessed : Nat
  sizeBytes : Nat

structure L1Cache (H : Type) where
  shards : Nat → Dict H CachedPrefix
  maxMemory : Nat
  currentMemory : Nat
  accessCounter : Nat

structure L0Cache where
  map : Dict (List Char) (List Nat)
  maxEntries : Nat

/-- The inner tokenizer, with the hash of the prefixes and the shard that a hash goes to. -/
structure Setup (H E : Type) where
  inner : List Char → Except E (List Nat)
  specialTokens : SpecialTokens
  hash : List Char → H
  shardOf : H → Fin 16

def Setup.specialTokenStrings {H E : Type} (su : Setup H E) : List (List Char) := extractSpecialTokenStrings su.specialTokens

structure CachedTokenizer (H : Type) where
  l0 : Option L0Cache
  l1 : Option (L1Cache H)

structure CacheConfig where
  enableL0 : Bool
  l0MaxEntries : Nat
  enableL1 : Bool
  l1MaxMemory : Nat

def CachedTokenizer.new (H : Type) (config : CacheConfig) : CachedTokenizer H where
  l0 := if config.enableL0 then some ⟨empty, config.l0MaxEntries⟩ else none
  l1 := if config.enableL1 then some ⟨fun _ => empty, config.l1MaxMemory, 0, 0⟩ else none

/-- Which key a walk over a map meets first, in one call of `encode`. -/
structure MapOrder (H : Type) where
  l0Key : List (List Char) → Option (List Char)
  l1Key : Nat → Nat → List H → Option H
  l1_mem : ∀ iteration i keys k, l1Key iteration i keys = some k → k ∈ keys
  l1_some : ∀ iteration i keys, keys ≠ [] → l1Key iteration i keys ≠ none

/-! ## Boundaries -/

/-- The loop over the occurrences of one special token. -/
def scanToken (token text : List Char) : Nat → Nat → Option (List Nat)
  | 0, _ => none
  | turns + 1, start =>
    match find token (text.drop start) with
    | none => some []
    | some pos =>
      let boundary := start + pos + token.length
      (scanToken token text turns boundary).map fun boundaries =>
        -- only boundaries that leave some suffix to tokenize
        if boundary < text.length then boundary :: boundaries else boundaries

/-- `Vec::dedup`. -/
def dedup : List Nat → List Nat
  | a :: b :: l => if a = b then dedup (b :: l) else a :: dedup (b :: l)
  | l => l

def findSpecialTokenBoundaries (text : List Char) (specialTokens : List (List Char)) : Option (List Nat) := do
  let found ← specialTokens.mapM fun token => scanToken token text (text.length + 1) 0
  return dedup (found.flatten.mergeSort fun a b => decide (a ≤ b))

/-! ## The caches -/

namespace L0Cache

def insert (pick : List (List Char) → Option (List Char)) (c : L0Cache) (key : List Char) (value : List Nat) : L0Cache :=
  let map := if c.maxEntries ≤ c.map.items.length then
      match pick (c.map.items.map Prod.fst) with
      | some k => c.map.erase k
      | none => c.map
    else c.map
  { c with map := map.set key value }

end L0Cache

section
variable {H E : Type} [DecidableEq H] (su : Setup H E)

namespace L1Cache

def setEntry (c : L1Cache H) (idx : Nat) (shard : Dict H CachedPrefix) : L1Cache H :=
  { c with shards := fun i => if i = idx then shard else c.shards i }

/-- Search backwards from the longest boundary. -/
def longestMatch (c : L1Cache H) (input : List Char) : List Nat → Option (List Nat × Nat) × L1Cache H
  | [] => (none, c)
  | boundary :: boundaries =>
    let hash := su.hash (input.take boundary)
    let idx := (su.shardOf hash).val
    match (c.shards idx).get? hash with
    | some entry =>
      let entry' := { entry with lastAccessed := c.accessCounter }
      (some (entry.tokens, boundary),
        { c.setEntry idx ((c.shards idx).set hash entry') with accessCounter := c.accessCounter + 1 })
    | none => longestMatch c input boundaries

def longestPrefixMatch (c : L1Cache H) (input : List Char) : Option (Option (List Nat × Nat) × L1Cache H) := do
  let boundaries ← findSpecialTokenBoundaries input su.specialTokenStrings
  return longestMatch su c input boundaries.reverse

/-! ### Eviction -/

structure Sample (H : Type) where
  shardIdx : Nat
  hash : H
  timestamp : Nat
  size : Nat

variable (o : MapOrder H) (c : L1Cache H)

def samples (iteration : Nat) : List (Sample H) :=
  (range 32).filterMap fun i =>
    let shardIdx := (iteration * 32 + i) % 16
    (o.l1Key iteration i ((c.shards shardIdx).items.map Prod.fst)).bind fun hash =>
      ((c.shards shardIdx).get? hash).map fun entry => ⟨shardIdx, hash, entry.lastAccessed, entry.sizeBytes⟩

/-- `min_by_key` on the timestamps. -/
def oldest : List (Sample H) → Option (Sample H)
  | [] => none
  | s :: l => some (l.foldl (fun best s => if s.timestamp < best.timestamp then s else best) s)

structure EvictState (H : Type) where
  cache : L1Cache H
  freed : Nat
  iteration : Nat
  broke : Bool

def evictRound (o : MapOrder H) (w : EvictState H) : EvictState H :=
  match oldest (samples o w.cache w.iteration) with
  | none => { w with broke := true }
  | some s =>
    match (w.cache.shards s.shardIdx).get? s.hash with
    | some removed =>
      let cache := w.cache.setEntry s.shardIdx ((w.cache.shards s.shardIdx).erase s.hash)
      ⟨{ cache with currentMemory := cache.currentMemory - removed.sizeBytes }, w.freed + removed.sizeBytes,
        w.iteration + 1, false⟩
    | none => { w with iteration := w.iteration + 1 }

def entries (c : L1Cache H) : Nat := ((range 16).map fun i => (c.shards i).items.length).sum

def evictLru (spaceNeeded : Nat) : Option (L1Cache H) :=
  let run := whileLoop () (fun w : EvictState H => !w.broke && decide (w.freed < spaceNeeded))
    (fun w => .ok (evictRound o w)) (c.entries + 1)
    ⟨c, 0, 0, false⟩
  match run with
  | .ok w => some w.cache
  | .error _ => none

/-! ### Insertion -/

def newEntry (input : List Char) (boundary : Nat) : Except E (H × List Nat × Nat) := do
  let pre := input.take boundary
  let tokens ← su.inner pre
  return (su.hash pre, tokens, Utf8.size pre + tokens.length * 4)

def insertEntry (c : L1Cache H) (e : H × List Nat × Nat) : L1Cache H :=
  let idx := (su.shardOf e.1).val
  let c' := c.setEntry idx ((c.shards idx).set e.1 ⟨e.2.1, c.accessCounter, e.2.2⟩)
  { c' with currentMemory := c'.currentMemory + e.2.2 }

/-- An error of the inner tokenizer leaves the cache as it is. -/
def insertAtBoundaries (input : List Char) : Option (L1Cache H) := do
  let boundaries ← findSpecialTokenBoundaries input su.specialTokenStrings
  match boundaries.mapM (newEntry su input) with
  | .error _ => return c
  | .ok [] => return c
  | .ok entriesToInsert =>
    let totalSizeNeeded := (entriesToInsert.map fun e => e.2.2).sum
    let c ← if c.maxMemory < c.currentMemory + totalSizeNeeded then c.evictLru o totalSizeNeeded else some c
    return entriesToInsert.foldl (insertEntry su) c

end L1Cache

/-! ## `encode` -/

variable (o : MapOrder H) (c : CachedTokenizer H) (input : List Char)

/-- Full tokenization, after both caches have missed. -/
def encodeFull : Option (Except E (List Nat) × CachedTokenizer H) :=
  match su.inner input with
  | .error e => some (.error e, c)
  | .ok encoding => do
    let l0 := c.l0.map fun l0 => l0.insert o.l0Key input encoding
    match c.l1 with
    | none => return (.ok encoding, ⟨l0, none⟩)
    | some l1 =>
      let l1 ← l1.insertAtBoundaries su o input
      return (.ok encoding, ⟨l0, some l1⟩)

/-- A hit in L1: the cached tokens and those of the suffix. -/
def encodeSuffix (prefixTokens : List Nat) (prefixLen : Nat) :
    Except E (List Nat) × CachedTokenizer H :=
  match su.inner (input.drop prefixLen) with
  | .error e => (.error e, c)
  | .ok suffixTokens =>
    let merged := prefixTokens ++ suffixTokens
    (.ok merged, { c with l0 := c.l0.map fun l0 => l0.insert o.l0Key input merged })

def encode : Option (Except E (List Nat) × CachedTokenizer H) :=
  match c.l0.bind fun l0 => l0.map.get? input with
  | some cached => some (.ok cached, c)
  | none =>
    match c.l1 with
    | none => encodeFull su o c input
    | some l1 => do
      let (hit, l1) ← l1.longestPrefixMatch su input
      let c := { c with l1 := some l1 }
      match hit with
      | some (prefixTokens, prefixLen) =>
        if input.drop prefixLen ≠ [] then return encodeSuffix su o c input prefixTokens prefixLen else encodeFull su o c input
      | none => encodeFull su o c input

def encodeAll : CachedTokenizer H → List (MapOrder H × List Char) → Option (List (Except E (List Nat)))
  | _, [] => some []
  | c, (o, input) :: calls => do
    let (r, c) ← encode su o c input
    let rs ← encodeAll c calls
    return r :: rs

end

/-! ## Where the inner tokenizer cuts -/

/-- One result after the other; the first error counts. -/
def glue {E : Type} (a b : Except E (List Nat)) : Except E (List Nat) := do
  let x ← a
  let y ← b
  return x ++ y

section
variable {E : Type}

theorem glue_assoc (a b c : Except E (List Nat)) : glue (glue a b) c = glue a (glue b c) := by
  cases a with
  | error e => rfl
  | ok x =>
    cases b with
    | error e => rfl
    | ok y =>
      cases c with
      | error e => rfl
      | ok z => exact congrArg Except.ok (append_assoc x y z)

theorem glue_nil (a : Except E (List Nat)) : glue a (.ok []) = a := by
  cases a with
  | error e => rfl
  | ok x => exact congrArg Except.ok (append_nil x)

/-- The tokenizer cuts its input at the leftmost special token, encodes what stands before it and the
    token itself on their own and goes on after it; it adds no tokens. A special token is not empty:
    behind an empty one the tokenizer would cut the same text again. -/
structure Cuts (inner : List Char → Except E (List Nat)) (specials : List (List Char)) where
  ne_nil : ∀ k ∈ specials, k ≠ []
  plain : List Char → Except E (List Nat)
  special : List Char → Except E (List Nat)
  empty : plain [] = .ok []
  whole : ∀ w, (∀ k ∈ specials, ¬ k <:+: w) → inner w = plain w
  cut : ∀ w k i, k ∈ specials → Occurs w k i → (∀ k' ∈ specials, ∀ j < i, ¬ Occurs w k' j) →
    inner w = glue (glue (plain (w.take i)) (special k)) (inner (w.drop (i + k.length)))

/-- An end of an occurrence that the scan for the token `k` comes to. -/
inductive ScanEnd (k : List Char) : List Char → Nat → Prop
  | here {w : List Char} {i : Nat} : find k w = some i → ScanEnd k w (i + k.length)
  | later {w : List Char} {i b : Nat} : find k w = some i → ScanEnd k (w.drop (i + k.length)) b → ScanEnd k w (i + k.length + b)

variable {inner : List Char → Except E (List Nat)} {specials : List (List Char)} {k k₀ w : List Char} {i b : Nat}

theorem Cuts.inner_nil (hcuts : Cuts inner specials) : inner [] = .ok [] := by
  rw [hcuts.whole [] fun k hk hin => hcuts.ne_nil k hk (infix_nil.mp hin), hcuts.empty]

theorem ScanEnd.occurs (h : ScanEnd k w b) : ∃ i, Occurs w k i := by
  cases h with
  | here hi => exact ⟨_, (find_eq_some.mp hi).1⟩
  | later hi => exact ⟨_, (find_eq_some.mp hi).1⟩

/-- Behind the leftmost special token the scan for another token goes on as if it began there. -/
theorem ScanEnd.behind (h : ScanEnd k w b) {e : Nat} (he : e ≤ w.length) (hafter : ∀ j, Occurs w k j → e ≤ j) :
    ∃ b', b = e + b' ∧ ScanEnd k (w.drop e) b' := by
  have hfind : ∀ i, find k w = some i → e ≤ i ∧ find k (w.drop e) = some (i - e) := by
    intro i hi
    have hle := hafter i (find_eq_some.mp hi).1
    refine ⟨hle, ?_⟩
    have happ := find_append (u := w.take e) (w := w.drop e) (p := k) fun j hj => by
      rw [take_append_drop] at hj
      rw [length_take, min_eq_left he]
      exact hafter j hj
    rw [take_append_drop, hi, length_take, min_eq_left he] at happ
    obtain ⟨i', hi', heq⟩ := map_eq_some_iff.mp happ.symm
    rw [hi', ← heq, Nat.add_sub_cancel_left]
  cases h with
  | here hi =>
    obtain ⟨hle, hi'⟩ := hfind _ hi
    exact ⟨_, by omega, ScanEnd.here hi'⟩
  | @later _ i b hi hrest =>
    obtain ⟨hle, hi'⟩ := hfind _ hi
    refine ⟨_, ?_, ScanEnd.later (b := b) hi' ?_⟩
    · omega
    · rwa [drop_drop, show e + (i - e + k.length) = i + k.length by omega]

/-- The inner tokenizer cuts at every place that the scan for a special token comes to. -/
theorem inner_cut (hcuts : Cuts inner specials) (hapart : ∀ k ∈ specials, ∀ k' ∈ specials, k ≠ k' → Apart k k')
    (hk : k ∈ specials) :
    ∀ (n : Nat) (w : List Char) (b : Nat), w.length = n → ScanEnd k w b →
    inner w = glue (inner (w.take b)) (inner (w.drop b)) := by
  intro n
  induction n using Nat.strong_induction_on with
  | _ n ih =>
    intro w b hn hscan
    -- the leftmost special token
    have hex : ∃ i, ∃ k₀ ∈ specials, Occurs w k₀ i := by
      obtain ⟨i, hi⟩ := hscan.occurs
      exact ⟨i, k, hk, hi⟩
    classical
    obtain ⟨i, ⟨k₀, hk₀, hocc⟩, hleft⟩ : ∃ i, (∃ k₀ ∈ specials, Occurs w k₀ i) ∧ ∀ j < i, ¬ ∃ k' ∈ specials, Occurs w k' j :=
      ⟨Nat.find hex, Nat.find_spec hex, fun j hj => Nat.find_min hex hj⟩
    have hleft : ∀ k' ∈ specials, ∀ j < i, ¬ Occurs w k' j := fun k' hk' j hj h => hleft j hj ⟨k', hk', h⟩
    have hle := hocc.add_le (hcuts.ne_nil k₀ hk₀)
    have hpos := length_pos_iff.mpr (hcuts.ne_nil k₀ hk₀)
    have hwhole := hcuts.cut w k₀ i hk₀ hocc hleft
    -- what comes before the cut is the same in every start of the text that reaches behind the token
    have hstart : ∀ c, i + k₀.length ≤ c → inner (w.take c) =
        glue (glue (hcuts.plain (w.take i)) (hcuts.special k₀))
        (inner ((w.drop (i + k₀.length)).take (c - (i + k₀.length)))) := by
      intro c hc
      rw [hcuts.cut (w.take c) k₀ i hk₀ (hocc.take hc) fun k' hk' j hj h => hleft k' hk' j hj h.of_take, take_take,
        min_eq_left (by omega), drop_take]
    have hrest : ∀ b', ScanEnd k (w.drop (i + k₀.length)) b' →
        inner w = glue (inner (w.take (i + k₀.length + b'))) (inner (w.drop (i + k₀.length + b'))) := by
      intro b' hb'
      have := ih (w.drop (i + k₀.length)).length (by rw [length_drop]; omega) _ b' rfl hb'
      rw [hwhole, this, hstart _ (Nat.le_add_right _ _), Nat.add_sub_cancel_left, glue_assoc, drop_drop]
      rw [glue_assoc, glue_assoc]
    by_cases hkk : k = k₀
    · subst hkk
      have hfind : find k w = some i := find_eq_some.mpr ⟨hocc, hleft k hk⟩
      cases hscan with
      | here hi =>
        obtain rfl := some.inj (hfind.symm.trans hi)
        rw [hwhole, hstart _ (Nat.le_refl _), Nat.sub_self, take_zero, hcuts.inner_nil, glue_nil]
      | later hi hlater =>
        obtain rfl := some.inj (hfind.symm.trans hi)
        exact hrest _ hlater
    obtain ⟨b', rfl, hb'⟩ := hscan.behind hle fun j hj => by
      refine (hapart k₀ hk₀ k hk (Ne.symm hkk)).le_of_le hocc hj ?_
      by_contra hlt
      exact hleft k hk j (by omega) hj
    exact hrest b' hb'

/-! ## The boundaries are places where it cuts -/

theorem scanToken_spec {token : List Char} (hne : token ≠ []) (text : List Char) (turns start : Nat) (hle : start ≤ text.length)
    (hlt : text.length < start + turns) : ∃ bs, scanToken token text turns start = some bs ∧
      ∀ b ∈ bs, ∃ b', b = start + b' ∧ ScanEnd token (text.drop start) b' := by
  induction turns generalizing start with
  | zero => omega
  | succ turns ih =>
    have hpos := length_pos_iff.mpr hne
    cases hfind : find token (text.drop start) with
    | none => exact ⟨[], by simp [scanToken, hfind], fun b hb => absurd hb not_mem_nil⟩
    | some pos =>
      have hend := (find_eq_some.mp hfind).1.add_le hne
      rw [length_drop] at hend
      obtain ⟨bs, hbs, hmem⟩ := ih (start + pos + token.length) (by omega) (by omega)
      -- an end that the rest of the scan comes to
      have hlater : ∀ b ∈ bs, ∃ b', b = start + b' ∧ ScanEnd token (text.drop start) b' := by
        intro b hb
        obtain ⟨b', rfl, hscan⟩ := hmem b hb
        refine ⟨pos + token.length + b', by omega, ScanEnd.later hfind ?_⟩
        rwa [drop_drop, ← add_assoc]
      refine ⟨_, by simp only [scanToken, hfind, hbs, map_some]; rfl, fun b hb => ?_⟩
      split at hb
      · rcases mem_cons.mp hb with rfl | hb
        · exact ⟨pos + token.length, by omega, ScanEnd.here hfind⟩
        · exact hlater b hb
      · exact hlater b hb

theorem mem_dedup {b : Nat} : ∀ {l : List Nat}, b ∈ dedup l → b ∈ l
  | [], h => h
  | [_], h => h
  | a :: c :: l, h => by
    rw [dedup] at h
    split at h
    · exact mem_cons_of_mem a (mem_dedup h)
    rcases mem_cons.mp h with rfl | h
    · exact mem_cons_self
    · exact mem_cons_of_mem a (mem_dedup h)

theorem scanTokens_spec (text : List Char) {specials : List (List Char)} (hne : ∀ k ∈ specials, k ≠ []) :
    ∃ found, specials.mapM (fun token => scanToken token text (text.length + 1) 0) = some found ∧
      ∀ b ∈ found.flatten, ∃ k ∈ specials, ScanEnd k text b := by
  induction specials with
  | nil => exact ⟨[], rfl, fun b hb => absurd hb not_mem_nil⟩
  | cons k specials ih =>
    obtain ⟨found, hfound, hmem⟩ := ih fun k' hk' => hne k' (mem_cons_of_mem k hk')
    obtain ⟨bs, hbs, hends⟩ := scanToken_spec (hne k mem_cons_self) text (text.length + 1) 0 (Nat.zero_le _) (by omega)
    refine ⟨bs :: found, by simp [mapM_cons, hbs, hfound], fun b hb => ?_⟩
    rcases mem_append.mp hb with hb | hb
    · obtain ⟨b', rfl, hscan⟩ := hends b hb
      exact ⟨k, mem_cons_self, by rwa [zero_add]⟩
    · obtain ⟨k', hk', hscan⟩ := hmem b hb
      exact ⟨k', mem_cons_of_mem k hk', hscan⟩

theorem findSpecialTokenBoundaries_spec (hne : ∀ k ∈ specials, k ≠ []) (text : List Char) :
    ∃ bs, findSpecialTokenBoundaries text specials = some bs ∧ ∀ b ∈ bs, ∃ k ∈ specials, ScanEnd k text b := by
  obtain ⟨found, hfound, hmem⟩ := scanTokens_spec text hne
  refine ⟨_, by simp only [findSpecialTokenBoundaries, hfound]; rfl, fun b hb => ?_⟩
  exact hmem b (mem_mergeSort.mp (mem_dedup hb))

end

/-! ## Every entry stays right -/

section
variable {H E : Type} [DecidableEq H] {su : Setup H E} {texts : List (List Char)} {input : List Char}

/-- What is hashed of the texts: their starts up to a boundary. -/
def hashed (su : Setup H E) (texts : List (List Char)) : Set (List Char) :=
  {pre | ∃ text ∈ texts, ∃ bs, findSpecialTokenBoundaries text su.specialTokenStrings = some bs ∧ ∃ b ∈ bs, pre = text.take b}

def L0Cache.Right (su : Setup H E) (c : L0Cache) : Prop := ∀ s enc, c.map.get? s = some enc → su.inner s = .ok enc

def L1Cache.Right (su : Setup H E) (texts : List (List Char)) (c : L1Cache H) : Prop :=
  ∀ i h e, (c.shards i).get? h = some e → ∃ pre ∈ hashed su texts, h = su.hash pre ∧ su.inner pre = .ok e.tokens

structure CachedTokenizer.Right (su : Setup H E) (texts : List (List Char)) (c : CachedTokenizer H) : Prop where
  l0 : ∀ l0, c.l0 = some l0 → l0.Right su
  l1 : ∀ l1, c.l1 = some l1 → l1.Right su texts

omit [DecidableEq H] in
theorem L0Cache.Right.insert {c : L0Cache} (h : c.Right su) (pick : List (List Char) → Option (List Char)) {key : List Char}
    {value : List Nat} (hkey : su.inner key = .ok value) : (c.insert pick key value).Right su := by
  intro s enc hget
  simp only [L0Cache.insert, get?_set] at hget
  split at hget
  · rename_i hs
    rw [hs, hkey, some.inj hget]
  -- what is evicted only takes an entry away
  refine h s enc ?_
  split at hget
  · split at hget
    · exact (get?_erase_eq_some.mp hget).2
    · exact hget
  · exact hget

namespace L1Cache

theorem get?_setEntry (c : L1Cache H) (idx i : Nat) (shard : Dict H CachedPrefix) (h : H) :
    ((c.setEntry idx shard).shards i).get? h = if i = idx then shard.get? h else (c.shards i).get? h := by
  simp only [setEntry]
  split <;> rfl

variable {c : L1Cache H}

theorem Right.set (hc : c.Right su texts) (idx : Nat) {pre : List Char} (hpre : pre ∈ hashed su texts) {e : CachedPrefix}
    (he : su.inner pre = .ok e.tokens) :
    (c.setEntry idx ((c.shards idx).set (su.hash pre) e)).Right su texts := by
  intro i h e' hget
  rw [get?_setEntry] at hget
  split at hget
  · rw [get?_set] at hget
    split at hget
    · rename_i hh
      obtain rfl := some.inj hget
      exact ⟨pre, hpre, hh, he⟩
    · exact hc idx h e' hget
  · exact hc i h e' hget

theorem Right.erase (hc : c.Right su texts) (idx : Nat) (key : H) :
    (c.setEntry idx ((c.shards idx).erase key)).Right su texts := by
  intro i h e' hget
  rw [get?_setEntry] at hget
  split at hget
  · exact hc idx h e' (get?_erase_eq_some.mp hget).2
  · exact hc i h e' hget

/-- A hit is the encoding of the start of the input, not of the text it was cached for. -/
theorem longestMatch_spec (hinj : Set.InjOn su.hash (hashed su texts)) (hc : c.Right su texts) {boundaries : List Nat}
    (hb : ∀ b ∈ boundaries, input.take b ∈ hashed su texts) :
    (longestMatch su c input boundaries).2.Right su texts ∧ ∀ tokens b, (longestMatch su c input boundaries).1 =
    some (tokens, b) →
      b ∈ boundaries ∧ su.inner (input.take b) = .ok tokens := by
  induction boundaries with
  | nil => exact ⟨hc, nofun⟩
  | cons boundary boundaries ih =>
    obtain ⟨hfirst, hb⟩ := forall_mem_cons.mp hb
    have ih := ih hb
    simp only [longestMatch]
    split
    · rename_i entry hget
      obtain ⟨pre, hmem, hpre, hin⟩ := hc _ _ _ hget
      obtain rfl := hinj hfirst hmem hpre
      refine ⟨Right.set hc _ hfirst hin, fun tokens b h => ?_⟩
      obtain ⟨rfl, rfl⟩ := Prod.mk.inj (some.inj h)
      exact ⟨mem_cons_self, hin⟩
    · exact ⟨ih.1, fun tokens b h => ⟨mem_cons_of_mem boundary (ih.2 tokens b h).1, (ih.2 tokens b h).2⟩⟩

/-! ### Eviction ends -/

omit [DecidableEq H] in
theorem oldest_mem : ∀ {l : List (Sample H)} {s : Sample H}, oldest l = some s → s ∈ l := by
  intro l s h
  cases l with
  | nil => cases h
  | cons a l =>
    obtain rfl := some.inj h
    simpa using foldl_pick_mem (fun s best => decide (s.timestamp < best.timestamp)) l a

theorem mem_samples {o : MapOrder H} {iteration : Nat} {s : Sample H} (h : s ∈ samples o c iteration) :
    s.shardIdx < 16 ∧ ∃ e, (c.shards s.shardIdx).get? s.hash = some e := by
  obtain ⟨i, -, hi⟩ := mem_filterMap.mp h
  obtain ⟨key, -, hkey⟩ := bind_eq_some_iff.mp hi
  obtain ⟨e, he, rfl⟩ := map_eq_some_iff.mp hkey
  exact ⟨Nat.mod_lt _ (by omega), e, he⟩

theorem entries_erase_lt {idx : Nat} (hidx : idx < 16) {key : H} {e : CachedPrefix} (hget : (c.shards idx).get? key = some e) :
    (c.setEntry idx ((c.shards idx).erase key)).entries < c.entries := by
  have hless : ((c.shards idx).erase key).items.length < (c.shards idx).items.length := by
    refine length_filter_lt_length_iff_exists.mpr ⟨(key, e), get?_eq_some.mp hget, ?_⟩
    simp
  refine sum_lt_sum _ _ (fun i hi => ?_) ⟨idx, mem_range.mpr hidx, ?_⟩
  · simp only [setEntry]
    split
    · rename_i heq
      rw [heq]
      exact le_of_lt hless
    · exact le_refl _
  · simpa only [setEntry, if_true] using hless

theorem evictLru_spec (hc : c.Right su texts) (o : MapOrder H) (spaceNeeded : Nat) :
    ∃ c', c.evictLru o spaceNeeded = some c' ∧ c'.Right su texts := by
  obtain ⟨w, hrun, hw, -⟩ := whileLoop_ok () (fun w : EvictState H => !w.broke && decide (w.freed < spaceNeeded))
    (fun w => .ok (evictRound o w))
    (fun w => w.cache.Right su texts) (fun w => if w.broke then 0 else w.cache.entries + 1)
    (fun w hw hcond => by
      have hgo : w.broke = false := by
        simp only [Bool.and_eq_true, Bool.not_eq_true'] at hcond
        exact hcond.1
      refine ⟨_, rfl, ?_⟩
      unfold evictRound
      split
      · exact ⟨hw, by simp [hgo]⟩
      rename_i s hs
      obtain ⟨hidx, e, he⟩ := mem_samples (oldest_mem hs)
      rw [he]
      refine ⟨Right.erase hw _ _, ?_⟩
      have hlt := entries_erase_lt hidx he
      simp only [hgo]
      exact Nat.succ_lt_succ hlt)
    (c.entries + 1) ⟨c, 0, 0, false⟩ hc (le_refl _)
  exact ⟨w.cache, by simp [evictLru, hrun], hw⟩

/-! ### Insertion -/

theorem insertEntries_right {boundaries : List Nat} (hb : ∀ b ∈ boundaries, input.take b ∈ hashed su texts)
    (es : List (H × List Nat × Nat))
    (c : L1Cache H) (hes : boundaries.mapM (newEntry su input) = .ok es) (hc : c.Right su texts) :
    (es.foldl (insertEntry su) c).Right su texts := by
  induction boundaries generalizing es c with
  | nil =>
    cases hes
    exact hc
  | cons b boundaries ih =>
    obtain ⟨hfirst, hb⟩ := forall_mem_cons.mp hb
    rw [mapM_cons] at hes
    cases hin : su.inner (input.take b) with
    | error e => simp [newEntry, hin, bind, Except.bind] at hes
    | ok tokens =>
      cases hrest : boundaries.mapM (newEntry su input) with
      | error e => simp [newEntry, hin, hrest, bind, Except.bind, pure, Except.pure] at hes
      | ok es' =>
        simp only [newEntry, hin, hrest, bind, Except.bind, pure, Except.pure, Except.ok.injEq] at hes
        subst hes
        exact ih hb es' _ hrest (Right.set hc _ hfirst hin)

theorem insertAtBoundaries_spec (hne : ∀ k ∈ su.specialTokenStrings, k ≠ []) (hc : c.Right su texts) (o : MapOrder H)
    (hin : input ∈ texts) : ∃ c', c.insertAtBoundaries su o input = some c' ∧ c'.Right su texts := by
  obtain ⟨bs, hbs, -⟩ := findSpecialTokenBoundaries_spec hne input
  have hb : ∀ b ∈ bs, input.take b ∈ hashed su texts := fun b hb => ⟨input, hin, bs, hbs, b, hb, rfl⟩
  simp only [insertAtBoundaries, hbs, bind_eq_bind, bind_some]
  cases hes : bs.mapM (newEntry su input) with
  | error e => exact ⟨c, rfl, hc⟩
  | ok es =>
    cases es with
    | nil => exact ⟨c, rfl, hc⟩
    | cons e es =>
      dsimp only
      split
      · obtain ⟨c', hevict, hc'⟩ := evictLru_spec hc o ((e :: es).map fun e => e.2.2).sum
        rw [hevict]
        exact ⟨_, rfl, insertEntries_right hb (e :: es) c' hes hc'⟩
      · exact ⟨_, rfl, insertEntries_right hb (e :: es) c hes hc⟩

end L1Cache

/-! ## `encode` answers as the inner tokenizer -/

theorem encodeFull_spec (hne : ∀ k ∈ su.specialTokenStrings, k ≠ []) {c : CachedTokenizer H} (hc : c.Right su texts)
    (o : MapOrder H)
    (hmem : input ∈ texts) : ∃ c', encodeFull su o c input = some (su.inner input, c') ∧ c'.Right su texts := by
  unfold encodeFull
  cases hin : su.inner input with
  | error e => exact ⟨c, rfl, hc⟩
  | ok encoding =>
    have hl0 : ∀ l0, c.l0.map (fun l0 => l0.insert o.l0Key input encoding) = some l0 → l0.Right su := by
      intro l0 h
      obtain ⟨l0', hl0', rfl⟩ := map_eq_some_iff.mp h
      exact (hc.l0 l0' hl0').insert o.l0Key hin
    cases hl1 : c.l1 with
    | none => exact ⟨_, rfl, hl0, nofun⟩
    | some l1 =>
      obtain ⟨l1', hrun, hl1'⟩ := L1Cache.insertAtBoundaries_spec hne (hc.l1 l1 hl1) o hmem
      refine ⟨⟨_, some l1'⟩, by simp only [hrun]; rfl, hl0, fun l1 h => ?_⟩
      obtain rfl := some.inj h
      exact hl1'

theorem encodeSuffix_spec {c : CachedTokenizer H} (hc : c.Right su texts) (o : MapOrder H) {tokens : List Nat} {b : Nat}
    (hpre : su.inner (input.take b) = .ok tokens)
    (hcut : su.inner input = glue (su.inner (input.take b)) (su.inner (input.drop b))) :
    (encodeSuffix su o c input tokens b).1 = su.inner input ∧ (encodeSuffix su o c input tokens b).2.Right su texts := by
  unfold encodeSuffix
  cases hin : su.inner (input.drop b) with
  | error e =>
    rw [hcut, hpre, hin]
    exact ⟨rfl, hc⟩
  | ok suffix =>
    rw [hpre, hin] at hcut
    refine ⟨hcut.symm, fun l0 h => ?_, hc.l1⟩
    obtain ⟨l0', hl0', rfl⟩ := map_eq_some_iff.mp h
    exact (hc.l0 l0' hl0').insert o.l0Key hcut

theorem encode_spec (hcuts : Cuts su.inner su.specialTokenStrings)
    (hapart : ∀ k ∈ su.specialTokenStrings, ∀ k' ∈ su.specialTokenStrings, k ≠ k' → Apart k k')
    (hinj : Set.InjOn su.hash (hashed su texts)) {c : CachedTokenizer H} (hc : c.Right su texts) (o : MapOrder H)
    (hin : input ∈ texts) :
    ∃ c', encode su o c input = some (su.inner input, c') ∧ c'.Right su texts := by
  unfold encode
  split
  · rename_i cached hget
    obtain ⟨l0, hl0, hget⟩ := bind_eq_some_iff.mp hget
    exact ⟨c, by rw [hc.l0 l0 hl0 input cached hget], hc⟩
  cases hl1 : c.l1 with
  | none => exact encodeFull_spec hcuts.ne_nil hc o hin
  | some l1 =>
    obtain ⟨bs, hbs, hmem⟩ := findSpecialTokenBoundaries_spec hcuts.ne_nil input
    have hb : ∀ b ∈ bs.reverse, input.take b ∈ hashed su texts := fun b hb => ⟨input, hin, bs, hbs, b, mem_reverse.mp hb, rfl⟩
    obtain ⟨hl1', hhit⟩ := L1Cache.longestMatch_spec hinj (hc.l1 l1 hl1) hb
    simp only [L1Cache.longestPrefixMatch, hbs, bind_eq_bind, bind_some, pure]
    generalize hm : L1Cache.longestMatch su l1 input bs.reverse = m at hl1' hhit
    obtain ⟨hit, l1'⟩ := m
    have hc' : CachedTokenizer.Right su texts { c with l1 := some l1' } := ⟨hc.l0, fun l h => by
      obtain rfl := some.inj h
      exact hl1'⟩
    cases hit with
    | none => exact encodeFull_spec hcuts.ne_nil hc' o hin
    | some hit =>
      obtain ⟨tokens, b⟩ := hit
      dsimp only
      split
      · obtain ⟨hb, hpre⟩ := hhit tokens b rfl
        obtain ⟨k, hk, hscan⟩ := hmem b (mem_reverse.mp hb)
        obtain ⟨hres, hright⟩ := encodeSuffix_spec hc' o hpre (inner_cut hcuts hapart hk input.length input b rfl hscan)
        exact ⟨_, by rw [← hres], hright⟩
      · exact encodeFull_spec hcuts.ne_nil hc' o hin

theorem CachedTokenizer.right_new (config : CacheConfig) : (CachedTokenizer.new H config).Right su texts := by
  refine ⟨fun l0 h => ?_, fun l1 h => ?_⟩
  · simp only [CachedTokenizer.new] at h
    split at h
    · obtain rfl := some.inj h
      nofun
    · cases h
  simp only [CachedTokenizer.new] at h
  split at h
  · obtain rfl := some.inj h
    nofun
  · cases h

theorem encodeAll_spec (hcuts : Cuts su.inner su.specialTokenStrings)
    (hapart : ∀ k ∈ su.specialTokenStrings, ∀ k' ∈ su.specialTokenStrings, k ≠ k' → Apart k k')
    (hinj : Set.InjOn su.hash (hashed su texts)) (calls : List (MapOrder H × List Char)) (hcalls : ∀ call ∈ calls, call.2 ∈ texts)
    (c : CachedTokenizer H) (hc : c.Right su texts) :
    encodeAll su c calls = some (calls.map fun call => su.inner call.2) := by
  induction calls generalizing c with
  | nil => rfl
  | cons call calls ih =>
    obtain ⟨o, input⟩ := call
    obtain ⟨hcall, hcalls⟩ := forall_mem_cons.mp hcalls
    obtain ⟨c', hrun, hc'⟩ := encode_spec hcuts hapart hinj hc o hcall
    simp [encodeAll, hrun, ih hcalls c' hc', pure]

/-- Caching does not change tokenization, whatever the sizes of the caches are and whatever is evicted. -/
theorem encode_transparent (su : Setup H E) (hcuts : Cuts su.inner su.specialTokenStrings)
    (hapart : ∀ k ∈ su.specialTokenStrings, ∀ k' ∈ su.specialTokenStrings, k ≠ k' → Apart k k') (config : CacheConfig)
    (calls : List (MapOrder H × List Char)) (hinj : Set.InjOn su.hash (hashed su (calls.map Prod.snd))) :
    encodeAll su (CachedTokenizer.new H config) calls = some (calls.map fun call => su.inner call.2) :=
  encodeAll_spec hcuts hapart hinj calls (fun _ hcall => mem_map_of_mem hcall) _ (CachedTokenizer.right_new config)

end

/-! ### A tokenizer that cuts at bars -/

/-- The lengths of the pieces between bars, and 0 for a bar; `n` characters of a piece have been read. -/
def pieces : Nat → List Char → List Nat
  | n, [] => if n = 0 then [] else [n]
  | n, c :: l => if c = '|' then (if n = 0 then [] else [n]) ++ 0 :: pieces 0 l else pieces (n + 1) l

theorem pieces_append_bar : ∀ (u : List Char) (n : Nat) (l : List Char), '|' ∉ u →
    pieces n (u ++ '|' :: l) = pieces n u ++ 0 :: pieces 0 l
  | [], n, l, _ => by simp [pieces]
  | c :: u, n, l, h => by
    obtain ⟨hc, hu⟩ := not_or.mp (mt mem_cons.mpr h)
    rw [cons_append, pieces, if_neg (Ne.symm hc), pieces, if_neg (Ne.symm hc), pieces_append_bar u (n + 1) l hu]

def bars : Setup (List Char) Unit where
  inner w := .ok (pieces 0 w)
  specialTokens := ⟨none, some ['|'], none, none, some ['|'], none, none, []⟩
  hash w := w
  shardOf w := Fin.ofNat 16 w.length

theorem mem_bars {k : List Char} (hk : k ∈ bars.specialTokenStrings) : k = ['|'] := by
  simpa [Setup.specialTokenStrings, extractSpecialTokenStrings, bars] using hk

theorem bars_ne_nil : ∀ k ∈ bars.specialTokenStrings, k ≠ [] := by
  intro k hk
  rw [mem_bars hk]
  exact cons_ne_nil _ _

theorem bars_cut (w k : List Char) (i : Nat) (hk : k ∈ bars.specialTokenStrings) (hocc : Occurs w k i)
    (hleft : ∀ k' ∈ bars.specialTokenStrings, ∀ j < i, ¬ Occurs w k' j) : bars.inner w =
      glue (glue (.ok (pieces 0 (w.take i))) (.ok [0])) (bars.inner (w.drop (i + k.length))) := by
  obtain rfl := mem_bars hk
  obtain ⟨l, hl⟩ := hocc
  have hw : w = w.take i ++ '|' :: l := by
    rw [← singleton_append, hl, take_append_drop]
  have hbar : '|' ∉ w.take i := by
    intro hmem
    obtain ⟨j, hj, hget⟩ := mem_iff_getElem.mp hmem
    rw [length_take] at hj
    refine hleft ['|'] hk j (by omega) ?_
    rw [getElem_take] at hget
    rw [Occurs, drop_eq_getElem_cons (by omega), hget]
    exact ⟨_, rfl⟩
  have hdrop : w.drop (i + 1) = l := by
    rw [← drop_drop, ← hl]
    rfl
  show Except.ok (pieces 0 w) = _
  rw [hw, pieces_append_bar _ _ _ hbar, ← hw, show ['|'].length = 1 from rfl, hdrop]
  exact congrArg Except.ok (append_assoc _ [0] _).symm

def barsCuts : Cuts bars.inner bars.specialTokenStrings where
  plain w := .ok (pieces 0 w)
  special _ := .ok [0]
  ne_nil := bars_ne_nil
  empty := rfl
  whole _ _ := rfl
  cut := bars_cut

def firstKey : MapOrder (List Char) where
  l0Key keys := keys.head?
  l1Key _ _ keys := keys.head?
  l1_mem _ _ _ _ h := mem_of_mem_head? h
  l1_some _ _ keys h := by simpa using h

theorem encode_transparent_bars : encodeAll bars (CachedTokenizer.new (List Char) ⟨true, 1, true, 20⟩)
      [(firstKey, ['a', '|', 'b']), (firstKey, ['a', '|', 'c', 'd']), (firstKey, ['|', 'a', '|', 'b'])] =
      some [.ok [1, 0, 1], .ok [1, 0, 2], .ok [0, 1, 0, 1]] :=
  encode_transparent bars barsCuts (fun _ hk _ hk' hne => absurd ((mem_bars hk).trans (mem_bars hk').symm) hne) _ _
    fun _ _ _ _ h => h

end DynaSpec.Router.TokenizerCache
