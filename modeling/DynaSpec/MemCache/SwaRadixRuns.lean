/-
  DynaSpec.MemCache.SwaRadixRuns — the SWA cache over whole runs.

  A run makes calls of `insert`, `match_prefix` and `evict`, takes locks on nodes that have
  the guarantee of the sliding window and gives each lock back with the uuid it was given.
  `Took` says which sliding-window locks `inc_lock_ref` takes: those on the way to the node
  below some node of it. The place of that node is noted with the lock.

  - `swa_cache_accounted`: in every state of every run the sizes, the locks, the lists and the
    tombstones are as they should be, every call goes through, and a lock gives back exactly
    the sliding-window locks below the place noted when it was taken.
  - `match_prefix_guaranteed_iff`: the node that `match_prefix` returns has the guarantee, can
    be locked and is the last such node on the way of the key, exactly if fewer tokens than a
    window are behind the last such node. `match_behind_two_tombstones` is a run to a state in
    which it is not so.
-/

import DynaSpec.MemCache.SwaRadixMatch
import Mathlib

namespace DynaSpec.MemCache.SwaRadix

open DynaSpec.Lib SwaCache List RadixKey Nat Visits
open Except (ok)

variable {prevPrefixLen : Nat} {value : List Nat}

/-! ## Runs -/

/-- The nodes that can be reached from the root. -/
inductive SwaCache.InTree (s : SwaCache) : NodeId → Prop where
  | root : s.InTree 0
  | child {p c : NodeId} {x : ChildKey} : s.InTree p → (s.node p).children.get? x = some c → s.InTree c

/-- The pages from the root to each node. -/
def Spells (pageSize : Nat) (s : SwaCache) (path : NodeId → List ChildKey) : Prop :=
  path 0 = [] ∧ ∀ p x c, s.InTree p → (s.node p).children.get? x = some c → path c = path p ++ word pageSize (s.node c).key

variable (pageSize : Nat) (s s' : SwaCache) (n : NodeId) (top : Nat)

/-- The sliding-window lock counters of the nodes on the way to `n` and more than `top` pages from the root
    change by `d`, and no others. -/
def Moves (d : Int) : Prop :=
  ∀ path, Spells pageSize s path → ∀ m, s.InTree m → m ≠ 0 →
    (path m <+: path n ∧ top < (path m).length → (s'.node m).swaLockRef = (s.node m).swaLockRef + d) ∧
    (¬ (path m <+: path n ∧ top < (path m).length) → (s'.node m).swaLockRef = (s.node m).swaLockRef)

/-- `inc_lock_ref` has locked the way to `n` below a node that is `top` pages from the root. -/
def Took : Prop :=
  Moves pageSize s s' n top 1 ∧ ∀ path, Spells pageSize s path → ∃ q, s.InTree q ∧ path q <+: path n ∧ top = (path q).length

/-- A lock and the place above which it has taken no sliding-window lock. -/
structure Held where
  lock : Lock
  top : Nat

structure System where
  cache : SwaCache
  held : List Held

inductive Action where
  | insert (key : RadixKey) (value : List Nat) (prevPrefixLen : Nat)
  | matchPrefix (key : RadixKey)
  | evict (fullNumTokens swaNumTokens : Nat)
  | incLockRef (n : NodeId)
  | decLockRef (i : Nat)

/-- Keys of whole pages with a slot for each token are inserted, and nodes with the guarantee are locked. -/
def Allowed (cfg : Config) (t : System) : Action → Prop
  | .insert key value _ => cfg.pageSize ∣ (keyConvertFn cfg key.tokenIds).length ∧
      (if cfg.isEagle then value.take (keyConvertFn cfg key.tokenIds).length else value).length =
      (keyConvertFn cfg key.tokenIds).length
  | .matchPrefix _ => True
  | .evict _ _ => True
  | .incLockRef n => t.cache.InTree n ∧ Window t.cache cfg.slidingWindowSize n
  | .decLockRef i => i < t.held.length

inductive Step (cfg : Config) (t : System) : Action → System → Prop where
  | insert {key : RadixKey} {value : List Nat} {prevPrefixLen : Nat} {s' : SwaCache} {total : Nat} :
      insert cfg t.cache key value prevPrefixLen = .ok (s', total) →
      Step cfg t (.insert key value prevPrefixLen) { t with cache := s' }
  | matchPrefix {key : RadixKey} {s' : SwaCache} {value : List Nat} {n : NodeId} :
      matchPrefix cfg t.cache key = .ok (s', value, n) → Step cfg t (.matchPrefix key) { t with cache := s' }
  | evict {fullNumTokens swaNumTokens : Nat} {s' : SwaCache} :
      evict cfg t.cache fullNumTokens swaNumTokens = .ok s' →
      Step cfg t (.evict fullNumTokens swaNumTokens) { t with cache := s' }
  | incLockRef {n : NodeId} {s' : SwaCache} {uuid : Option Nat} {top : Nat} :
      incLockRef cfg t.cache n = .ok (s', uuid) → Took cfg.pageSize t.cache s' n top →
        Step cfg t (.incLockRef n) ⟨s', ⟨⟨n, uuid⟩, top⟩ :: t.held⟩
  | decLockRef {i : Nat} {h : Held} {s' : SwaCache} : t.held[i]? = some h → decLockRef cfg t.cache h.lock.node h.lock.uuid =
    .ok s' →
      Step cfg t (.decLockRef i) ⟨s', t.held.eraseIdx i⟩

inductive Reaches (cfg : Config) : System → Prop where
  | start : Reaches cfg ⟨new, []⟩
  | step {t t' : System} {a : Action} : Reaches cfg t → Allowed cfg t a → Step cfg t a t' → Reaches cfg t'

/-! ## The tree -/

variable {pageSize : Nat} {s s' : SwaCache} {live : Finset NodeId} {path : NodeId → List ChildKey} {held : List Lock}
  {top : Nat → Nat}

variable {key : RadixKey} {n : NodeId} {cfg : Config} {a : Action} {l : Lock}

section
variable (w : Wf pageSize s live path)
include w

theorem Wf.mem_iff : n ∈ live ↔ s.InTree n := by
  constructor
  · -- the way from the root gets shorter at the parent
    induction hk : (path n).length using Nat.strong_induction_on generalizing n with
    | _ k ih =>
      intro hn
      by_cases h0 : n = 0
      · rw [h0]
        exact SwaCache.InTree.root
      · obtain ⟨p, x, hp, -, hp', -, hc⟩ := w.up hn h0
        exact SwaCache.InTree.child (ih _ (hk ▸ (w.shape.parent_lt hn h0 hp').2.2) rfl hp) hc
  · intro h
    induction h with
    | root => exact w.shape.root_live
    | child _ hc ih => exact (w.child ih hc).1

theorem Wf.spells : Spells pageSize s path := by
  refine ⟨w.shape.root_path, fun p x c hp hc => ?_⟩
  obtain ⟨hclive, hc0, hcp, -⟩ := w.child (w.mem_iff.mpr hp) hc
  exact (w.shape.parent_lt hclive hc0 hcp).2.1

theorem Wf.path_eq {path' : NodeId → List ChildKey} (h : Spells pageSize s path') (hn : s.InTree n) : path' n = path n := by
  induction hn with
  | root => rw [h.1, w.shape.root_path]
  | child hp hc ih => rw [h.2 _ _ _ hp hc, w.spells.2 _ _ _ hp hc, ih]

/-- To say it for one way of spelling the paths is enough. -/
theorem Wf.moves_iff (hn : n ∈ live) {t : Nat} {d : Int} : Moves pageSize s s' n t d ↔
    ∀ m ∈ live, m ≠ 0 → (path m <+: path n ∧ t < (path m).length → (s'.node m).swaLockRef = (s.node m).swaLockRef + d) ∧
      (¬ (path m <+: path n ∧ t < (path m).length) → (s'.node m).swaLockRef = (s.node m).swaLockRef) := by
  constructor
  · exact fun h m hm h0 => h path w.spells m (w.mem_iff.mp hm) h0
  · intro h path' hpath' m hm h0
    rw [w.path_eq hpath' hm, w.path_eq hpath' (w.mem_iff.mp hn)]
    exact h m (w.mem_iff.mpr hm) h0

end

/-! ## The new cache -/

theorem inv_new (cfg : Config) (top : Nat → Nat) (hheld : ∀ l ∈ held, l.node = 0 ∧ l.uuid = none) :
    Inv cfg.pageSize new {0} (fun _ => []) none top held := by
  have h0 : ∀ {n : NodeId}, n ∈ ({0} : Finset NodeId) → n = 0 := Finset.mem_singleton.mp
  have hnode : new.node 0 = { fullLockRef := 1, swaLockRef := 1 } := rfl
  have hno : ∀ {p : Prop} {n : NodeId}, n ∈ ({0} : Finset NodeId) → n ≠ 0 → p := fun hn hne => absurd (h0 hn) hne
  have htotal : ∀ P, new.total {0} P = 0 := fun P => rfl
  have huuid : ∀ n ∈ ({0} : Finset NodeId), ∀ u, (new.node n).swaUuid = some u → False := by
    intro n hn u hu
    rw [h0 hn, hnode] at hu
    cases hu
  have hlock : ∀ l ∈ held, ∀ u, l.uuid = some u → False := by
    intro l hl u hu
    rw [(hheld l hl).2] at hu
    cases hu
  refine ⟨⟨⟨.single (word_eq_nil rfl) rfl zero_lt_one fun x => Dict.get?_empty x, fun n hn => ?_, fun n hn => ?_⟩,
    ⟨rfl, nodup_nil, fun n => ⟨fun h => absurd h not_mem_nil, fun h => hno h.1 h.2⟩⟩,
    ⟨rfl, nodup_nil, fun n => ⟨fun h => absurd h not_mem_nil, fun h => hno h.1 h.2.1⟩⟩,
    ⟨(htotal _).symm, (htotal _).symm, (htotal _).symm, (htotal _).symm⟩, fun n hn hne => hno hn hne, fun n hn hne => hno hn hne,
    ⟨fun n hn _ _ u hu => (huuid n hn u hu).elim, fun n hn u hu => (huuid n hn u hu).elim⟩, ⟨rfl, rfl, rfl, rfl, rfl⟩⟩,
    fun l hl => Finset.mem_singleton.mpr (hheld l hl).1, fun n hn hne => hno hn hne, fun n hn hne => hno hn hne,
    fun l hl u hu => (hlock l hl u hu).elim, fun n hn u _ hu => (huuid n hn u hu).elim, fun l hl u hu => (hlock l hl u hu).elim⟩
  · rw [h0 hn, hnode]
    exact dvd_zero _
  · rw [h0 hn, hnode]
    rfl

/-! ## Locks by their places -/

section
variable (h : Inv pageSize s live path none top held)
include h

/-- The locks of one more lock. -/
theorem moves_of_cons {top' : Nat → Nat}
    (h' : Inv pageSize s' live path none top' (l :: held)) (hn : l.node = n) (hplace : ∀ k ∈ held,
    place top' k.uuid = place top k.uuid) :
    Moves pageSize s s' n (place top' l.uuid) 1 := by
  classical
  subst hn
  refine (h.base.wf.moves_iff (h'.locked.nodes l mem_cons_self)).mpr fun m hm h0 => ?_
  have hold : (held.countP fun k => decide (Region path top' m k)) = held.countP fun k => decide (Region path top m k) :=
    countP_congr fun k hk => by rw [decide_eq_true_eq, decide_eq_true_eq, Region, Region, hplace k hk]
  have hnew := h'.locked.swa m hm h0
  rw [countP_cons, hold] at hnew
  rw [h.locked.swa m hm h0, hnew]
  constructor
  · intro hb
    rw [if_pos (by simpa using (show Region path top' m l from hb))]
    rfl
  · intro hb
    rw [if_neg (by simpa using (show ¬ Region path top' m l from hb))]
    rfl

end

theorem Inv.moves_back (h : Inv pageSize s live path none top (l :: held)) (h' : Inv pageSize s' live path none top held) :
    Moves pageSize s s' l.node (place top l.uuid) (-1) := by
  classical
  refine (h.base.wf.moves_iff (h.locked.nodes l mem_cons_self)).mpr fun m hm h0 => ?_
  have hold := h.locked.swa m hm h0
  rw [countP_cons] at hold
  rw [h'.locked.swa m hm h0]
  constructor
  · intro hb
    rw [if_pos (by simpa using (show Region path top m l from hb))] at hold
    omega
  · intro hb
    rw [if_neg (by simpa using (show ¬ Region path top m l from hb))] at hold
    omega

/-- There is one place only that a lock can have been taken below. -/
theorem took_unique (w : Wf pageSize s live path) {t₁ t₂ : Nat} (h₁ : Took pageSize s s' n t₁) (h₂ : Took pageSize s s' n t₂) :
    t₁ = t₂ := by
  -- a place below the other would itself be locked and not locked
  have hle : ∀ {t₁ t₂ : Nat}, Took pageSize s s' n t₁ → Took pageSize s s' n t₂ → t₂ ≤ t₁ := by
    intro t₁ t₂ h₁ h₂
    by_contra hlt
    obtain ⟨q, hq, hqn, hq₂⟩ := h₂.2 path w.spells
    have hq0 : q ≠ 0 := fun he => by
      rw [he, w.shape.root_path] at hq₂
      simp only [length_nil] at hq₂
      omega
    have hone := (h₁.1 path w.spells q hq hq0).1 ⟨hqn, by omega⟩
    have hzero := (h₂.1 path w.spells q hq hq0).2 fun hb => by omega
    omega
  exact le_antisymm (hle h₂ h₁) (hle h₁ h₂)

/-! ## Steps -/

/-- The invariant of runs. -/
structure Good (cfg : Config) (t : System) : Prop where
  inv : ∃ live path top, Inv cfg.pageSize t.cache live path none top (t.held.map Held.lock) ∧ ∀ h ∈ t.held,
    h.top = place top h.lock.uuid
  disabled : cfg.disable = true → t.cache = new ∧ ∀ h ∈ t.held, h.lock.node = 0 ∧ h.lock.uuid = none

theorem good_start (cfg : Config) : Good cfg ⟨new, []⟩ where
  inv := ⟨{0}, fun _ => [], fun _ => 0, inv_new cfg _ fun _ hl => absurd hl not_mem_nil, fun _ hh => absurd hh not_mem_nil⟩
  disabled _ := ⟨rfl, fun _ hh => absurd hh not_mem_nil⟩

variable {t : System}

theorem Good.insert (cfg : Config) (h : Good cfg t) (ha : Allowed cfg t (.insert key value prevPrefixLen)) :
    ∃ s' total, insert cfg t.cache key value prevPrefixLen = .ok (s', total) ∧ Good cfg { t with cache := s' } := by
  obtain ⟨hdvd, hlen⟩ := ha
  unfold SwaCache.insert
  cases hd : cfg.disable with
  | true => exact ⟨t.cache, 0, rfl, h⟩
  | false =>
    obtain ⟨live, path, top, hinv, htop⟩ := h.inv
    obtain ⟨s', total, live', path', hs', hinv'⟩ := hinv.insertHelper cfg
      (show cfg.pageSize ∣ (⟨keyConvertFn cfg key.tokenIds, key.extraKey⟩ : RadixKey).len from hdvd) hlen prevPrefixLen
    refine ⟨s', total, hs', ⟨live', path', top, hinv', htop⟩, fun hd' => ?_⟩
    rw [hd] at hd'
    cases hd'

theorem Good.evict (cfg : Config) (h : Good cfg t) (fullNumTokens swaNumTokens : Nat) :
    ∃ s', evict cfg t.cache fullNumTokens swaNumTokens = .ok s' ∧ Good cfg { t with cache := s' } := by
  cases hd : cfg.disable with
  | true =>
    refine ⟨t.cache, ?_, h⟩
    rw [SwaCache.evict, hd]
    rfl
  | false =>
    obtain ⟨live, path, top, hinv, htop⟩ := h.inv
    obtain ⟨s', live', hs', hinv'⟩ := hinv.evict cfg fullNumTokens swaNumTokens
    refine ⟨s', hs', ⟨live', path, top, hinv', htop⟩, fun hd' => ?_⟩
    rw [hd] at hd'
    cases hd'

theorem lookupKey_dvd (cfg : Config) (key : RadixKey) : cfg.pageSize ∣ (lookupKey cfg key).len := by
  unfold lookupKey
  split_ifs with h1
  · rw [h1]
    exact one_dvd _
  · simp only [len, tokenIds_upto, length_take]
    rw [min_eq_left (div_mul_le_self _ _)]
    exact dvd_mul_left _ _

theorem lookupKey_child (cfg : Config) (h0 : (keyConvertFn cfg key.tokenIds).length ≠ 0) :
    ∃ ck, getChildKey cfg.pageSize (lookupKey cfg key) = .ok ck := by
  unfold lookupKey
  by_cases h1 : cfg.pageSize = 1
  · rw [if_pos h1]
    exact getChildKey_ok cfg.pageSize fun hnil => h0 (by rw [show keyConvertFn cfg key.tokenIds = [] from hnil]; rfl)
  rw [if_neg h1]
  unfold getChildKey
  rw [if_neg h1]
  cases key.extraKey with
  | none => exact ⟨_, rfl⟩
  | some e => exact ⟨_, rfl⟩

theorem lookupKey_nil (cfg : Config) (h0 : (keyConvertFn cfg key.tokenIds).length = 0) : (lookupKey cfg key).len = 0 := by
  unfold lookupKey
  split_ifs
  · exact h0
  · simp [len, tokenIds_upto, h0]

/-- A key without tokens leads nowhere. -/
theorem stops_nil (w : Wf pageSize s live path) (h0 : key.len = 0) : Stops s key 0 0 := by
  intro x c hc hkey
  obtain ⟨hclive, hc0, -, -⟩ := w.child w.shape.root_live hc
  have hpos := w.key_pos hclive hc0
  have hlen := congrArg len hkey
  simp only [len, tokenIds_upto, tokenIds_from, length_take, length_drop] at hlen h0 hpos
  omega

/-- What `match_prefix` returns, with the caches that look nothing up. -/
theorem Good.matchPrefix (cfg : Config) (h : Good cfg t) (key : RadixKey) :
    ∃ s' value n vs last r, matchPrefix cfg t.cache key = .ok (s', value.flatten, n) ∧ Good cfg { t with cache := s' } ∧
      Found cfg t.cache (lookupKey cfg key) s' value n vs last r := by
  obtain ⟨live, path, top, hinv, htop⟩ := h.inv
  unfold SwaCache.matchPrefix
  by_cases hd : cfg.disable = true ∨ (keyConvertFn cfg key.tokenIds).length = 0
  · rw [if_pos hd]
    refine ⟨t.cache, [], 0, [], 0, 0, rfl, h, root, ?_, ⟨[], 0, 0, root, .inl ⟨rfl, ?_⟩⟩, rfl, rfl⟩
    · rcases hd with hd | h0
      · rw [(h.disabled hd).1]
        nofun
      · exact stops_nil hinv.base.wf (lookupKey_nil cfg h0)
    rcases Nat.eq_zero_or_pos (lookupKey cfg key).len with h0 | hpos
    · exact .inl h0
    obtain ⟨x, hx⟩ := getChildKey_ok cfg.pageSize (ne_nil_of_length_pos hpos)
    refine .inr ⟨x, hx, ?_⟩
    rcases hd with hd | h0
    · rw [(h.disabled hd).1]
      rfl
    · exact absurd (lookupKey_nil cfg h0) (ne_of_gt hpos)
  · rw [if_neg hd]
    rw [not_or] at hd
    obtain ⟨ck, hck⟩ := lookupKey_child cfg hd.2
    obtain ⟨s', value, n, vs, last, r, live', path', hs', hinv', hfound⟩ := hinv.matchPrefixHelper cfg (lookupKey_dvd cfg key) hck
    refine ⟨s', value, n, vs, last, r, ?_, ⟨⟨live', path', top, hinv', htop⟩, fun hd' => absurd hd' hd.1⟩, hfound⟩
    rw [hs']
    rfl

theorem inTree_new (h : new.InTree n) : n = 0 := by
  induction h with
  | root => rfl
  | child _ hc ih =>
    rw [ih] at hc
    cases hc

theorem Good.incLockRef (cfg : Config) (h : Good cfg t) (ha : Allowed cfg t (.incLockRef n)) :
    ∃ s' uuid top, incLockRef cfg t.cache n = .ok (s', uuid) ∧ Took cfg.pageSize t.cache s' n top ∧
      Good cfg ⟨s', ⟨⟨n, uuid⟩, top⟩ :: t.held⟩ := by
  obtain ⟨hn, hwindow⟩ := ha
  obtain ⟨live, path, top, hinv, htop⟩ := h.inv
  cases hd : cfg.disable with
  | true =>
    obtain ⟨hnew, hheld⟩ := h.disabled hd
    rw [hnew] at hn ⊢
    obtain rfl := inTree_new hn
    have hlocks : ∀ h ∈ ⟨⟨0, none⟩, 0⟩ :: t.held, h.lock.node = 0 ∧ h.lock.uuid = none := by
      intro h hh
      rcases mem_cons.mp hh with rfl | hh
      · exact ⟨rfl, rfl⟩
      · exact hheld h hh
    refine ⟨new, none, 0, ?_, ⟨fun path _ m hm hm0 => absurd (inTree_new hm) hm0,
      fun path hpath => ⟨0, hn, prefix_rfl, by rw [hpath.1]; rfl⟩⟩,
      ⟨{0}, fun _ => [], top, inv_new cfg top fun l hl => ?_, fun h hh => ?_⟩, fun _ => ⟨rfl, hlocks⟩⟩
    · rw [incLockRef, hd]
      rfl
    · obtain ⟨h', hh', rfl⟩ := mem_map.mp hl
      exact hlocks h' hh'
    · rcases mem_cons.mp hh with rfl | hh
      · rfl
      · exact htop h hh
  | false =>
    have hnlive := hinv.base.wf.mem_iff.mpr hn
    obtain ⟨s', uuid, top', hs', b', hlocked, hplace⟩ := incLockRef_spec cfg hd hinv.base hinv.locked hnlive hwindow
    have hinv' : Inv cfg.pageSize s' live path none top' (⟨n, uuid⟩ :: t.held.map Held.lock) := ⟨b', hlocked⟩
    refine ⟨s', uuid, place top' uuid, hs', ⟨moves_of_cons hinv hinv' rfl hplace, fun path' hpath' => ?_⟩,
      ⟨live, path, top', hinv', fun h hh => ?_⟩, fun hd' => ?_⟩
    · obtain ⟨q, hq, hqn, hlen, -⟩ := hlocked.place_eq b' mem_cons_self
      have hq' := hinv.base.wf.mem_iff.mp hq
      refine ⟨q, hq', ?_, ?_⟩
      · rw [hinv.base.wf.path_eq hpath' hq', hinv.base.wf.path_eq hpath' hn]
        exact hqn
      · rw [hinv.base.wf.path_eq hpath' hq']
        exact hlen
    · rcases mem_cons.mp hh with rfl | hh
      · rfl
      · rw [htop h hh, hplace _ (mem_map_of_mem hh)]
    · rw [hd] at hd'
      cases hd'

theorem Good.decLockRef (cfg : Config) (h : Good cfg t) {i : Nat} {l : Held} (hi : t.held[i]? = some l) :
    ∃ s', decLockRef cfg t.cache l.lock.node l.lock.uuid = .ok s' ∧ Moves cfg.pageSize t.cache s' l.lock.node l.top (-1) ∧
      Good cfg ⟨s', t.held.eraseIdx i⟩ := by
  obtain ⟨live, path, top, hinv, htop⟩ := h.inv
  obtain ⟨hlt, hget⟩ := List.getElem?_eq_some_iff.mp hi
  have hmem : l ∈ t.held := mem_of_getElem? hi
  have hsub : ∀ h ∈ t.held.eraseIdx i, h ∈ t.held := fun h hh => mem_of_mem_eraseIdx hh
  have hperm : (l :: t.held.eraseIdx i).Perm t.held := hget ▸ getElem_cons_eraseIdx_perm hlt
  cases hd : cfg.disable with
  | true =>
    obtain ⟨hnew, hheld⟩ := h.disabled hd
    rw [hnew]
    refine ⟨new, ?_, fun path _ m hm hm0 => absurd (inTree_new hm) hm0,
      ⟨{0}, fun _ => [], top, inv_new cfg top fun k hk => ?_, fun h hh => htop h (hsub h hh)⟩,
      fun _ => ⟨rfl, fun h hh => hheld h (hsub h hh)⟩⟩
    · rw [SwaCache.decLockRef, hd]
      rfl
    · obtain ⟨h', hh', rfl⟩ := mem_map.mp hk
      exact hheld h' (hsub h' hh')
  | false =>
    have hinv₁ : Inv cfg.pageSize t.cache live path none top (l.lock :: (t.held.eraseIdx i).map Held.lock) :=
      ⟨hinv.base, hinv.locked.perm (hperm.map Held.lock)⟩
    obtain ⟨s', hs', b', hlocked⟩ := decLockRef_spec cfg hd hinv₁.base hinv₁.locked
    have hinv' : Inv cfg.pageSize s' live path none top ((t.held.eraseIdx i).map Held.lock) := ⟨b', hlocked⟩
    refine ⟨s', hs', ?_, ⟨live, path, top, hinv', fun h hh => htop h (hsub h hh)⟩, fun hd' => ?_⟩
    · rw [htop l hmem]
      exact hinv₁.moves_back hinv'
    · rw [hd] at hd'
      cases hd'

/-- Every call that is allowed goes through. -/
theorem Good.progress (cfg : Config) (h : Good cfg t) (ha : Allowed cfg t a) : ∃ t', Step cfg t a t' := by
  cases a with
  | insert key value prevPrefixLen =>
    obtain ⟨s', total, hs', -⟩ := h.insert cfg ha
    exact ⟨_, Step.insert hs'⟩
  | matchPrefix key =>
    obtain ⟨s', value, n, vs, last, r, hs', -⟩ := h.matchPrefix cfg key
    exact ⟨_, Step.matchPrefix hs'⟩
  | evict fullNumTokens swaNumTokens =>
    obtain ⟨s', hs', -⟩ := h.evict cfg fullNumTokens swaNumTokens
    exact ⟨_, Step.evict hs'⟩
  | incLockRef n =>
    obtain ⟨s', uuid, top, hs', htook, -⟩ := h.incLockRef cfg ha
    exact ⟨_, Step.incLockRef hs' htook⟩
  | decLockRef i =>
    have hi := getElem?_eq_getElem (show i < t.held.length from ha)
    obtain ⟨s', hs', -, -⟩ := h.decLockRef cfg hi
    exact ⟨_, Step.decLockRef hi hs'⟩

theorem Good.step (cfg : Config) (h : Good cfg t) {t' : System} (ha : Allowed cfg t a) (hstep : Step cfg t a t') :
    Good cfg t' := by
  cases hstep with
  | insert hs =>
    obtain ⟨s', total, hs', hgood⟩ := h.insert cfg ha
    obtain ⟨rfl, -⟩ := Prod.mk.inj (ok.inj (hs.symm.trans hs'))
    exact hgood
  | matchPrefix hs =>
    obtain ⟨s', value, n, vs, last, r, hs', hgood, -⟩ := h.matchPrefix cfg _
    obtain ⟨rfl, -⟩ := Prod.mk.inj (ok.inj (hs.symm.trans hs'))
    exact hgood
  | evict hs =>
    obtain ⟨s', hs', hgood⟩ := h.evict cfg _ _
    obtain rfl := ok.inj (hs.symm.trans hs')
    exact hgood
  | incLockRef hs htook =>
    obtain ⟨s', uuid, top, hs', htook', hgood⟩ := h.incLockRef cfg ha
    obtain ⟨rfl, rfl⟩ := Prod.mk.inj (ok.inj (hs.symm.trans hs'))
    obtain ⟨live, path, places, hinv, -⟩ := h.inv
    rw [took_unique hinv.base.wf htook htook']
    exact hgood
  | decLockRef hi hs =>
    obtain ⟨s', hs', -, hgood⟩ := h.decLockRef cfg hi
    obtain rfl := ok.inj (hs.symm.trans hs')
    exact hgood

theorem Reaches.good (h : Reaches cfg t) : Good cfg t := by
  induction h with
  | start => exact good_start cfg
  | step _ ha hstep ih => exact ih.step cfg ha hstep

theorem Reaches.progress (h : Reaches cfg t) (ha : Allowed cfg t a) : ∃ t', Step cfg t a t' ∧ Reaches cfg t' := by
  obtain ⟨t', hstep⟩ := h.good.progress cfg ha
  exact ⟨t', hstep, Reaches.step h ha hstep⟩

/-! ## Calls in a row -/

/-- The cache after a call that is not about locks. -/
def call (cfg : Config) (s : SwaCache) : Action → Except PyError SwaCache
  | .insert key value prevPrefixLen => do return (← insert cfg s key value prevPrefixLen).1
  | .matchPrefix key => do return (← matchPrefix cfg s key).1
  | .evict fullNumTokens swaNumTokens => evict cfg s fullNumTokens swaNumTokens
  | .incLockRef _ => .ok s
  | .decLockRef _ => .ok s

/-- The call can be made in every state, and is not about locks. -/
def Action.Plain (cfg : Config) (a : Action) : Prop :=
  (∀ t, Allowed cfg t a) ∧ ∀ (t : System) s', call cfg t.cache a = .ok s' → Step cfg t a { t with cache := s' }

theorem plain_insert (h : Allowed cfg ⟨new, []⟩ (.insert key value prevPrefixLen)) :
    (Action.insert key value prevPrefixLen).Plain cfg := by
  refine ⟨fun t => h, fun t s' hs' => ?_⟩
  simp only [call] at hs'
  cases hi : insert cfg t.cache key value prevPrefixLen with
  | error e =>
    rw [hi] at hs'
    cases hs'
  | ok r =>
    rw [hi] at hs'
    obtain rfl := ok.inj hs'
    exact Step.insert hi

theorem plain_matchPrefix (cfg : Config) (key : RadixKey) : (Action.matchPrefix key).Plain cfg := by
  refine ⟨fun t => trivial, fun t s' hs' => ?_⟩
  simp only [call] at hs'
  cases hi : matchPrefix cfg t.cache key with
  | error e =>
    rw [hi] at hs'
    cases hs'
  | ok r =>
    rw [hi] at hs'
    obtain rfl := ok.inj hs'
    exact Step.matchPrefix hi

theorem plain_evict (cfg : Config) (fullNumTokens swaNumTokens : Nat) : (Action.evict fullNumTokens swaNumTokens).Plain cfg :=
  ⟨fun _ => trivial, fun _ _ hs' => Step.evict hs'⟩

theorem Reaches.calls {held : List Held} (as : List Action) : ∀ {s s' : SwaCache}, Reaches cfg ⟨s, held⟩ →
    (∀ a ∈ as, a.Plain cfg) → as.foldlM (call cfg) s = .ok s' → Reaches cfg ⟨s', held⟩ := by
  induction as with
  | nil =>
    intro s s' h _ hs'
    obtain rfl := ok.inj hs'
    exact h
  | cons a as ih =>
    intro s s' h hplain hs'
    rw [foldlM_cons] at hs'
    cases ha : call cfg s a with
    | error e =>
      rw [ha] at hs'
      cases hs'
    | ok s₁ =>
      rw [ha] at hs'
      have hstep := (hplain a mem_cons_self)
      exact ih (Reaches.step h (hstep.1 _) (hstep.2 _ _ ha)) (fun b hb => hplain b (mem_cons_of_mem _ hb)) hs'

/-- Pages of one token and a window of two. -/
def windowTwo : Config where
  pageSize := 1
  slidingWindowSize := 2
  pageSize_pos := Nat.one_pos
  slidingWindowSize_pos := Nat.two_pos

def oneToFour (n : Nat) : RadixKey := ⟨[.id 1, .id 2, .id 3, .id 4].take n, none⟩

/-- The first and the third of four tokens become tombstones. -/
def twoTombstones : List Action :=
  [.insert (oneToFour 4) [1, 2, 3, 4] 0, .matchPrefix (oneToFour 3), .matchPrefix (oneToFour 2), .matchPrefix (oneToFour 1),
    .matchPrefix (oneToFour 4), .evict 0 1, .insert (oneToFour 2) [5, 6] 2, .evict 0 1]

theorem plain_twoTombstones : ∀ a ∈ twoTombstones, a.Plain windowTwo := by
  unfold twoTombstones
  simp only [forall_mem_cons, not_mem_nil, false_imp_iff, implies_true, and_true]
  exact ⟨plain_insert ⟨by decide, by decide⟩, plain_matchPrefix _ _, plain_matchPrefix _ _, plain_matchPrefix _ _,
    plain_matchPrefix _ _, plain_evict _ _ _, plain_insert ⟨by decide, by decide⟩, plain_evict _ _ _⟩

/-! ## The structure of the cache -/

/-- What holds of the nodes of the tree, the sizes and the lists. -/
structure Accounted (s : SwaCache) (nodes : Finset NodeId) : Prop where
  tree : ∀ n, n ∈ nodes ↔ s.InTree n
  fullEvictable : s.fullEvictableSize = ∑ n ∈ nodes.filter (fun n => (s.node n).fullLockRef = 0), ((s.node n).key.len : Int)
  fullProtected : s.fullProtectedSize = ∑ n ∈ nodes.filter (fun n => 0 < (s.node n).fullLockRef), ((s.node n).key.len : Int)
  swaEvictable : s.swaEvictableSize =
    ∑ n ∈ nodes.filter (fun n => (s.node n).swaTombstone = false ∧ (s.node n).swaLockRef = 0), ((s.node n).key.len : Int)
  swaProtected : s.swaProtectedSize =
    ∑ n ∈ nodes.filter (fun n => (s.node n).swaTombstone = false ∧ 0 < (s.node n).swaLockRef), ((s.node n).key.len : Int)
  locks : ∀ n ∈ nodes, 0 ≤ (s.node n).swaLockRef ∧ (s.node n).swaLockRef ≤ (s.node n).fullLockRef
  leaves : ∀ n ∈ nodes, n ≠ 0 → (s.node n).children.items = [] → (s.node n).swaTombstone = false
  fullList : s.fullLruList.nodes.Nodup ∧ ∀ n, n ∈ s.fullLruList.nodes ↔ n ∈ nodes ∧ n ≠ 0
  swaList : s.swaLruList.nodes.Nodup ∧ ∀ n, n ∈ s.swaLruList.nodes ↔ n ∈ nodes ∧ n ≠ 0 ∧ (s.node n).swaTombstone = false

/-- The root has no token, so that it does not matter for the sizes. -/
theorem total_eq_sum (b : Base pageSize s live path none) {P : TreeNode → Bool} {Q : NodeId → Prop} [DecidablePred Q]
    (hQ : ∀ n, Q n ↔ P (s.node n) = true) : s.total live P = ∑ n ∈ live.filter Q, ((s.node n).key.len : Int) := by
  rw [total, Finset.sum_filter, ← Finset.add_sum_erase live _ b.wf.shape.root_live]
  have hzero : (if Q 0 then ((s.node 0).key.len : Int) else 0) = 0 := by
    rw [b.root.key]
    split_ifs <;> rfl
  rw [hzero, Int.zero_add]
  refine Finset.sum_congr rfl fun n _ => ?_
  unfold tokens
  by_cases hq : Q n
  · rw [if_pos hq, if_pos ((hQ n).mp hq)]
  · rw [if_neg hq, if_neg fun hp => hq ((hQ n).mpr hp)]

theorem Inv.accounted (h : Inv pageSize s live path none top held) : Accounted s live where
  tree _ := h.base.wf.mem_iff
  fullEvictable := h.base.sizes.fullEvictable.trans (total_eq_sum h.base fun n => by simp [fullEvictable])
  fullProtected := h.base.sizes.fullProtected.trans (total_eq_sum h.base fun n => by simp [fullProtected])
  swaEvictable := h.base.sizes.swaEvictable.trans (total_eq_sum h.base fun n => by simp [swaEvictable])
  swaProtected := h.base.sizes.swaProtected.trans (total_eq_sum h.base fun n => by simp [swaProtected])
  locks n hn := by
    by_cases h0 : n = 0
    · rw [h0, h.base.root.full, h.base.root.swa]
      exact ⟨by decide, le_refl _⟩
    · exact ⟨(h.base.flags n hn h0).swa_nonneg, h.locked.swa_le hn h0⟩
  leaves n hn h0 hleaf := by
    by_contra ht
    exact h.base.leaf n hn h0 (by simpa using ht) (by simp) hleaf
  fullList := ⟨h.base.full.2.1, h.base.full.2.2⟩
  swaList := ⟨h.base.swa.2.1, h.base.swa.2.2⟩

/-- In every state of a run all is accounted for, every call goes through, and a lock is given back as it was taken. -/
theorem swa_cache_accounted (cfg : Config) {t : System} (h : Reaches cfg t) :
    (∃ nodes, Accounted t.cache nodes) ∧ (∀ a, Allowed cfg t a → ∃ t', Step cfg t a t') ∧
      ∀ l ∈ t.held, ∃ s', decLockRef cfg t.cache l.lock.node l.lock.uuid = .ok s' ∧
      Moves cfg.pageSize t.cache s' l.lock.node l.top (-1) := by
  have hgood := h.good
  refine ⟨?_, fun a ha => hgood.progress cfg ha, fun l hl => ?_⟩
  · obtain ⟨live, path, top, hinv, -⟩ := hgood.inv
    exact ⟨live, hinv.accounted⟩
  · obtain ⟨i, hi⟩ := mem_iff_getElem?.mp hl
    obtain ⟨s', hs', hmoves, -⟩ := hgood.decLockRef cfg hi
    exact ⟨s', hs', hmoves⟩

/-- A cache with a lock on the last of four tokens. -/
theorem swa_cache_accounted_locked : ∃ t, Reaches windowTwo t ∧ t.held.length = 1 ∧ (∃ nodes, Accounted t.cache nodes) ∧
    (∀ a, Allowed windowTwo t a → ∃ t', Step windowTwo t a t') ∧
      ∀ l ∈ t.held, ∃ s', decLockRef windowTwo t.cache l.lock.node l.lock.uuid = .ok s' ∧
      Moves 1 t.cache s' l.lock.node l.top (-1) := by
  have h₀ : Reaches windowTwo ⟨_, []⟩ := Reaches.calls [.insert (oneToFour 4) [1, 2, 3, 4] 0] Reaches.start
    (fun a ha => mem_singleton.mp ha ▸ plain_insert ⟨by decide, by decide⟩) rfl
  obtain ⟨t, hstep, h⟩ := h₀.progress (a := .incLockRef 1)
    ⟨SwaCache.InTree.child (x := .plain (.token (.id 1))) SwaCache.InTree.root rfl, Window.up rfl rfl Window.root⟩
  refine ⟨t, h, ?_, swa_cache_accounted windowTwo h⟩
  cases hstep
  rfl

/-! ## `match_prefix` -/

/-- The node returned has the guarantee, can be locked, and is the last such node on the way. -/
def Honours (cfg : Config) (s' : SwaCache) (vs : List NodeId) (n : NodeId) (k : Nat) : Prop :=
  Guaranteed cfg.slidingWindowSize ((vs.take k).map s'.mark) ∧ (∃ s'' uuid, incLockRef cfg s' n = .ok (s'', uuid)) ∧
    ∀ j ≤ vs.length, Guaranteed cfg.slidingWindowSize ((vs.take j).map s'.mark) → j ≤ k

theorem match_prefix_guaranteed_iff (cfg : Config) {t : System} (h : Reaches cfg t) (key : RadixKey) :
    ∃ s' value n vs last r k, matchPrefix cfg t.cache key = .ok (s', value, n) ∧
      Visits s' (lookupKey cfg key) vs last r ∧ Stops s' (lookupKey cfg key) last r ∧
      k ≤ vs.length ∧ (0 :: vs)[k]? = some n ∧ value = ((vs.take k).map fun v => (s'.node v).value).flatten ∧
      Along cfg.pageSize t.cache (lookupKey cfg key) (vs.map s'.mark) ∧
      (Honours cfg s' vs n k ↔ FewBehind cfg.slidingWindowSize (vs.map s'.mark)) := by
  obtain ⟨s', value, n, vs, last, r, hs', hgood, hfound⟩ := h.good.matchPrefix cfg key
  have hle := scanned_le cfg.slidingWindowSize (vs.map s'.mark)
  rw [length_map] at hle
  refine ⟨s', value.flatten, n, vs, last, r, scanned cfg.slidingWindowSize (vs.map s'.mark), hs', hfound.visits,
    hfound.stops, hle, hfound.node,
    by rw [hfound.value], hfound.along, ?_⟩
  rw [← guaranteed_scanned_iff cfg.slidingWindowSize_pos, ← map_take]
  refine ⟨fun hh => hh.1, fun hg => ⟨hg, ?_, fun j hj hgj => ?_⟩⟩
  · -- the guarantee is what `inc_lock_ref` needs
    obtain ⟨live, path, top, hinv, -⟩ := hgood.inv
    obtain ⟨m, q, hvis, hm⟩ := hfound.visits.take _ hle
    obtain rfl : m = n := Option.some.inj (hm.symm.trans hfound.node)
    obtain ⟨s'', uuid, -, hinc, -⟩ := hgood.incLockRef cfg (n := m)
      ⟨hinv.base.wf.mem_iff.mp (hvis.mem hinv.base.wf).1, hvis.toWindow hinv.base.wf hg⟩
    exact ⟨s'', uuid, hinc⟩
  · rw [map_take] at hgj
    exact le_scanned (by rwa [length_map]) hgj

theorem match_prefix_guaranteed_twoTombstones : ∃ t, Reaches windowTwo t ∧ ∃ s' value n vs last r k,
    matchPrefix windowTwo t.cache (oneToFour 4) = .ok (s', value, n) ∧
    Visits s' (lookupKey windowTwo (oneToFour 4)) vs last r ∧ Stops s' (lookupKey windowTwo (oneToFour 4)) last r ∧
    k ≤ vs.length ∧ (0 :: vs)[k]? = some n ∧ value = ((vs.take k).map fun v => (s'.node v).value).flatten ∧
    Along 1 t.cache (lookupKey windowTwo (oneToFour 4)) (vs.map s'.mark) ∧
      (Honours windowTwo s' vs n k ↔ FewBehind 2 (vs.map s'.mark)) := by
  have h : Reaches windowTwo ⟨_, []⟩ := Reaches.calls twoTombstones Reaches.start plain_twoTombstones rfl
  exact ⟨_, h, match_prefix_guaranteed_iff windowTwo h (oneToFour 4)⟩

theorem Visits.on {vs vs' : List NodeId} {p c : NodeId} {r r' : Nat} {x : ChildKey} (h : Visits s key vs p r)
    (hc : (s.node p).children.get? x = some c) (hkey : (key.from_ r).upto (s.node c).key.len = (s.node c).key)
    (hvs : vs' = vs ++ [c])
    (hr : r' = r + (s.node c).key.len) : Visits s key vs' c r' := by
  rw [hvs, hr]
  exact child h hc hkey

/-- The last token is returned though only it is below the second tombstone, and cannot be locked. -/
theorem match_behind_two_tombstones : ∃ s, twoTombstones.foldlM (call windowTwo) new = .ok s ∧ Reaches windowTwo ⟨s, []⟩ ∧
    ∃ s' value n, matchPrefix windowTwo s (oneToFour 4) = .ok (s', value, n) ∧
      Visits s' (lookupKey windowTwo (oneToFour 4)) [4, 3, 2, 1] n 4 ∧
      ([4, 3, 2, 1].map s'.mark) = [(true, 1), (false, 1), (true, 1), (false, 1)] ∧ ¬ Guaranteed 2 ([4, 3, 2, 1].map s'.mark) ∧
      incLockRef windowTwo s' n = .error .assertionError := by
  refine ⟨_, rfl, Reaches.calls twoTombstones Reaches.start plain_twoTombstones rfl, _, _, _, rfl, ?_, rfl, ?_, rfl⟩
  · -- each token is a node of its own
    refine on (x := .plain (.token (.id 4))) (?_ : Visits _ _ [4, 3, 2] 2 3) rfl rfl rfl rfl
    refine on (x := .plain (.token (.id 3))) (?_ : Visits _ _ [4, 3] 3 2) rfl rfl rfl rfl
    refine on (x := .plain (.token (.id 2))) (?_ : Visits _ _ [4] 4 1) rfl rfl rfl rfl
    exact on (x := .plain (.token (.id 1))) root rfl rfl rfl rfl
  · show ¬ Guaranteed 2 [(true, 1), (false, 1), (true, 1), (false, 1)]
    decide

end DynaSpec.MemCache.SwaRadix
