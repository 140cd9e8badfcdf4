/-
  DynaSpec.MemCache.ReqCacheOwn — who owns the pages while requests that share prefixes are
  admitted, extended by chunks, cached and ended, in any order (`Run`).

  Each live request owns the pages of its row after the length that the tree has for it, and
  these, the pages of the tree and the free ones are the pool (`run_inv`, `run_ledger`). This
  holds in every run: what `cache_unfinished_req` and `cache_finished_req` give back are
  exactly the pages that the tree had from another request.

  The row is another matter. `old_prefix_len` may be inside a page, that of a part of a
  page at the end of the chunk before (or, with EAGLE, of its last token). When another request has
  put that page in the tree in the meantime, the request's own copy is given back whole, but
  the row is written only from `old_prefix_len` on. `Safe` is that this is not so:
  - `cacheUnfinishedReq_rowOwned_iff`: after a run of safe calls, every entry of the row is a slot of the tree
    on a locked way or of the request alone, if and only if the call is safe.
  - `pages_partitioned_iff`: runs of safe calls keep each page free, in the tree or on one row, and
    the next call does if and only if it is safe.
  - `cacheUnfinishedReq_stale_row`, `free_page_on_row`: two requests for the same two tokens, on pages of two.
-/

import DynaSpec.MemCache.ReqCacheHolds

namespace DynaSpec.MemCache

open DynaSpec.Lib List RadixCache Allocator
open Prod (fst)
open Multiset (coe_nodup disjoint_left mem_add mem_coe mem_join nodup_add sum_coe)

variable {Allowed : Memory → Req → Prop} {p : Nat}

namespace Memory

/-! ## Runs -/

/-- Requests that are admitted, extended by a chunk at a time, cached after each chunk and
    ended, with evictions and lookups in between. A request has a row of its own once it has
    a chunk. Only calls of `cache_unfinished_req` that are `Allowed` are made. -/
inductive Run (cfg : Config) (numPages : Nat) (needSort : Bool) (Allowed : Memory → Req → Prop) : Memory → List Live → Prop where
  | init {reqToToken : Nat → Nat → Nat} :
      Run cfg numPages needSort Allowed ⟨⟨init cfg, clear cfg.pageSize numPages needSort⟩, reqToToken⟩ []
  | initNextRoundInput {m m' : Memory} {live : List Live} {req req' : Req} {maxPrefixLen : Nat} :
    Run cfg numPages needSort Allowed m live →
      initNextRoundInput cfg m req maxPrefixLen = .ok (m', req') → Run cfg numPages needSort Allowed m' (⟨req', .fresh⟩ :: live)
  | extend {m m' : Memory} {live rest : List Live} {x : Live} {sched : Schedule} {idx n : Nat} {req' : Req} :
      Run cfg numPages needSort Allowed m live → live.Perm (x :: rest) → x.phase ≠ .extended → 0 < n →
      x.req.prefixIndices.length + n ≤ x.req.tokenIds.length → (∀ y ∈ rest, y.phase ≠ .fresh → y.req.reqPoolIdx ≠ idx) →
      extend cfg sched m x.req idx n = .ok (m', req') → Run cfg numPages needSort Allowed m' (⟨req', .extended⟩ :: rest)
  | cacheUnfinishedReq {m m' : Memory} {live rest : List Live} {x : Live} {req' : Req} :
      Run cfg numPages needSort Allowed m live → live.Perm (x :: rest) → x.phase = .extended → Allowed m x.req →
      cacheUnfinishedReq cfg m x.req = .ok (m', req') → Run cfg numPages needSort Allowed m' (⟨req', .cached⟩ :: rest)
  | cacheFinishedReq {m m' : Memory} {live rest : List Live} {x : Live} {isInsert : Bool} :
      Run cfg numPages needSort Allowed m live → live.Perm (x :: rest) → x.phase ≠ .fresh →
      cacheFinishedReq cfg m x.req isInsert = .ok m' → Run cfg numPages needSort Allowed m' rest
  | evict {m : Memory} {live : List Live} {numTokens : Int} {pool : Pool} : Run cfg numPages needSort Allowed m live →
      m.pool.evict cfg numTokens = .ok pool → Run cfg numPages needSort Allowed { m with pool } live
  | matchPrefix {m : Memory} {live : List Live} {key : RadixKey} {cache : RadixCache} {r : MatchResult} :
      Run cfg numPages needSort Allowed m live → matchPrefix cfg m.pool.cache key = .ok (cache, r) →
      Run cfg numPages needSort Allowed (m.withCache cache) live

theorem Run.mono {cfg : Config} {numPages : Nat} {needSort : Bool} {Allowed' : Memory → Req → Prop} {m : Memory}
    {live : List Live} (h : Run cfg numPages needSort Allowed m live) (hsub : ∀ m req, Allowed m req → Allowed' m req) :
    Run cfg numPages needSort Allowed' m live := by
  induction h with
  | init => exact .init
  | initNextRoundInput _ hcall ih => exact ih.initNextRoundInput hcall
  | extend _ hx hph hn hle hidx hcall ih => exact ih.extend hx hph hn hle hidx hcall
  | cacheUnfinishedReq _ hx hph hallowed hcall ih => exact ih.cacheUnfinishedReq hx hph (hsub _ _ hallowed) hcall
  | cacheFinishedReq _ hx hph hcall ih => exact ih.cacheFinishedReq hx hph hcall
  | evict _ hcall ih => exact ih.evict hcall
  | matchPrefix _ hcall ih => exact ih.matchPrefix hcall

variable {cfg : Config} {numPages : Nat} {clean : Prop} {m m' : Memory} {t t' : View}

/-- Each live request with the pages that it owns. -/
structure Inv (cfg : Config) (numPages : Nat) (clean : Prop) (m : Memory) (t : View) (owned : List (Live × List Nat)) : Prop where
  ready : m.pool.Ready cfg t (owned.map fun e => e.1.req.lastNode)
  pages : m.pool.pages cfg.pageSize t + (owned.map fun e => (e.2 : Multiset Nat)).sum = (List.range' 1 numPages : List Nat)
  holds : ∀ e ∈ owned, Holds cfg clean m t e.1 e.2
  rows : owned.Pairwise fun e f => e.1.phase ≠ .fresh → f.1.phase ≠ .fresh → e.1.req.reqPoolIdx ≠ f.1.req.reqPoolIdx

namespace Inv

theorem perm {owned owned' : List (Live × List Nat)} (h : Inv cfg numPages clean m t owned) (hp : owned.Perm owned') :
    Inv cfg numPages clean m t owned' := by
  refine ⟨h.ready.perm (hp.map _), ?_, fun e he => h.holds e (hp.mem_iff.mpr he), ?_⟩
  · rw [← h.pages, (hp.map _).sum_eq]
  · exact (hp.pairwise_iff fun hef h1 h2 => (hef h2 h1).symm).mp h.rows

/-- One of the live requests, with the pages that it owns. -/
theorem pick {owned : List (Live × List Nat)} {live rest : List Live} {x : Live} (h : Inv cfg numPages clean m t owned)
    (hlive : (owned.map fst).Perm live) (hx : live.Perm (x :: rest)) :
    ∃ pages others, Inv cfg numPages clean m t ((x, pages) :: others) ∧ (others.map fst).Perm rest := by
  have hperm := hlive.trans hx
  obtain ⟨⟨y, pages⟩, he, rfl⟩ := mem_map.mp (hperm.mem_iff.mpr mem_cons_self)
  obtain ⟨a, b, rfl⟩ := append_of_mem he
  have hmid : (a ++ (y, pages) :: b).Perm ((y, pages) :: (a ++ b)) := perm_middle
  exact ⟨pages, a ++ b, h.perm hmid, ((hmid.map fst).symm.trans hperm).cons_inv⟩

variable {x x' : Live} {pages pages' : List Nat} {others : List (Live × List Nat)}

theorem nodup_all {owned : List (Live × List Nat)} (h : Inv cfg numPages clean m t owned) :
    ((m.pool.allocator.allFree : Multiset Nat) + treePages cfg.pageSize m.pool.cache +
    (owned.map fun e => (e.2 : Multiset Nat)).sum).Nodup := by
  have := h.pages
  rw [h.ready.treePages_eq]
  unfold Pool.pages at this
  rw [this]
  exact coe_nodup.mpr nodup_range'

theorem nodup (h : Inv cfg numPages clean m t ((x, pages) :: others)) : pages.Nodup := by
  have hnd := h.nodup_all
  exact coe_nodup.mp (nodup_add.mp (nodup_add.mp hnd).2.1).1

/-- A call that has `after` in place of `before`, and leaves the nodes and the rows of the other requests as they are. -/
theorem act (before after : List (Live × List Nat)) (h : Inv cfg numPages clean m t (before ++ others))
    (hr : m'.pool.Ready cfg t' ((after ++ others).map fun e => e.1.req.lastNode))
    (hpages : m'.pool.pages cfg.pageSize t' + (after.map fun e => (e.2 : Multiset Nat)).sum =
      m.pool.pages cfg.pageSize t + (before.map fun e => (e.2 : Multiset Nat)).sum) (hroot :
      m'.pool.cache.rootNode = m.pool.cache.rootNode)
    (hstays : ∀ n ∈ t.live, n ∈ t'.live → Stays m.pool.cache t m'.pool.cache t' n)
    (hrows : ∀ e ∈ others, e.1.phase ≠ .fresh → m'.reqToToken e.1.req.reqPoolIdx = m.reqToToken e.1.req.reqPoolIdx)
    (hafter : ∀ e ∈ after, Holds cfg clean m' t' e.1 e.2) (hpair : (after ++ others).Pairwise fun e f =>
      e.1.phase ≠ .fresh → f.1.phase ≠ .fresh → e.1.req.reqPoolIdx ≠ f.1.req.reqPoolIdx) :
    Inv cfg numPages clean m' t' (after ++ others) := by
  refine ⟨hr, ?_, fun e he => ?_, hpair⟩
  · rw [← h.pages, map_append, sum_append, map_append, sum_append, ← add_assoc, hpages, add_assoc]
  · rcases mem_append.mp he with he' | he'
    · exact hafter e he'
    · have hold := h.holds e (mem_append_right _ he')
      exact hold.frame hroot (hstays _ hold.live (hr.locked.held_live _ (mem_map_of_mem he))) (hrows e he')

theorem others_rows (h : Inv cfg numPages clean m t ((x, pages) :: others)) (hph : x.phase ≠ .fresh) :
    ∀ e ∈ others, e.1.phase ≠ .fresh → e.1.req.reqPoolIdx ≠ x.req.reqPoolIdx :=
  fun _ he hadm => (rel_of_pairwise_cons h.rows he hph hadm).symm

theorem others_pairwise (h : Inv cfg numPages clean m t ((x, pages) :: others)) : others.Pairwise fun e f =>
    e.1.phase ≠ .fresh → f.1.phase ≠ .fresh → e.1.req.reqPoolIdx ≠ f.1.req.reqPoolIdx := (pairwise_cons.mp h.rows).2

end Inv

theorem run_inv (hps : 0 < cfg.pageSize) (hd : cfg.disable = false) {needSort : Bool} {live : List Live}
    (h : Run cfg numPages needSort Allowed m live) :
    ∃ t owned, (owned.map fst).Perm live ∧ Inv cfg numPages (∀ m req, Allowed m req → Safe cfg m req) m t owned := by
  induction h with
  | @init reqToToken =>
    refine ⟨_, [], List.Perm.nil, Pool.Ready.start cfg numPages needSort, ?_, forall_mem_nil _, List.Pairwise.nil⟩
    simp [Pool.pages, RadixCache.View.fresh, pagesAt, clear, allFree]
  | @initNextRoundInput m m' live req req' k _ hcall ih =>
    obtain ⟨t, owned, hlive, hinv⟩ := ih
    obtain ⟨m1, req1, t', hcall', hrows, hr, hpages, hroot, hstays, hholds⟩ := initNextRoundInput_spec hps hd hinv.ready req k
    rw [hcall] at hcall'
    cases hcall'
    refine ⟨t', (⟨req', .fresh⟩, []) :: owned, hlive.cons _, ?_⟩
    refine Inv.act [] [(⟨req', .fresh⟩, [])] hinv hr (by simpa using hpages) hroot (fun n hn _ => hstays n hn)
      (fun _ _ _ => by rw [hrows]) (forall_mem_singleton.mpr (hholds _)) ?_
    exact pairwise_cons.mpr ⟨fun e _ hc => absurd rfl hc, hinv.rows⟩
  | @extend m m' live rest x sched idx n req' _ hx hph hn hle hidx hcall ih =>
    obtain ⟨t, owned, hlive, hinv⟩ := ih
    obtain ⟨pages, others, hinv, hrest⟩ := hinv.pick hlive hx
    have hholds := hinv.holds _ mem_cons_self
    obtain ⟨t', new, hr, hpages, hroot, hstays, hrows, hridx, hnode, hholds'⟩ :=
      hholds.extended hps hinv.ready mem_cons_self hph hn hle hcall
    have hother : ∀ e ∈ others, e.1.phase ≠ .fresh → e.1.req.reqPoolIdx ≠ idx := fun e he =>
      hidx e.1 (hrest.mem_iff.mp (mem_map_of_mem he))
    refine ⟨t', (⟨req', .extended⟩, pages ++ new) :: others, hrest.cons _, ?_⟩
    refine Inv.act [(x, pages)] [(⟨req', .extended⟩, pages ++ new)] hinv ?_ ?_ hroot (fun n _ hn => hstays n hn)
      (fun e he hadm => hrows _ (hother e he hadm)) (forall_mem_singleton.mpr (hholds' _)) ?_
    · rw [singleton_append, map_cons, hnode]
      exact hr
    · simp only [map_cons, map_nil, sum_cons, sum_nil, add_zero]
      rw [← hpages, ← Multiset.coe_add]
      abel
    · refine pairwise_cons.mpr ⟨fun e he _ hadm => ?_, hinv.others_pairwise⟩
      rw [hridx]
      exact (hother e he hadm).symm
  | @cacheUnfinishedReq m m' live rest x req' _ hx hph hallowed hcall ih =>
    obtain ⟨t, owned, hlive, hinv⟩ := ih
    obtain ⟨pages, others, hinv, hrest⟩ := hinv.pick hlive hx
    have hholds := hinv.holds _ mem_cons_self
    obtain ⟨m1, req1, t', more, hcall', hr, hpages, hroot, hstays, hrows, hridx, -, hholds', -⟩ :=
      hholds.unfinished hps hd hinv.ready hph hinv.nodup
    rw [hcall] at hcall'
    cases hcall'
    have hne : x.phase ≠ .fresh := by simp [hph]
    refine ⟨t', (⟨req', .cached⟩, more) :: others, hrest.cons _, ?_⟩
    refine Inv.act [(x, pages)] [(⟨req', .cached⟩, more)] hinv hr (by simpa using hpages) hroot (fun n hn _ => hstays n hn)
      (fun e he hadm => hrows _ (hinv.others_rows hne e he hadm))
      (forall_mem_singleton.mpr (hholds' _ fun hclean => hclean m x.req hallowed)) ?_
    refine pairwise_cons.mpr ⟨fun e he _ hadm => ?_, hinv.others_pairwise⟩
    rw [hridx]
    exact (hinv.others_rows hne e he hadm).symm
  | @cacheFinishedReq m m' live rest x isInsert _ hx hph hcall ih =>
    obtain ⟨t, owned, hlive, hinv⟩ := ih
    obtain ⟨pages, others, hinv, hrest⟩ := hinv.pick hlive hx
    obtain ⟨m1, t', hcall', hrows, hr, hpages, hroot, hstays⟩ :=
      (hinv.holds _ mem_cons_self).finished hps hd hinv.ready hph hinv.nodup isInsert
    rw [hcall] at hcall'
    cases hcall'
    refine ⟨t', others, hrest, ?_⟩
    refine Inv.act [(x, pages)] [] hinv hr ?_ hroot (fun n hn _ => hstays n hn) (fun _ _ _ => by rw [hrows])
      (forall_mem_nil _) hinv.others_pairwise
    simp only [map_cons, map_nil, sum_cons, sum_nil, add_zero]
    rw [hpages, add_comm]
  | @evict m live numTokens pool _ hcall ih =>
    obtain ⟨t, owned, hlive, hinv⟩ := ih
    obtain ⟨pool', t', hcall', hr, hev, -⟩ := hinv.ready.evict hps numTokens
    rw [hcall] at hcall'
    cases hcall'
    refine ⟨t', owned, hlive, ?_⟩
    exact Inv.act [] [] hinv hr (by simpa using hev.pages) hev.root (fun n _ hn => hev.stays n hn)
      (fun _ _ _ => rfl) (forall_mem_nil _) hinv.rows
  | @matchPrefix m live key cache r _ hcall ih =>
    obtain ⟨t, owned, hlive, hinv⟩ := ih
    obtain ⟨c, t', n, hcall', hsteps, -⟩ := matchPrefix_spec hps hd hinv.ready.wf key
    rw [hcall] at hcall'
    cases hcall'
    obtain ⟨hr, hpages⟩ := hinv.ready.steps hps hd hsteps
    refine ⟨t', owned, hlive, ?_⟩
    exact Inv.act [] [] hinv hr (congrArg (· + _) hpages) hsteps.root
      (fun n hn _ => hsteps.stays hps hinv.ready.wf n hn) (fun _ _ _ => rfl) (forall_mem_nil _) hinv.rows

/-! ## Where the pages are -/

/-- Page `p` is on the row of `x`. -/
def OnRow (cfg : Config) (m : Memory) (x : Live) (p : Nat) : Prop :=
  x.phase ≠ .fresh ∧ ∃ j < x.req.fillIds.length, m.reqToToken x.req.reqPoolIdx j / cfg.pageSize = p

/-- The pages of a row from the length on that the tree has for the request. -/
def ownPages (cfg : Config) (m : Memory) (x : Live) : List Nat :=
  if x.phase = .fresh then []
  else pagesOf cfg.pageSize ((m.row x.req.reqPoolIdx x.req.fillIds.length).drop x.req.lastMatchedPrefixLen)

theorem slots_treePages {pool : Pool} {held : List NodeId} (h : pool.Ready cfg t held) : ∀ n, pool.cache.Known n → n ∈ t.live →
    ∀ y ∈ t.slots n, y / cfg.pageSize ∈ treePages cfg.pageSize pool.cache := by
  refine h.wf.climb ?_ ?_
  · intro _ y hy
    rw [h.wf.root_slots] at hy
    cases hy
  intro n p _ hr hp ih hn y hy
  rw [hp.slots] at hy
  rcases mem_append.mp hy with hy | hy
  · exact ih (h.wf.parent_live n hn hr p hp.parent) y hy
  · rw [h.treePages_eq]
    exact RadixCache.mem_pagesAt.mpr ⟨n, Finset.mem_erase.mpr ⟨hr, hn⟩, RadixCache.mem_nodePages.mpr ⟨y, hy, rfl⟩⟩

namespace Inv

variable {owned others : List (Live × List Nat)} {x : Live} {pages : List Nat}

theorem mem_all (h : Inv cfg numPages clean m t owned) : (1 ≤ p ∧ p ≤ numPages) ↔
    p ∈ m.pool.allocator.allFree ∨ p ∈ treePages cfg.pageSize m.pool.cache ∨ ∃ e ∈ owned, p ∈ e.2 := by
  have hmem : p ∈ (owned.map fun e => (e.2 : Multiset Nat)).sum ↔ ∃ e ∈ owned, p ∈ e.2 := by
    rw [← sum_coe]
    refine mem_join.trans ?_
    simp
  have hall : p ∈ (range' 1 numPages : Multiset Nat) ↔ 1 ≤ p ∧ p ≤ numPages := by
    rw [mem_coe, mem_range'_1]
    omega
  rw [← hall, ← h.pages, mem_add, hmem, Pool.pages, mem_add, ← h.ready.treePages_eq, mem_coe, or_assoc]

/-- A page that a request owns is nowhere else. -/
theorem own_apart (h : Inv cfg numPages clean m t ((x, pages) :: others)) (hp : p ∈ pages) :
    p ∉ m.pool.allocator.allFree ∧ p ∉ treePages cfg.pageSize m.pool.cache ∧ ∀ e ∈ others, p ∉ e.2 := by
  have hnd := h.nodup_all
  rw [map_cons, sum_cons] at hnd
  obtain ⟨-, hnd', hdis⟩ := nodup_add.mp hnd
  have hout := Multiset.disjoint_right.mp hdis (mem_add.mpr (.inl (mem_coe.mpr hp)))
  refine ⟨fun hf => hout (mem_add.mpr (.inl (mem_coe.mpr hf))), fun ht => hout (mem_add.mpr (.inr ht)),
    fun e he hpe => ?_⟩
  refine disjoint_left.mp (nodup_add.mp hnd').2.2 (mem_coe.mpr hp) ?_
  rw [← sum_coe]
  exact mem_join.mpr ⟨_, mem_map_of_mem he, mem_coe.mpr hpe⟩

theorem tree_not_free (h : Inv cfg numPages clean m t owned) (hp : p ∈ treePages cfg.pageSize m.pool.cache) :
    p ∉ m.pool.allocator.allFree := fun hf =>
  disjoint_left.mp (nodup_add.mp (nodup_add.mp h.nodup_all).1).2.2 (mem_coe.mpr hf) hp

end Inv

namespace Holds

variable {x : Live} {pages : List Nat}

theorem len_eq (hph : x.phase ≠ .fresh) : x.len = x.req.fillIds.length := if_neg hph

section
variable (hps : 0 < cfg.pageSize) (h : Holds cfg clean m t x pages)
include hps h

/-- The slots of a row are in the tree up to the matched length, and then on pages of the request. -/
theorem slot_cases (hph : x.phase ≠ .fresh) (hclean : x.phase = .extended ∨ clean)
    {j : Nat} (hj : j < x.req.fillIds.length) : (t.slots x.req.lastNode)[j]? = some (m.reqToToken x.req.reqPoolIdx j) ∨
      m.reqToToken x.req.reqPoolIdx j / cfg.pageSize ∈ pages := by
  rw [← len_eq hph] at hj
  have hget := getElem?_row m x.req.reqPoolIdx hj
  rw [h.row_clean hph hclean, kv] at hget
  by_cases hm : j < (t.slots x.req.lastNode).length
  · rw [getElem?_append_left hm] at hget
    exact .inl hget
  · rw [getElem?_append_right (Nat.le_of_not_lt hm)] at hget
    exact .inr ((mem_wholePages hps).mp (mem_of_mem_take (mem_of_getElem? hget)))

theorem ownPages_perm (hnd : pages.Nodup) : (ownPages cfg m x).Perm pages := by
  unfold ownPages
  split
  · rename_i hadm
    have := h.count
    rw [show x.len = x.req.lastMatchedPrefixLen from if_pos hadm, Nat.sub_self, ← Nat.zero_mul cfg.pageSize,
      pageCount_mul hps] at this
    rw [length_eq_zero_iff.mp this]
  rename_i hph
  have := Holds.pagesOf_back (k := 0) h (h.row hph) hps hnd (length_row m x.req.reqPoolIdx x.len)
  rw [keptTo, zero_mul, add_zero, drop_zero, len_eq hph] at this
  exact this (len_eq hph ▸ h.le)

/-- The pages that a request owns are on its row. -/
theorem own_onRow (hnd : pages.Nodup) (hp : p ∈ pages) : OnRow cfg m x p := by
  have hp := (h.ownPages_perm hps hnd).mem_iff.mpr hp
  unfold ownPages at hp
  split at hp
  · cases hp
  rename_i hph
  obtain ⟨i, hi, hip⟩ := Allocator.mem_pagesOf.mp hp
  obtain ⟨j, hj, rfl⟩ := mem_map.mp (mem_of_mem_drop hi)
  exact ⟨hph, j, mem_range.mp hj, hip⟩

end

end Holds

/-! ## No row has a slot that is free -/

/-- The tree holds `slot` for position `j` of the request, on a way that is locked. -/
def TreeSlot (cfg : Config) (s : RadixCache) (req : Req) (j slot : Nat) : Prop :=
  ∃ q w, Path s req.lastNode q w ∧ q <+: keyTokens cfg req ∧ w[j]? = some slot ∧
    ∀ n ∈ treeNodes s, Below s n req.lastNode → 0 < (s.node n).lockRef

/-- The page of `slot` is not free, not in the tree and not on a row of `others`. -/
def OwnSlot (cfg : Config) (m : Memory) (others : List Live) (slot : Nat) : Prop :=
  slot / cfg.pageSize ∉ m.pool.allocator.allFree ∧ slot / cfg.pageSize ∉ treePages cfg.pageSize m.pool.cache ∧
    ∀ y ∈ others, ¬ OnRow cfg m y (slot / cfg.pageSize)

/-- Every entry of the row of a request is a slot that the tree or the request has. -/
def RowOwned (cfg : Config) (m : Memory) (req : Req) (others : List Live) : Prop :=
  ∀ j < req.fillIds.length,
    (TreeSlot cfg m.pool.cache req j (m.reqToToken req.reqPoolIdx j) ∨ OwnSlot cfg m others (m.reqToToken req.reqPoolIdx j)) ∧
      m.reqToToken req.reqPoolIdx j / cfg.pageSize ∉ m.pool.allocator.allFree

namespace Inv

variable {others : List (Live × List Nat)} {x : Live} {pages : List Nat}

section
variable (hps : 0 < cfg.pageSize) (h : Inv cfg numPages clean m t ((x, pages) :: others)) (hclean : clean)
include hps h hclean

theorem onRow_cases (hp : OnRow cfg m x p) : p ∈ treePages cfg.pageSize m.pool.cache ∨ p ∈ pages := by
  obtain ⟨hph, j, hj, rfl⟩ := hp
  have hx := h.holds _ mem_cons_self
  rcases hx.slot_cases hps hph (.inr hclean) hj with htree | hown
  · exact .inl (slots_treePages h.ready _ (h.ready.wf.live_known _ hx.live) hx.live _ (mem_of_getElem? htree))
  · exact .inr hown

theorem onRow_other (hp : p ∈ pages) : ∀ y ∈ others.map fst, ¬ OnRow cfg m y p := by
  intro y hy hrow
  obtain ⟨hfree, htree, hown⟩ := h.own_apart hp
  obtain ⟨⟨y, pages'⟩, he, rfl⟩ := mem_map.mp hy
  obtain ⟨a, b, rfl⟩ := append_of_mem he
  have hperm : ((x, pages) :: (a ++ (y, pages') :: b)).Perm ((y, pages') :: (x, pages) :: (a ++ b)) :=
    (perm_middle.cons _).trans (List.Perm.swap _ _ _)
  rcases (h.perm hperm).onRow_cases hps hclean hrow with hp' | hp'
  · exact htree hp'
  · exact hown _ he hp'

theorem rowOwned (hph : x.phase ≠ .fresh) : RowOwned cfg m x.req (others.map fst) := by
  intro j hj
  have hx := h.holds _ mem_cons_self
  have hlive := h.ready.wf.live_known _ hx.live
  rcases hx.slot_cases hps hph (.inr hclean) hj with htree | hown
  · have hpage := slots_treePages h.ready _ hlive hx.live _ (mem_of_getElem? htree)
    refine ⟨.inl ⟨_, _, h.ready.wf.path_iff.mpr ⟨hx.live, rfl, rfl⟩, ?_, htree, fun n hn hb => ?_⟩, h.tree_not_free hpage⟩
    · rw [hx.path]
      exact take_prefix _ _
    · rw [h.ready.wf.treeNodes_eq] at hn
      have hup := (h.ready.wf.below_iff (Finset.mem_of_mem_erase hn) (Finset.ne_of_mem_erase hn) hx.live).mp hb
      exact h.ready.locked.pos h.ready.wf mem_cons_self hup
  · obtain ⟨hfree, htree, -⟩ := h.own_apart hown
    exact ⟨.inr ⟨hfree, htree, h.onRow_other hps hclean hown⟩, hfree⟩

end

end Inv

variable {needSort : Bool} {live : List Live}

theorem RowOwned.perm {req : Req} {others others' : List Live} (h : RowOwned cfg m req others) (hp : others.Perm others') :
    RowOwned cfg m req others' := fun j hj =>
  ⟨(h j hj).1.imp_right fun ⟨h1, h2, h3⟩ => ⟨h1, h2, fun y hy => h3 y (hp.mem_iff.mpr hy)⟩, (h j hj).2⟩

/-- After a run of safe calls, `cache_unfinished_req` leaves no entry of the row on a page that was
    given back exactly when it is safe itself. -/
theorem cacheUnfinishedReq_rowOwned_iff (hps : 0 < cfg.pageSize) (hd : cfg.disable = false)
    (h : Run cfg numPages needSort (Safe cfg) m live)
    {x : Live} {others : List Live} (hx : live.Perm (x :: others)) (hph : x.phase = .extended) :
    ∃ m' req', cacheUnfinishedReq cfg m x.req = .ok (m', req') ∧ req'.fillIds = x.req.fillIds ∧
      (RowOwned cfg m' req' others ↔ Safe cfg m x.req) := by
  obtain ⟨t, owned, hlive, hinv⟩ := run_inv hps hd h
  obtain ⟨pages, rest, hinv, -⟩ := hinv.pick hlive hx
  obtain ⟨m', req', t', more, hcall, -, -, -, -, -, hidx, hfill, -, hstale⟩ :=
    (hinv.holds _ mem_cons_self).unfinished hps hd hinv.ready hph hinv.nodup
  refine ⟨m', req', hcall, hfill, fun hown => ?_, fun hsafe => ?_⟩
  · by_contra hunsafe
    obtain ⟨j, hj, hfree⟩ := hstale hunsafe
    rw [← hidx] at hfree
    exact (hown j (hfill ▸ hj)).2 hfree
  · obtain ⟨t2, owned2, hlive2, hinv2⟩ := run_inv hps hd (h.cacheUnfinishedReq hx hph hsafe hcall)
    obtain ⟨pages2, rest2, hinv2, hrest2⟩ := hinv2.pick hlive2 (List.Perm.refl _)
    exact (hinv2.rowOwned hps (fun _ _ hs => hs) (by simp)).perm hrest2

/-! ## Pages are conserved -/

/-- Each page of the pool is free, in the tree or on the row of one live request, and none is in two of
    these: a page on a row that the tree does not hold is not free. -/
structure Partitioned (cfg : Config) (numPages : Nat) (m : Memory) (live : List Live) : Prop where
  once : ((m.pool.allocator.allFree : Multiset Nat) + treePages cfg.pageSize m.pool.cache).Nodup
  cover : ∀ p, (1 ≤ p ∧ p ≤ numPages) ↔ p ∈ m.pool.allocator.allFree ∨ p ∈ treePages cfg.pageSize m.pool.cache ∨
    ∃ x ∈ live, OnRow cfg m x p
  apart : ∀ x ∈ live, ∀ p, OnRow cfg m x p → p ∉ treePages cfg.pageSize m.pool.cache → p ∉ m.pool.allocator.allFree
  alone : ∀ x others, live.Perm (x :: others) → ∀ y ∈ others, ∀ p, OnRow cfg m x p → OnRow cfg m y p →
    p ∈ treePages cfg.pageSize m.pool.cache

theorem Inv.partitioned {owned : List (Live × List Nat)} (hps : 0 < cfg.pageSize) (h : Inv cfg numPages clean m t owned)
    (hclean : clean) (hlive : (owned.map fst).Perm live) : Partitioned cfg numPages m live := by
  have hpick : ∀ x ∈ live, ∃ pages others, Inv cfg numPages clean m t ((x, pages) :: others) ∧ (x, pages) ∈ owned := by
    intro x hx
    obtain ⟨⟨x, pages⟩, he, rfl⟩ := mem_map.mp (hlive.mem_iff.mpr hx)
    obtain ⟨a, b, rfl⟩ := append_of_mem he
    exact ⟨pages, a ++ b, h.perm perm_middle, he⟩
  refine ⟨(nodup_add.mp h.nodup_all).1, fun p => ?_, fun x hx p hrow htree => ?_, fun x others hx y hy p hrow hrow' => ?_⟩
  · rw [h.mem_all]
    refine or_congr_right ⟨Or.imp_right ?_, fun hp => hp.elim .inl ?_⟩
    · intro ⟨e, he, hp⟩
      obtain ⟨a, b, rfl⟩ := append_of_mem he
      exact ⟨e.1, hlive.mem_iff.mp (mem_map_of_mem he), (h.holds e he).own_onRow hps (h.perm perm_middle).nodup hp⟩
    · intro ⟨x, hx, hp⟩
      obtain ⟨pages, others, hinv, he⟩ := hpick x hx
      exact (hinv.onRow_cases hps hclean hp).imp_right fun hp => ⟨_, he, hp⟩
  · obtain ⟨pages, others, hinv, -⟩ := hpick x hx
    exact (hinv.own_apart ((hinv.onRow_cases hps hclean hrow).resolve_left htree)).1
  · obtain ⟨pages, rest, hinv, hrest⟩ := h.pick hlive hx
    refine (hinv.onRow_cases hps hclean hrow).resolve_right fun hp => ?_
    exact hinv.onRow_other hps hclean hp y (hrest.mem_iff.mpr hy) hrow'

/-- In every run the free pages, those of the tree and those that rows have after what the tree has for their request
    are the pages of the pool, each once. -/
theorem run_ledger (hps : 0 < cfg.pageSize) (hd : cfg.disable = false) (h : Run cfg numPages needSort Allowed m live) :
    (m.pool.allocator.allFree : Multiset Nat) + treePages cfg.pageSize m.pool.cache +
      (live.map fun x => (ownPages cfg m x : Multiset Nat)).sum = (range' 1 numPages : List Nat) := by
  obtain ⟨t, owned, hlive, hinv⟩ := run_inv hps hd h
  have hown : owned.map (fun e => (e.2 : Multiset Nat)) = (owned.map fst).map fun x => (ownPages cfg m x : Multiset Nat) := by
    rw [map_map]
    refine map_congr_left fun e he => ?_
    obtain ⟨a, b, rfl⟩ := append_of_mem he
    exact (Multiset.coe_eq_coe.mpr ((hinv.holds e he).ownPages_perm hps (hinv.perm perm_middle).nodup)).symm
  rw [← (hlive.map _).sum_eq, ← hown, ← hinv.pages, hinv.ready.treePages_eq]
  rfl

/-- In every run no page is lost or given back twice. A run of safe calls keeps each page in one place, and after it
    `cache_unfinished_req` does exactly when it is safe itself. -/
theorem pages_partitioned_iff (hps : 0 < cfg.pageSize) (hd : cfg.disable = false) :
    (∀ m live, Run cfg numPages needSort (fun _ _ => True) m live →
      (m.pool.allocator.allFree : Multiset Nat) + treePages cfg.pageSize m.pool.cache +
        (live.map fun x => (ownPages cfg m x : Multiset Nat)).sum = (List.range' 1 numPages : List Nat)) ∧
    ∀ m live, Run cfg numPages needSort (Safe cfg) m live → Partitioned cfg numPages m live ∧
      (live = [] → (m.pool.allocator.allFree : Multiset Nat) + treePages cfg.pageSize m.pool.cache =
        (List.range' 1 numPages : List Nat)) ∧
      ∀ x others, live.Perm (x :: others) → x.phase = .extended → ∃ m' req', cacheUnfinishedReq cfg m x.req = .ok (m', req') ∧
        (Partitioned cfg numPages m' (⟨req', .cached⟩ :: others) ↔ Safe cfg m x.req) := by
  refine ⟨fun m live h => run_ledger hps hd h, fun m live h => ⟨?_, fun hnil => ?_, fun x others hx hph => ?_⟩⟩
  · obtain ⟨t, owned, hlive, hinv⟩ := run_inv hps hd h
    exact hinv.partitioned hps (fun _ _ hs => hs) hlive
  · have := run_ledger hps hd h
    rwa [hnil, map_nil, sum_nil, add_zero] at this
  obtain ⟨t, owned, hlive, hinv⟩ := run_inv hps hd h
  obtain ⟨pages, rest, hinv, hrest⟩ := hinv.pick hlive hx
  obtain ⟨m', req', t', more, hcall, hr', -, -, -, -, hidx, hfill, -, hstale⟩ :=
    (hinv.holds _ mem_cons_self).unfinished hps hd hinv.ready hph hinv.nodup
  refine ⟨m', req', hcall, fun hpart => ?_, fun hsafe => ?_⟩
  · by_contra hunsafe
    obtain ⟨j, hj, hfree⟩ := hstale hunsafe
    have hrow : OnRow cfg m' ⟨req', .cached⟩ (m'.reqToToken x.req.reqPoolIdx j / cfg.pageSize) :=
      ⟨by simp, j, hfill ▸ hj, by rw [hidx]⟩
    refine hpart.apart _ mem_cons_self _ hrow (fun htree => ?_) hfree
    exact disjoint_left.mp (nodup_add.mp hpart.once).2.2 (mem_coe.mpr hfree) htree
  · obtain ⟨t2, owned2, hlive2, hinv2⟩ := run_inv hps hd (h.cacheUnfinishedReq hx hph hsafe hcall)
    exact hinv2.partitioned hps (fun _ _ hs => hs) hlive2

/-! ## Two requests with the same tokens -/

open RadixCache (plainConfig)

/-- Pages of two slots. The first request has one token cached when the second puts the page of both tokens in the tree. -/
def twin : Req := { tokenIds := [1, 2] }

def empty : Memory := ⟨⟨init (plainConfig 2), clear 2 2 false⟩, fun _ _ => 0⟩

theorem twins_calls : ∃ m1 a1, initNextRoundInput (plainConfig 2) empty twin 1 = .ok (m1, a1) ∧ a1.prefixIndices = [] ∧
    a1.tokenIds = [1, 2] ∧
    ∃ m2 a2, extend (plainConfig 2) Schedule.inOrder m1 a1 0 1 = .ok (m2, a2) ∧ oldPrefixLen (plainConfig 2) a2 = 0 ∧
    ∃ m3 a3, cacheUnfinishedReq (plainConfig 2) m2 a2 = .ok (m3, a3) ∧ a3.prefixIndices = [2] ∧ a3.tokenIds = [1, 2] ∧
    a3.reqPoolIdx = 0 ∧
    ∃ m4 b1, initNextRoundInput (plainConfig 2) m3 twin 1 = .ok (m4, b1) ∧ b1.prefixIndices = [] ∧ b1.tokenIds = [1, 2] ∧
    ∃ m5 b2, extend (plainConfig 2) Schedule.inOrder m4 b1 1 2 = .ok (m5, b2) ∧ oldPrefixLen (plainConfig 2) b2 = 0 ∧
    ∃ m6 b3, cacheUnfinishedReq (plainConfig 2) m5 b2 = .ok (m6, b3) ∧ b3.reqPoolIdx = 1 ∧
    ∃ m7 a4, extend (plainConfig 2) Schedule.inOrder m6 a3 0 1 = .ok (m7, a4) ∧
    ∃ m8 a5, cacheUnfinishedReq (plainConfig 2) m7 a4 = .ok (m8, a5) ∧ a5.fillIds = [1, 2] ∧ a5.reqPoolIdx = 0 ∧
    m8.row 0 2 = [2, 5] ∧
      m8.pool.allocator.allFree = [1] :=
  ⟨_, _, rfl, rfl, rfl, _, _, rfl, rfl, _, _, rfl, rfl, rfl, rfl, _, _, rfl, rfl, rfl, _, _, rfl, rfl, _, _, rfl, rfl, _,
    _, rfl, _, _, rfl, rfl, rfl, rfl, rfl⟩

theorem twins_run : ∃ m a b, Run (plainConfig 2) 2 false (Safe (plainConfig 2)) m [⟨a, .extended⟩, ⟨b, .cached⟩] ∧
    ∃ m' a', cacheUnfinishedReq (plainConfig 2) m a = .ok (m', a') ∧ a'.fillIds = [1, 2] ∧ a'.reqPoolIdx = 0 ∧
    m'.row 0 2 = [2, 5] ∧
      m'.pool.allocator.allFree = [1] := by
  obtain ⟨m1, a1, h1, hp1, ht1, m2, a2, h2, ho2, m3, a3, h3, hp3, ht3, hi3, m4, b1, h4, hp4, ht4, m5, b2, h5, ho5, m6, b3,
    h6, hi6, m7, a4, h7, m8, a5, h8, hfacts⟩ := twins_calls
  have safe : ∀ (m : Memory) (req : Req), oldPrefixLen (plainConfig 2) req = 0 → Safe (plainConfig 2) m req := fun m req h0 =>
    .inl (by rw [h0]; exact dvd_zero _)
  have r1 : Run (plainConfig 2) 2 false (Safe (plainConfig 2)) m1 [⟨a1, .fresh⟩] := .initNextRoundInput .init h1
  have r2 := r1.extend (.refl _) (by simp) (by decide) (by rw [hp1, ht1]; decide) (by simp) h2
  have r3 := r2.cacheUnfinishedReq (.refl _) rfl (safe _ _ ho2) h3
  have r4 := r3.initNextRoundInput h4
  have r5 := r4.extend (.refl _) (by simp) (by decide) (by rw [hp4, ht4]; decide) (by simp [hi3]) h5
  have r6 := r5.cacheUnfinishedReq (.refl _) rfl (safe _ _ ho5) h6
  have r7 := r6.extend (.swap _ _ _) (by simp) (by decide) (by rw [hp3, ht3]; decide) (by simp [hi6]) h7
  exact ⟨m7, a4, b3, r7, m8, a5, h8, hfacts⟩

/-- Three tokens, the first two of which are on a page of the tree. -/
def follower : Req := { tokenIds := [1, 2, 3] }

theorem follower_calls : ∃ m1 b1, initNextRoundInput (plainConfig 2) empty twin 1 = .ok (m1, b1) ∧ b1.prefixIndices = [] ∧
    b1.tokenIds = [1, 2] ∧
    ∃ m2 b2, extend (plainConfig 2) Schedule.inOrder m1 b1 1 2 = .ok (m2, b2) ∧ oldPrefixLen (plainConfig 2) b2 = 0 ∧
    ∃ m3 b3, cacheUnfinishedReq (plainConfig 2) m2 b2 = .ok (m3, b3) ∧ b3.reqPoolIdx = 1 ∧
    ∃ m4 a1, initNextRoundInput (plainConfig 2) m3 follower 2 = .ok (m4, a1) ∧ a1.prefixIndices = [2, 3] ∧
    a1.tokenIds = [1, 2, 3] ∧
    ∃ m5 a2, extend (plainConfig 2) Schedule.inOrder m4 a1 0 1 = .ok (m5, a2) ∧ oldPrefixLen (plainConfig 2) a2 = 2 ∧
    a2.fillIds = [1, 2, 3] ∧
      m5.row 0 3 = [2, 3, 4] :=
  ⟨_, _, rfl, rfl, rfl, _, _, rfl, rfl, _, _, rfl, rfl, _, _, rfl, rfl, rfl, _, _, rfl, rfl, rfl, rfl⟩

/-- The second request goes on with its third token after the page that the first put in the tree. -/
theorem cacheUnfinishedReq_rowOwned_iff_follower :
    ∃ m a b, Run (plainConfig 2) 2 false (Safe (plainConfig 2)) m [⟨a, .extended⟩, ⟨b, .cached⟩] ∧
    a.fillIds = [1, 2, 3] ∧ m.row 0 3 = [2, 3, 4] ∧
      ∃ m' a', cacheUnfinishedReq (plainConfig 2) m a = .ok (m', a') ∧ RowOwned (plainConfig 2) m' a' [⟨b, .cached⟩] := by
  obtain ⟨m1, b1, h1, hp1, ht1, m2, b2, h2, ho2, m3, b3, h3, hi3, m4, a1, h4, hp4, ht4, m5, a2, h5, ho5, hf5, hrow⟩ :=
    follower_calls
  have r1 : Run (plainConfig 2) 2 false (Safe (plainConfig 2)) m1 [⟨b1, .fresh⟩] := .initNextRoundInput .init h1
  have r2 := r1.extend (.refl _) (by simp) (by decide) (by rw [hp1, ht1]; decide) (by simp) h2
  have r3 := r2.cacheUnfinishedReq (.refl _) rfl (.inl (by rw [ho2]; exact dvd_zero _)) h3
  have r4 := r3.initNextRoundInput h4
  have r5 := r4.extend (.refl _) (by simp) (by decide) (by rw [hp4, ht4]; decide) (by simp [hi3]) h5
  obtain ⟨m', a', hcall, -, hiff⟩ := cacheUnfinishedReq_rowOwned_iff (by decide) rfl r5 (.refl _) rfl
  exact ⟨m5, a2, b3, r5, hf5, hrow, m', a', hcall, hiff.mpr (.inl (by rw [ho5]; exact dvd_refl 2))⟩

/-- Both tokens of the first request are cached, and slot 2 of page 1, which is free, is left on its row. -/
theorem cacheUnfinishedReq_stale_row : ∃ m a b m' a', Run (plainConfig 2) 2 false (fun _ _ => True) m [⟨a, .extended⟩,
    ⟨b, .cached⟩] ∧
    cacheUnfinishedReq (plainConfig 2) m a = .ok (m', a') ∧ a'.fillIds = [1, 2] ∧ a'.reqPoolIdx = 0 ∧ m'.row 0 2 = [2, 5] ∧
      m'.pool.allocator.allFree = [1] ∧ ¬ RowOwned (plainConfig 2) m' a' [⟨b, .cached⟩] := by
  obtain ⟨m, a, b, hrun, m', a', hcall, hfill, hidx, hrow, hfree⟩ := twins_run
  refine ⟨m, a, b, m', a', hrun.mono fun _ _ _ => trivial, hcall, hfill, hidx, hrow, hfree,
    fun hown => (hown 0 (by rw [hfill]; decide)).2 ?_⟩
  have h0 : m'.reqToToken 0 0 = 2 := (cons.inj hrow).1
  rw [hidx, h0, hfree]
  decide

theorem pages_partitioned_iff_twins : ∃ m a b, Run (plainConfig 2) 2 false (Safe (plainConfig 2)) m [⟨a, .extended⟩,
    ⟨b, .cached⟩] ∧ Partitioned (plainConfig 2) 2 m [⟨a, .extended⟩, ⟨b, .cached⟩] := by
  obtain ⟨m, a, b, hrun, -⟩ := twins_run
  exact ⟨m, a, b, hrun, ((pages_partitioned_iff (by decide) rfl).2 m _ hrun).1⟩

/-- Then page 1 is free and on the row of a live request. -/
theorem free_page_on_row : ∃ m a b, Run (plainConfig 2) 2 false (fun _ _ => True) m [⟨a, .cached⟩, ⟨b, .cached⟩] ∧
    OnRow (plainConfig 2) m ⟨a, .cached⟩ 1 ∧ 1 ∉ treePages 2 m.pool.cache ∧ m.pool.allocator.allFree = [1] ∧
      ¬ Partitioned (plainConfig 2) 2 m [⟨a, .cached⟩, ⟨b, .cached⟩] := by
  obtain ⟨m, a, b, hrun, m', a', hcall, hfill, hidx, hrow, hfree⟩ := twins_run
  have hrun' := (hrun.mono fun _ _ _ => trivial : Run (plainConfig 2) 2 false (fun _ _ => True) m _).cacheUnfinishedReq
    (.refl _) rfl trivial hcall
  have h0 : m'.reqToToken 0 0 = 2 := (cons.inj hrow).1
  have hon : OnRow (plainConfig 2) m' ⟨a', .cached⟩ 1 := ⟨by simp, 0, by rw [hfill]; decide, by rw [hidx, h0]; rfl⟩
  have htree : 1 ∉ treePages 2 m'.pool.cache := by
    obtain ⟨t, owned, -, hinv⟩ := run_inv (by decide) rfl hrun'
    exact fun ht => hinv.tree_not_free ht (by rw [hfree]; decide)
  exact ⟨m', a', b, hrun', hon, htree, hfree, fun hpart => hpart.apart _ mem_cons_self 1 hon htree (by rw [hfree]; decide)⟩

end Memory

end DynaSpec.MemCache
