/-
  DynaSpec.MemCache.PrefetchConserves — the storage-prefetch protocol and host memory.

  The scheduler's steps keep the invariant of `PrefetchThreads` too, and so does every step of a
  run (`step_inv`) unless one of two things happens. When a batch is cut short, the I/O thread
  releases the rest of the operation's memory in `_page_transfer` and once more in
  `prefetch_io_aux_func`. And a revoke is filed under the id of its request: if the request,
  retracted meanwhile, has begun another prefetch, the entry of that one is dropped. In every
  run in which neither happens every state is conserved (`prefetch_conserves`);
  `unread_page_freed_twice` is a run with an unread page.
-/

import DynaSpec.MemCache.PrefetchThreads

namespace DynaSpec.MemCache.HiRadix

open DynaSpec.Lib HiTree List Dict
open Option (getD_none getD_some some)

variable {pool : HostPool} {needSize : Nat} {tree : HiTree} {e : Ongoing} {a : System.Action}

/-- A node that the walk from the root comes to. -/
inductive InTree (s : HiTree) : NodeId → Prop where
  | root : InTree s 0
  | child {p c : NodeId} {k : ChildKey} : InTree s p → (s.node p).children.get? k = some c → InTree s c

theorem HiTree.Wf.mem_live_iff {pageSize : Nat} {s : HiTree} {live : Finset NodeId} {path : NodeId → List ChildKey}
    (w : s.Wf pageSize live path) (n : NodeId) : n ∈ live ↔ InTree s n := by
  constructor
  · revert n
    refine w.shape.climb InTree.root fun n hn h0 p hp hp' ih => ?_
    obtain ⟨q, x, -, hq, -, -, hc⟩ := w.shape.up n hn h0
    obtain rfl : q = p := some.inj (hq.symm.trans hp')
    exact InTree.child ih hc
  · intro h
    induction h with
    | root => exact w.shape.root_live
    | child _ hc ih => exact (w.child ih hc).1

namespace System

variable {cfg : StorageConfig} {size : Nat} {s s' : System} {live : Finset NodeId} {path : NodeId → List ChildKey}

/-! ## The scheduler -/

theorem protectHost_same (t : HiTree) (n : NodeId) : t.Same (t.protectHost n) := same_modify fun _ => ⟨rfl, rfl, rfl, rfl, rfl⟩

theorem hostRefCounter_protectHost (t : HiTree) (n m : NodeId) :
    ((t.protectHost n).node m).hostRefCounter = (t.node m).hostRefCounter + [n].count m := by
  by_cases h : m = n
  · rw [h, protectHost, node_modify_same, count_singleton_self]
  · rw [protectHost, node_modify_ne _ _ h, count_singleton, if_neg (by simpa using Ne.symm h)]
    rfl

variable {r : ReqId} {n : NodeId}

theorem releaseHost_spec (t : HiTree) (hpos : 0 < (t.node n).hostRefCounter) : ∃ t', t.releaseHost n = .ok t' ∧ t.Same t' ∧
      ∀ m, (t'.node m).hostRefCounter + [n].count m = (t.node m).hostRefCounter := by
  refine ⟨t.modify n fun node => { node with hostRefCounter := node.hostRefCounter - 1 }, by rw [releaseHost, if_pos hpos],
    same_modify fun _ => ⟨rfl, rfl, rfl, rfl, rfl⟩, fun m => ?_⟩
  by_cases h : m = n
  · rw [h, node_modify_same, count_singleton_self]
    show (t.node n).hostRefCounter - 1 + 1 = _
    omega
  · rw [node_modify_ne _ _ h, count_singleton, if_neg (by simpa using Ne.symm h)]
    rfl

section
variable (h : Inv cfg size s live path)
include h

theorem Inv.ref_pos (he : s.ongoingPrefetch.get? r = some e) : 0 < (s.tree.node e.lastHostNode).hostRefCounter := by
  have hmem : e.lastHostNode ∈ s.ongoingPrefetch.values.map Ongoing.lastHostNode :=
    mem_map_of_mem (mem_values.mpr ⟨r, get?_eq_some.mp he⟩)
  have := count_pos_iff.mpr hmem
  have := h.refs e.lastHostNode
  omega

/-- A request does not wait any longer for its prefetch, and `tree`, `pool` and `pages` have what was fetched for it. -/
theorem Inv.settle {info : Ongoing} (he : s.ongoingPrefetch.get? r = some info)
    (hdone : info.operation ∉ s.located ∨ (s.operation info.operation).terminatedFlag = true) (hidle : s.scheduler = [])
    {live' : Finset NodeId} {path' : NodeId → List ChildKey} (w : tree.Wf cfg.pageSize live' path') (hlive : live ⊆ live')
    (hrefs : ∀ n ∈ live, (tree.node n).hostRefCounter = (s.tree.node n).hostRefCounter) (hpage : pool.pageSize = cfg.pageSize)
    (pages : List (List Nat)) (hcount : ∀ x, pool.freeSlots.count x + tree.held live' x + pages.flatten.count x =
      s.pool.freeSlots.count x + s.tree.held live x + (s.fetched info).count x) : ∃ tree',
      tree.releaseHost info.lastHostNode = .ok tree' ∧ Inv cfg size { s with
        tree := tree'
        pool := pool
        scheduler := pages
        ongoingPrefetch := s.ongoingPrefetch.erase r
        prefetchTokensOccupied := s.prefetchTokensOccupied - info.tokenIds.length } live' path' := by
  have hmem : info ∈ s.ongoingPrefetch.values := mem_values.mpr ⟨r, get?_eq_some.mp he⟩
  have hnode := h.nodes info hmem
  obtain ⟨tree', htree', hsame, href⟩ := releaseHost_spec tree (n := info.lastHostNode) (by
    rw [hrefs _ hnode]
    exact h.ref_pos he)
  have hperm := values_erase_perm he
  have hsub : ∀ e ∈ (s.ongoingPrefetch.erase r).values, e ∈ s.ongoingPrefetch.values := fun e hin =>
    hperm.mem_iff.mpr (mem_cons_of_mem _ hin)
  have hget : ∀ {r' e'}, (s.ongoingPrefetch.erase r).get? r' = some e' → s.ongoingPrefetch.get? r' = some e' := fun he' =>
    (get?_erase_eq_some.mp he').2
  refine ⟨tree', htree', ⟨w.same hsame, fun x => ?_, hpage, fun e hin => hlive (h.nodes e (hsub e hin)),
    fun n hin => hlive (h.backups n hin), fun n => ?_, ?_, ?_⟩⟩
  · have h1 := hcount x
    have h2 := h.ledger x
    have h3 : s.awaited.count x = (s.fetched info).count x + ((s.ongoingPrefetch.erase r).values.flatMap s.fetched).count x := by
      rw [awaited, (hperm.flatMap_right s.fetched).count_eq, flatMap_cons, count_append]
    rw [count_inFlight, hidle, h3] at h2
    rw [count_inFlight]
    show pool.freeSlots.count x + tree'.held live' x +
      (s.queued.count x + s.prefetchThreadHolds.count x + s.buffered.count x + s.ioThreadHolds.count x +
      ((s.ongoingPrefetch.erase r).values.flatMap s.fetched).count x + s.hostMemReleaseQueue.flatten.count x +
      pages.flatten.count x) = _
    rw [hsame.held]
    simp only [flatten_nil, count_nil] at h2
    omega
  · show ((s.ongoingPrefetch.erase r).values.map Ongoing.lastHostNode).count n + s.ongoingBackup.values.count n ≤
      (tree'.node n).hostRefCounter
    have h1 := (hperm.map Ongoing.lastHostNode).count_eq n
    rw [map_cons, ← singleton_append, count_append] at h1
    by_cases hn : n ∈ live
    · have h2 := h.refs n
      have h3 := href n
      rw [hrefs n hn] at h3
      omega
    -- no operation refers to a node outside
    have hz1 : ((s.ongoingPrefetch.erase r).values.map Ongoing.lastHostNode).count n = 0 := count_eq_zero.mpr fun hin => by
      obtain ⟨e, hine, rfl⟩ := mem_map.mp hin
      exact hn (h.nodes e (hsub e hine))
    have hz2 : s.ongoingBackup.values.count n = 0 := count_eq_zero.mpr fun hin => hn (h.backups n hin)
    omega
  · refine ⟨h.ops.nodup, h.ops.lt, fun r' e' he' => ?_, fun o ho hf => ?_, fun o ho => ?_, h.ops.cutting, h.ops.buffer, h.ops.io,
      fun r' hr' e' he' => h.ops.revoked r' hr' e' (hget he')⟩
    · have := h.ops.entry r' e' (hget he')
      exact ⟨this.lt, this.requestId, this.tokens, this.front, this.le, this.dvd⟩
    · obtain ⟨r', e', he', heo⟩ := h.ops.owned o ho hf
      refine ⟨r', e', get?_erase_eq_some.mpr ⟨fun hrr => ?_, he'⟩, heo⟩
      rw [hrr, he] at he'
      obtain rfl := some.inj he'
      rcases hdone with hdone | hdone
      · exact hdone (heo ▸ ho)
      have hf : (s.operation o).terminatedFlag = false := hf
      rw [heo, hf] at hdone
      cases hdone
    · obtain ⟨h1, h2, h3, h4⟩ := h.ops.undecided o ho
      exact ⟨h1, h2, h3, fun e' he' => h4 e' (hget he')⟩
  · show s.prefetchTokensOccupied - info.tokenIds.length =
      (((s.ongoingPrefetch.erase r).values.map fun e => (e.tokenIds.length : Int)).sum)
    have h1 := (hperm.map fun e => (e.tokenIds.length : Int)).sum_eq
    rw [map_cons, sum_cons] at h1
    rw [h.occupied, h1]
    omega

theorem Inv.markTerminate (he : s.ongoingPrefetch.get? r = some e) : ∃ s1, s.markTerminate e.operation = s1 ∧
    Inv cfg size s1 live path ∧
    s1.ongoingPrefetch.get? r = some e ∧ (s1.operation e.operation).terminatedFlag = true ∧ s1.scheduler = s.scheduler :=
  ⟨_, rfl, h.mark ⟨rfl, rfl, rfl, rfl, nofun⟩ (.inl rfl), he, by rw [System.markTerminate, operation_same], rfl⟩

theorem Inv.checkPrefetchProgress (hps : 0 < cfg.pageSize) (hidle : s.scheduler = []) (r : ReqId) (timedOut : Bool) :
    ∃ s' live' path', s.checkPrefetchProgress cfg r timedOut = .ok s' ∧ Inv cfg size s' live' path' := by
  unfold System.checkPrefetchProgress
  cases he : s.ongoingPrefetch.get? r with
  | none => exact ⟨s, live, path, rfl, h⟩
  | some info =>
    dsimp only
    split
    · exact ⟨s, live, path, rfl, h⟩
    obtain ⟨s1, hs1, h1, he1, hterm, hscheduler⟩ := h.markTerminate he
    rw [hs1]
    have hentry := h1.ops.entry r info he1
    have hle : (s1.operation info.operation).completedTokens ≤ info.hostIndices.length :=
      le_trans hentry.le hentry.front.length_le
    obtain ⟨key, hkey⟩ : ∃ key : RadixKey, key =
      ⟨info.tokenIds.take (s1.operation info.operation).completedTokens, (s1.tree.node info.lastHostNode).key.extraKey⟩ :=
      ⟨_, rfl⟩
    have hkeyLen : key.len = (s1.operation info.operation).completedTokens := by
      rw [hkey]
      show (info.tokenIds.take _).length = _
      rw [length_take, hentry.tokens, min_eq_left hle]
    have hvalueLen : (s1.fetched info).length = (s1.operation info.operation).completedTokens := by
      rw [fetched, length_take, min_eq_left hle]
    obtain ⟨tree, matched, live', path', hinsert, w, hsub, hmatched, hheld, hrefs⟩ := insertHelperHost_spec cfg.toConfig hps h1.wf
      (h1.nodes info (mem_values.mpr ⟨r, get?_eq_some.mp he1⟩))
      (show cfg.pageSize ∣ key.len by rw [hkeyLen]; exact hentry.dvd) (s1.fetched info)
      ((s1.operation info.operation).hashValue.take ((s1.operation info.operation).completedTokens / cfg.pageSize))
      (by rw [hvalueLen, hkeyLen])
    rw [hkeyLen] at hmatched
    have hnone : releasePages cfg.pageSize ((info.hostIndices.take (s1.operation info.operation).completedTokens).drop
        (s1.operation info.operation).completedTokens) = [] := by
      rw [drop_of_length_le (by rw [length_take]; exact min_le_left _ _)]
      rfl
    obtain ⟨tree', hrelease, h2⟩ := h1.settle he1 (.inr hterm) (hscheduler.trans hidle) w hsub hrefs
      (show (s1.pool.free (info.hostIndices.take matched)).pageSize = _ from h1.page) [] (fun x => by
        have hparts := congrArg (count x) (take_append_drop matched (s1.fetched info))
        have htake : (s1.fetched info).take matched = info.hostIndices.take matched := by
          rw [fetched, take_take, min_eq_left hmatched]
        rw [count_append, htake] at hparts
        rw [hheld]
        simp only [HostPool.free, count_append, flatten_nil, count_nil]
        omega)
    refine ⟨_, live', path', ?_, h2⟩
    rw [fetched, hkey] at hinsert
    simp only [hinsert, hrelease, hnone, bind, Except.bind]
    rfl

theorem Inv.releaseAbortedRequest (hps : 0 < cfg.pageSize) (hidle : s.scheduler = []) (r : ReqId) :
    ∃ s' live' path', s.releaseAbortedRequest cfg r = .ok s' ∧ Inv cfg size s' live' path' := by
  unfold System.releaseAbortedRequest
  cases he : s.ongoingPrefetch.get? r with
  | none => exact ⟨s, live, path, rfl, h⟩
  | some info =>
    dsimp only
    obtain ⟨s1, hs1, h1, he1, hterm, hscheduler⟩ := h.markTerminate he
    rw [hs1]
    obtain ⟨tree', hrelease, h2⟩ := h1.settle he1 (.inr hterm) (hscheduler.trans hidle) h1.wf (Finset.Subset.refl _)
      (fun _ _ => rfl) h1.page
      (releasePages cfg.pageSize (s1.fetched info)) (fun x => by rw [flatten_releasePages hps])
    refine ⟨_, live, path, ?_, h2⟩
    simp only [hrelease, bind, Except.bind]
    rfl

/-- A revoke that is processed drops the entry of an operation that was revoked. -/
theorem Inv.processRevoke (hidle : s.scheduler = [])
    (hrevoked : ∀ e, s.ongoingPrefetch.get? r = some e → e.operation ∉ s.located ∧
    (s.operation e.operation).completedTokens = 0) :
    ∃ s', s.processRevoke r = .ok s' ∧ Inv cfg size s' live path ∧ s'.scheduler = [] ∧ s'.located = s.located ∧
    s'.operation = s.operation ∧
      ∀ r' e, s'.ongoingPrefetch.get? r' = some e → s.ongoingPrefetch.get? r' = some e := by
  unfold System.processRevoke
  cases he : s.ongoingPrefetch.get? r with
  | none => exact ⟨s, rfl, h, hidle, rfl, rfl, fun _ _ => id⟩
  | some info =>
    obtain ⟨hout, hzero⟩ := hrevoked info he
    obtain ⟨tree', hrelease, h2⟩ := h.settle he (.inl hout) hidle h.wf (Finset.Subset.refl _) (fun _ _ => rfl) h.page []
      (fun x => by
        rw [fetched, hzero, take_zero]
        rfl)
    refine ⟨_, ?_, h2, rfl, rfl, rfl, fun r' e he' => (get?_erase_eq_some.mp he').2⟩
    simp only [hrelease, bind, Except.bind]
    rw [← hidle]
    rfl

theorem Inv.drainRevokes (hidle : s.scheduler = []) : ∃ s', s.drainRevokes = .ok s' ∧ Inv cfg size s' live path := by
  have hstart : Inv cfg size { s with prefetchRevokeQueue := [] } live path :=
    h.thread rfl rfl rfl rfl rfl (fun _ => rfl) (h.ops.next (h.ops.advances rfl rfl rfl) (.refl _)
      (fun o ho => ⟨ho, rfl, rfl, rfl⟩) h.ops.cutting h.ops.buffer h.ops.io nofun)
  obtain ⟨s', hrun, hs', -⟩ := foldlM_ok (f := System.processRevoke) (l := s.prefetchRevokeQueue)
    (P := fun t => Inv cfg size t live path ∧ t.scheduler = [] ∧ ∀ r ∈ s.prefetchRevokeQueue, ∀ e,
    t.ongoingPrefetch.get? r = some e →
      e.operation ∉ t.located ∧ (t.operation e.operation).completedTokens = 0)
    (by
      rintro r hr t ⟨ht, hti, hall⟩
      obtain ⟨t', hstep, ht', hti', hloc, hop, hget⟩ := ht.processRevoke hti (hall r hr)
      refine ⟨t', hstep, ht', hti', fun r' hr' e he => ?_⟩
      rw [hloc, hop]
      exact hall r' hr' e (hget r' e he))
    ⟨hstart, hidle, h.ops.revoked⟩
  exact ⟨s', hrun, hs'⟩

/-- The operations under way do not depend on what the scheduler has for itself. -/
theorem Inv.ops_keep {acks : List Nat} {backup : Dict Nat NodeId} {releases : List (List Nat)} :
    Ops cfg { s with
      tree := tree
      pool := pool
      ackBackupQueue := acks
      ongoingBackup := backup
      hostMemReleaseQueue := releases } :=
  h.ops.next (h.ops.advances rfl rfl rfl) (.refl _) (fun _ ho => ⟨ho, rfl, rfl, rfl⟩) h.ops.cutting h.ops.buffer h.ops.io
    h.ops.revoked

theorem Inv.processBackupAck (ackId : Nat) : ∃ s', s.processBackupAck ackId = .ok s' ∧ Inv cfg size s' live path := by
  unfold System.processBackupAck
  cases he : s.ongoingBackup.get? ackId with
  | none => exact ⟨s, rfl, h⟩
  | some node =>
    have hperm := values_erase_perm he
    have hmem : node ∈ s.ongoingBackup.values := hperm.mem_iff.mpr mem_cons_self
    obtain ⟨tree', hrelease, hsame, href⟩ := releaseHost_spec s.tree (n := node) (by
      have := count_pos_iff.mpr hmem
      have := h.refs node
      omega)
    refine ⟨{ s with tree := tree', ongoingBackup := s.ongoingBackup.erase ackId },
      by simp only [hrelease, bind, Except.bind]; rfl,
      ⟨h.wf.same hsame, fun x => ?_, h.page, h.nodes, fun n hn => h.backups n (hperm.mem_iff.mpr (mem_cons_of_mem _ hn)),
      fun n => ?_,
        h.ops_keep, h.occupied⟩⟩
    · show s.pool.freeSlots.count x + tree'.held live x + s.inFlight.count x = _
      rw [hsame.held]
      exact h.ledger x
    · show (s.ongoingPrefetch.values.map Ongoing.lastHostNode).count n + (s.ongoingBackup.erase ackId).values.count n ≤
        (tree'.node n).hostRefCounter
      have h1 := hperm.count_eq n
      have h2 := h.refs n
      have h3 := href n
      rw [← singleton_append, count_append] at h1
      omega

theorem Inv.drainBackupAcks : ∃ s', s.drainBackupAcks = .ok s' ∧ Inv cfg size s' live path := by
  exact foldlM_ok (fun id _ _ ht => ht.processBackupAck id) (h.thread rfl rfl rfl rfl rfl (fun _ => rfl) h.ops_keep)

theorem Inv.drainReleases : Inv cfg size s.drainReleases live path where
  wf := h.wf
  ledger x := by
    have := h.ledger x
    rw [count_inFlight] at this
    rw [count_inFlight]
    show (s.pool.freeSlots ++ s.hostMemReleaseQueue.flatten).count x + s.tree.held live x +
      (s.queued.count x + s.prefetchThreadHolds.count x +
      s.buffered.count x + s.ioThreadHolds.count x + s.awaited.count x + 0 + s.scheduler.flatten.count x) = _
    rw [count_append]
    omega
  page := h.page
  nodes := h.nodes
  backups := h.backups
  refs := h.refs
  ops := h.ops_keep
  occupied := h.occupied

end

/-- A request that no operation under way and no pending revoke is filed under. -/
def Fresh (s : System) (r : ReqId) : Prop :=
  s.ongoingPrefetch.get? r = none ∧ r ∉ s.prefetchRevokeQueue ∧ ∀ o, s.Undecided o → (s.operation o).requestId ≠ r

theorem alloc_spec (pool : HostPool) (hdvd : pool.pageSize ∣ needSize) :
    ∃ res pool', pool.alloc needSize = .ok (res, pool') ∧ pool'.pageSize = pool.pageSize ∧
    (∀ l, res = some l → l.length = needSize) ∧
      ∀ x, pool'.freeSlots.count x + (res.getD []).count x = pool.freeSlots.count x := by
  unfold HostPool.alloc
  rw [if_neg (by rw [Nat.mod_eq_zero_of_dvd hdvd]; exact fun h => h rfl)]
  split
  · exact ⟨none, pool, rfl, rfl, nofun, fun x => rfl⟩
  rename_i hlen
  refine ⟨_, _, rfl, rfl, fun l h => ?_, fun x => ?_⟩
  · obtain rfl := some.inj h
    rw [length_take, min_eq_left (by omega)]
  · have := congrArg (count x) (take_append_drop needSize pool.freeSlots)
    rw [count_append] at this
    simp only [getD_some]
    omega

theorem allocHost_spec (w : tree.Wf cfg.pageSize live path) (hpage : pool.pageSize = cfg.pageSize)
    (hdvd : cfg.pageSize ∣ needSize) :
    ∃ res tree' pool' live', allocHost cfg tree pool needSize = .ok (res, tree', pool') ∧ tree'.Wf cfg.pageSize live' path ∧
    live' ⊆ live ∧
      pool'.pageSize = cfg.pageSize ∧ (∀ l, res = some l → l.length = needSize) ∧
      (∀ x, pool'.freeSlots.count x + tree'.held live' x + (res.getD []).count x = pool.freeSlots.count x + tree.held live x) ∧
      (∀ n ∈ live, 0 < (tree.node n).hostRefCounter → n ∈ live') ∧ ∀ n,
      (tree'.node n).hostRefCounter = (tree.node n).hostRefCounter := by
  obtain ⟨res, pool1, halloc, hpage1, hlen, hcount⟩ := alloc_spec pool (hpage ▸ hdvd)
  unfold allocHost
  simp only [halloc, bind, Except.bind]
  cases res with
  | some l =>
    refine ⟨some l, tree, pool1, live, rfl, w, Finset.Subset.refl _, hpage1.trans hpage, hlen, fun x => ?_,
      fun n hn _ => hn, fun _ => rfl⟩
    have := hcount x
    omega
  | none =>
    obtain ⟨tree2, pool2, live2, hevict, w2, hsub, hpage2, hcount2, hkept, hrefs⟩ := evictHost_spec cfg.toConfig w pool1 needSize
    obtain ⟨res3, pool3, halloc3, hpage3, hlen3, hcount3⟩ := alloc_spec pool2
      (show pool2.pageSize ∣ needSize by rw [hpage2, hpage1, hpage]; exact hdvd)
    simp only [hevict, halloc3]
    refine ⟨res3, tree2, pool3, live2, rfl, w2, hsub, by rw [hpage3, hpage2, hpage1, hpage], hlen3, fun x => ?_, hkept, hrefs⟩
    have h1 := hcount x
    have h2 := hcount2 x
    have h3 := hcount3 x
    simp only [getD_none, count_nil] at h1
    omega

theorem prefetchThreadHolds_congr (hthread : s'.prefetchThread = s.prefetchThread)
    (hop : ∀ o ∈ s.prefetchThread.operations, s'.operation o = s.operation o) :
    s'.prefetchThreadHolds = s.prefetchThreadHolds := by
  unfold prefetchThreadHolds
  rw [hthread]
  cases h : s.prefetchThread with
  | waiting => rfl
  | revoking pages => rfl
  | querying o | cutting o =>
    dsimp only
    rw [hop o (by rw [h]; exact mem_singleton_self o)]

section
variable {hostIndices : List Nat} {tokens : List Token} {lastHash : Option Hash} (h : Ops cfg s) (hfresh : s.Fresh r)
  (hold : ∀ {o}, o < s.counter → s'.operation o = s.operation o)
  (hnew : s'.operation s.counter = ⟨r, hostIndices, tokens, lastHash, 0, [], false⟩)
  (hongoing : s'.ongoingPrefetch = s.ongoingPrefetch.set r ⟨n, tokens, hostIndices, s.counter⟩)
  (hqueue : s'.prefetchQueue = s.prefetchQueue ++ [s.counter]) (hbuffer : s'.prefetchBuffer = s.prefetchBuffer)
  (hthread : s'.prefetchThread = s.prefetchThread) (hio : s'.ioThread = s.ioThread)
include h hfresh hold hnew hongoing hqueue hbuffer hthread hio

/-- The operations under way do not see that a new one comes to the queue. -/
theorem Ops.enqueue (hlen : hostIndices.length = tokens.length) (hdvd : cfg.pageSize ∣ tokens.length)
    (hcounter : s'.counter = s.counter + 1)
    (hrevoke : s'.prefetchRevokeQueue = s.prefetchRevokeQueue) : Ops cfg s' := by
  obtain ⟨hnone, hqueued, hundecided⟩ := hfresh
  have hperm : s'.located.Perm (s.counter :: s.located) := by
    simp only [located, hqueue, hthread, hbuffer, hio, append_assoc, singleton_append]
    exact perm_middle
  have hget : ∀ r' e, s'.ongoingPrefetch.get? r' = some e → (r' = r ∧ e = ⟨n, tokens, hostIndices, s.counter⟩) ∨
      (r' ≠ r ∧ s.ongoingPrefetch.get? r' = some e) := fun r' e he => by
    rw [hongoing, get?_set] at he
    split at he
    · exact .inl ⟨by assumption, (some.inj he).symm⟩
    · exact .inr ⟨by assumption, he⟩
  have hlocated : ∀ {o}, o ∈ s.located → o < s.counter := h.lt _
  have hbuffered : ∀ {o}, o ∈ s.prefetchBuffer → o < s.counter := fun ho =>
    hlocated (mem_append_left _ (mem_append_right _ ho))
  refine ⟨hperm.nodup_iff.mpr (nodup_cons.mpr ⟨fun hin => lt_irrefl _ (hlocated hin), h.nodup⟩), fun o ho => ?_,
    fun r' e he => ?_,
    fun o ho hf => ?_, fun o ho => ?_, fun o hits pages hc => ?_, fun o ho => ?_, ?_, fun r' hr' e he => ?_⟩
  · rw [hcounter]
    rcases mem_cons.mp (hperm.mem_iff.mp ho) with rfl | ho
    · exact Nat.lt_succ_self _
    · exact Nat.lt_succ_of_lt (hlocated ho)
  · rcases hget r' e he with ⟨rfl, rfl⟩ | ⟨-, he⟩
    · refine ⟨by rw [hcounter]; exact Nat.lt_succ_self _, ?_, hlen.symm, ?_, ?_, ?_⟩ <;> rw [hnew]
      · exact Nat.zero_le _
      · exact Nat.dvd_zero _
    have hentry := h.entry r' e he
    refine ⟨by rw [hcounter]; exact Nat.lt_succ_of_lt hentry.lt, ?_, hentry.tokens, ?_, ?_, ?_⟩ <;> rw [hold hentry.lt]
    exacts [hentry.requestId, hentry.front, hentry.le, hentry.dvd]
  · rcases mem_cons.mp (hperm.mem_iff.mp ho) with rfl | ho
    · exact ⟨r, _, by rw [hongoing, get?_set, if_pos rfl], rfl⟩
    rw [hold (hlocated ho)] at hf
    obtain ⟨r', e, he, heo⟩ := h.owned o ho hf
    refine ⟨r', e, ?_, heo⟩
    rw [hongoing, get?_set, if_neg, he]
    intro hr
    rw [hr, hnone] at he
    cases he
  · have hcases : o = s.counter ∨ s.Undecided o := by
      rcases ho with ho | ho
      · rw [hqueue] at ho
        rcases mem_append.mp ho with ho | ho
        · exact .inr (.inl ho)
        · exact .inl (mem_singleton.mp ho)
      · exact .inr (.inr (hthread ▸ ho))
    rcases hcases with rfl | ho
    · rw [hnew]
      refine ⟨rfl, hlen, hdvd, fun e he => ?_⟩
      rcases hget _ e he with ⟨-, rfl⟩ | ⟨hne, -⟩
      · rfl
      · exact absurd rfl hne
    have hlt : o < s.counter := by
      rcases ho with ho | ho
      · exact hlocated (mem_append_left _ (mem_append_left _ (mem_append_left _ ho)))
      refine hlocated (mem_append_left _ (mem_append_left _ (mem_append_right _ ?_)))
      rw [ho]
      exact mem_singleton_self o
    rw [hold hlt]
    obtain ⟨h1, h2, h3, h4⟩ := h.undecided o ho
    refine ⟨h1, h2, h3, fun e he => ?_⟩
    rcases hget _ e he with ⟨hr, -⟩ | ⟨-, he⟩
    · exact absurd hr (hundecided o ho)
    · exact h4 e he
  · rw [hthread] at hc
    have hlt : o < s.counter := hlocated (mem_append_left _ (mem_append_left _ (mem_append_right _ (by
      rw [hc]
      exact mem_singleton_self o))))
    rw [hold hlt]
    exact h.cutting o hits pages hc
  · rw [hbuffer] at ho
    rw [hold (hbuffered ho)]
    exact h.buffer o ho
  · refine h.io.congr hio fun o ho => ?_
    rw [hold (hlocated (mem_append_right _ ho))]
    exact ⟨rfl, rfl, rfl⟩
  · rw [hrevoke] at hr'
    rcases hget r' e he with ⟨rfl, -⟩ | ⟨-, he⟩
    · exact absurd hr' hqueued
    obtain ⟨h1, h2⟩ := h.revoked r' hr' e he
    have hlt := (h.entry r' e he).lt
    refine ⟨fun hin => ?_, by rw [hold hlt]; exact h2⟩
    rcases mem_cons.mp (hperm.mem_iff.mp hin) with heq | hin
    · exact ne_of_lt hlt heq
    · exact h1 hin

/-- A new operation comes with its slots. -/
theorem inFlight_enqueue (hrelease : s'.hostMemReleaseQueue = s.hostMemReleaseQueue)
    (hscheduler : s'.scheduler = s.scheduler) (x : Nat) :
    s'.inFlight.count x = s.inFlight.count x + hostIndices.count x := by
  have hqueued : s'.queued = s.queued ++ hostIndices := by
    rw [queued, queued, hqueue, flatMap_append, flatMap_singleton, hnew]
    congr 1
    refine flatMap_congr fun o ho => ?_
    rw [hold (h.lt o (mem_append_left _ (mem_append_left _ (mem_append_left _ ho))))]
  have hbuffered : s'.buffered = s.buffered := by
    rw [buffered, buffered, hbuffer]
    refine flatMap_congr fun o ho => ?_
    rw [unfetched, unfetched, hold (h.lt o (mem_append_left _ (mem_append_right _ ho)))]
  have hawaited : s'.awaited.count x = s.awaited.count x := by
    have hfetched : s'.fetched ⟨n, tokens, hostIndices, s.counter⟩ = [] := by
      rw [fetched, hnew]
      rfl
    rw [awaited, hongoing, ((values_set_perm _ hfresh.1).flatMap_right s'.fetched).count_eq, flatMap_cons, hfetched,
      nil_append, awaited]
    congr 1
    refine flatMap_congr fun e' he' => ?_
    obtain ⟨r', hr'⟩ := mem_values.mp he'
    rw [fetched, fetched, hold (h.entry r' e' (get?_eq_some.mpr hr')).lt]
  have hprefetch : s'.prefetchThreadHolds = s.prefetchThreadHolds := prefetchThreadHolds_congr hthread fun o ho =>
    hold (h.lt o (mem_append_left _ (mem_append_left _ (mem_append_right _ ho))))
  have hioHolds : s'.ioThreadHolds = s.ioThreadHolds := ioThreadHolds_congr hio fun o ho => hold (h.lt o (mem_append_right _ ho))
  rw [count_inFlight, count_inFlight, hqueued, hbuffered, hawaited, hprefetch, hioHolds, hrelease, hscheduler, count_append]
  omega

end

section
variable (h : Inv cfg size s live path)
include h

theorem Inv.prefetchFromStorage (hn : n ∈ live) (hfresh : s.Fresh r) (newInputTokens : List Token)
    (lastHash : Option Hash) : ∃ s' live', s.prefetchFromStorage cfg r n newInputTokens lastHash = .ok s' ∧
    Inv cfg size s' live' path := by
  unfold System.prefetchFromStorage
  dsimp only
  split
  · exact ⟨s, live, rfl, h⟩
  generalize hlength : newInputTokens.length - newInputTokens.length % cfg.pageSize = prefetchLength
  have htokens : (newInputTokens.take prefetchLength).length = prefetchLength := by
    rw [length_take, min_eq_left (by omega)]
  have hdvd : cfg.pageSize ∣ prefetchLength := by
    rw [← hlength]
    exact Nat.dvd_sub_mod _
  obtain ⟨res, tree, pool, live', halloc, w, hsub, hpage, hlen, hcount, hkept, hrefs⟩ := allocHost_spec
    (h.wf.same (protectHost_same s.tree n)) h.page hdvd
  -- a node that an operation refers to is not evicted
  have hlive : ∀ m ∈ live, 0 < (s.tree.node m).hostRefCounter ∨ m = n → m ∈ live' := fun m hm hpos => by
    refine hkept m hm ?_
    rw [hostRefCounter_protectHost]
    rcases hpos with hpos | rfl
    · omega
    · rw [count_singleton_self]
      omega
  have hentries : ∀ e ∈ s.ongoingPrefetch.values, e.lastHostNode ∈ live' := fun e he => by
    obtain ⟨r', hr'⟩ := mem_values.mp he
    exact hlive _ (h.nodes e he) (.inl (h.ref_pos (get?_eq_some.mpr hr')))
  have hbackups : ∀ m ∈ s.ongoingBackup.values, m ∈ live' := fun m hm => by
    refine hlive _ (h.backups m hm) (.inl ?_)
    have := count_pos_iff.mpr hm
    have := h.refs m
    omega
  have href : ∀ m, (tree.node m).hostRefCounter = (s.tree.node m).hostRefCounter + [n].count m := fun m => by
    rw [hrefs, hostRefCounter_protectHost]
  have hheld : ∀ x, (s.tree.protectHost n).held live x = s.tree.held live x := (protectHost_same s.tree n).held
  simp only [halloc, bind, Except.bind]
  cases res with
  | none =>
    obtain ⟨tree', hrelease, hsame, href'⟩ := releaseHost_spec tree (n := n) (by rw [href, count_singleton_self]; omega)
    simp only [hrelease]
    refine ⟨_, live', rfl, ⟨w.same hsame, fun x => ?_, hpage, hentries, hbackups, fun m => ?_, h.ops_keep, h.occupied⟩⟩
    · show pool.freeSlots.count x + tree'.held live' x + s.inFlight.count x = _
      have h1 := hcount x
      have h2 := h.ledger x
      rw [hheld, getD_none, count_nil] at h1
      rw [hsame.held]
      omega
    show _ ≤ (tree'.node m).hostRefCounter
    have h1 := href m
    have h2 := href' m
    have h3 := h.refs m
    show (s.ongoingPrefetch.values.map Ongoing.lastHostNode).count m + s.ongoingBackup.values.count m ≤ _
    omega
  | some hostIndices =>
    have hhost : hostIndices.length = (newInputTokens.take prefetchLength).length := by rw [hlen hostIndices rfl, htokens]
    have hperm := values_set_perm (d := s.ongoingPrefetch) (k := r)
      (⟨n, newInputTokens.take prefetchLength, hostIndices, s.counter⟩ : Ongoing) hfresh.1
    refine ⟨_, live', rfl, ⟨w, fun x => ?_, hpage, fun e he => ?_, hbackups, fun m => ?_,
      h.ops.enqueue hfresh (fun ho => upd_ne _ _ (ne_of_lt ho)) (upd_same _ _ _) rfl rfl rfl rfl rfl hhost
      (by rw [htokens]; exact hdvd) rfl rfl, ?_⟩⟩
    · have h1 := hcount x
      have h2 := h.ledger x
      rw [hheld, getD_some] at h1
      refine Eq.trans (congrArg (pool.freeSlots.count x + tree.held live' x + ·) (inFlight_enqueue h.ops hfresh
        (fun ho => upd_ne _ _ (ne_of_lt ho)) (upd_same _ _ _) (by rfl) (by rfl) (by rfl) (by rfl) (by rfl) (by rfl)
        (by rfl) x)) ?_
      omega
    · rcases mem_cons.mp (hperm.mem_iff.mp he) with rfl | he
      · exact hlive n hn (.inr rfl)
      · exact hentries e he
    · have h1 := (hperm.map Ongoing.lastHostNode).count_eq m
      rw [map_cons, ← singleton_append, count_append] at h1
      have h2 := h.refs m
      rw [h1, href]
      dsimp only
      omega
    · show s.prefetchTokensOccupied + ((newInputTokens.take prefetchLength).length : Int) =
        ((s.ongoingPrefetch.set r _).values.map fun e => (e.tokenIds.length : Int)).sum
      have h1 := (hperm.map fun e => (e.tokenIds.length : Int)).sum_eq
      rw [h1, h.occupied]
      exact Int.add_comm _ _

theorem Inv.schedulerPut {page : List Nat} {pages : List (List Nat)} (hpages : s.scheduler = page :: pages) :
    Inv cfg size { s with hostMemReleaseQueue := s.hostMemReleaseQueue ++ [page], scheduler := pages } live path := by
  refine h.shift (.refl _) (fun _ => id) h.ops.cutting h.ops.buffer h.ops.io fun x => ?_
  rw [hpages, count_put, flatten_cons, count_append]
  show s.queued.count x + s.prefetchThreadHolds.count x + s.buffered.count x + s.ioThreadHolds.count x + _ + _ = _
  omega

theorem Inv.backupDone (id : Nat) : Inv cfg size { s with ackBackupQueue := s.ackBackupQueue ++ [id] } live path :=
  h.thread rfl rfl rfl rfl rfl (fun _ => rfl) h.ops_keep

end

/-! ## Runs -/

/-- What a step must not do: leave a batch that was not fetched in whole, or begin a prefetch for a request that still has one
under way; and the node that a prefetch is for is one of the tree's. -/
def Careful (cfg : StorageConfig) (s : System) : Action → Prop
  | .prefetchFromStorage r n _ _ => InTree s.tree n ∧ s.Fresh r
  | .ioThread _ => BatchWhole cfg s
  | _ => True

/-- Every step of the run is a careful one. -/
def CarefulRun (cfg : StorageConfig) : System → List Action → Prop
  | _, [] => True
  | s, a :: actions => Careful cfg s a ∧ ∀ s', s.step cfg a = .ok s' → CarefulRun cfg s' actions

theorem step_inv (hps : 0 < cfg.pageSize) (h : Inv cfg size s live path) (hcareful : Careful cfg s a) :
    ∃ s' live' path', s.step cfg a = .ok s' ∧ Inv cfg size s' live' path' := by
  -- while the scheduler has pages to put, it does nothing else
  have hwhen : ∀ {x : Except PyError System}, (s.scheduler = [] → ∃ s' live' path', x = .ok s' ∧ Inv cfg size s' live' path') →
      ∃ s' live' path', (if s.scheduler = [] then x else .ok s) = .ok s' ∧ Inv cfg size s' live' path' := by
    intro x hx
    split
    · exact hx (by assumption)
    · exact ⟨s, live, path, rfl, h⟩
  cases a with
  | prefetchFromStorage r n tokens lastHash =>
    obtain ⟨s', live', hstep, h'⟩ := h.prefetchFromStorage ((h.wf.mem_live_iff n).mpr hcareful.1) hcareful.2 tokens lastHash
    exact hwhen fun _ => ⟨s', live', path, hstep, h'⟩
  | checkPrefetchProgress r timedOut => exact hwhen fun hidle => h.checkPrefetchProgress hps hidle r timedOut
  | releaseAbortedRequest r => exact hwhen fun hidle => h.releaseAbortedRequest hps hidle r
  | drainRevokes =>
    refine hwhen fun hidle => ?_
    obtain ⟨s', hstep, h'⟩ := h.drainRevokes hidle
    exact ⟨s', live, path, hstep, h'⟩
  | drainBackupAcks =>
    obtain ⟨s', hstep, h'⟩ := h.drainBackupAcks
    exact hwhen fun _ => ⟨s', live, path, hstep, h'⟩
  | drainReleases => exact hwhen fun _ => ⟨s.drainReleases, live, path, rfl, h.drainReleases⟩
  | schedulerPut =>
    rw [step]
    cases hpages : s.scheduler with
    | nil => exact ⟨s, live, path, rfl, h⟩
    | cons page pages => exact ⟨_, live, path, rfl, h.schedulerPut hpages⟩
  | prefetchThread batchExists => exact ⟨_, live, path, rfl, h.prefetchThreadStep hps batchExists⟩
  | ioThread pageRead => exact ⟨_, live, path, rfl, h.ioThreadStep hcareful pageRead⟩
  | backupDone id => exact ⟨_, live, path, rfl, h.backupDone id⟩

theorem run_inv (hps : 0 < cfg.pageSize) (actions : List Action) : ∀ {s live path}, Inv cfg size s live path →
    CarefulRun cfg s actions → ∃ s' live' path', s.run cfg actions = .ok s' ∧ Inv cfg size s' live' path' := by
  induction actions with
  | nil => exact fun {s live path} h _ => ⟨s, live, path, rfl, h⟩
  | cons a actions ih =>
    intro s live path h hcareful
    obtain ⟨s1, live1, path1, hstep, h1⟩ := step_inv hps h hcareful.1
    obtain ⟨s', live', path', hrun, h'⟩ := ih h1 (hcareful.2 s1 hstep)
    refine ⟨s', live', path', ?_, h'⟩
    rw [run, foldlM_cons, hstep]
    exact hrun

/-- No prefetch is under way, and each slot is free or held by one node. -/
structure AtRest (cfg : StorageConfig) (size : Nat) (s : System) : Prop where
  slots : ∃ live path, s.tree.Wf cfg.pageSize live path ∧
    (∀ x, s.pool.freeSlots.count x + s.tree.held live x = (List.range size).count x) ∧
    (∀ n ∈ s.ongoingBackup.values, n ∈ live) ∧ ∀ n, s.ongoingBackup.values.count n ≤ (s.tree.node n).hostRefCounter
  page : s.pool.pageSize = cfg.pageSize
  ongoing : s.ongoingPrefetch = empty
  occupied : s.prefetchTokensOccupied = 0
  queues : s.prefetchQueue = [] ∧ s.prefetchBuffer = [] ∧ s.prefetchRevokeQueue = [] ∧ s.hostMemReleaseQueue = [] ∧
    s.scheduler = []
  threads : s.prefetchThread = .waiting ∧ s.ioThread = .waiting

/-- What the threads pass on to one another has arrived. -/
def Drained (s : System) : Prop :=
  s.prefetchQueue = [] ∧ s.prefetchBuffer = [] ∧ s.prefetchRevokeQueue = [] ∧ s.hostMemReleaseQueue = [] ∧ s.scheduler = [] ∧
    s.prefetchThread = .waiting ∧ s.ioThread = .waiting

/-- Each of the `size` slots is in one place once: among the free ones, in the host value of a node of the
    tree, or with an operation under way,
and when the queues are drained, with an ongoing prefetch. -/
structure Conserved (size : Nat) (s : System) : Prop where
  slots : ∃ nodes : Finset NodeId, (∀ n, n ∈ nodes ↔ InTree s.tree n) ∧
    (∀ x, s.pool.freeSlots.count x + s.tree.held nodes x + s.inFlight.count x = if x < size then 1 else 0) ∧
    (s.Drained → ∀ x, s.pool.freeSlots.count x + s.tree.held nodes x + s.awaited.count x = if x < size then 1 else 0)
  occupied : s.prefetchTokensOccupied = (s.ongoingPrefetch.values.map fun e => (e.tokenIds.length : Int)).sum

theorem AtRest.inv (h : AtRest cfg size s) : ∃ live path, Inv cfg size s live path := by
  obtain ⟨live, path, w, hledger, hbackups, hrefs⟩ := h.slots
  obtain ⟨hqueue, hbuffer, hrevoke, hrelease, hscheduler⟩ := h.queues
  obtain ⟨hthread, hio⟩ := h.threads
  have hvalues : s.ongoingPrefetch.values = [] := by
    rw [h.ongoing]
    rfl
  have hnone : ∀ r, s.ongoingPrefetch.get? r = none := fun r => by
    rw [h.ongoing]
    exact get?_empty r
  have hlocated : s.located = [] := by
    rw [located, hqueue, hthread, hbuffer, hio]
    rfl
  have hflight : s.inFlight = [] := by
    rw [inFlight, queued, prefetchThreadHolds, buffered, ioThreadHolds, awaited, hqueue, hthread, hbuffer, hio, hvalues,
      hrelease, hscheduler]
    rfl
  refine ⟨live, path, ⟨w, fun x => ?_, h.page, fun e he => ?_, hbackups, fun n => ?_,
    ⟨?_, ?_, fun r e he => ?_, ?_, fun o ho => ?_, fun o hits pages hc => ?_, fun o ho => ?_, ?_, fun r hr => ?_⟩, ?_⟩⟩
  · rw [hflight, count_nil]
    exact hledger x
  · rw [hvalues] at he
    cases he
  · rw [hvalues, map_nil, count_nil, zero_add]
    exact hrefs n
  · rw [hlocated]
    exact nodup_nil
  · rw [hlocated]
    exact forall_mem_nil _
  · rw [hnone] at he
    cases he
  · rw [hlocated]
    exact forall_mem_nil _
  · rcases ho with ho | ho
    · rw [hqueue] at ho
      cases ho
    · rw [hthread] at ho
      cases ho
  · rw [hthread] at hc
    cases hc
  · rw [hbuffer] at ho
    cases ho
  · rw [IoOk, hio]
    trivial
  · rw [hrevoke] at hr
    cases hr
  · rw [h.occupied, hvalues]
    rfl

theorem Inv.conserved (h : Inv cfg size s live path) : Conserved size s := by
  have hledger : ∀ x, s.pool.freeSlots.count x + s.tree.held live x + s.inFlight.count x = if x < size then 1 else 0 :=
    fun x => by
    rw [h.ledger x]
    split
    · rename_i hx
      exact count_eq_one_of_mem nodup_range (mem_range.mpr hx)
    · rename_i hx
      exact count_eq_zero.mpr fun hin => hx (mem_range.mp hin)
  refine ⟨⟨live, h.wf.mem_live_iff, hledger, fun hdrained x => ?_⟩, h.occupied⟩
  obtain ⟨hqueue, hbuffer, -, hrelease, hscheduler, hthread, hio⟩ := hdrained
  have hflight : s.inFlight = s.awaited := by
    rw [inFlight, queued, prefetchThreadHolds, buffered, ioThreadHolds, hqueue, hthread, hbuffer, hio, hrelease, hscheduler]
    simp
  rw [← hflight]
  exact hledger x

/-- The protocol conserves host memory: whatever the threads do in what order and whatever the storage
    answers, a run of careful steps goes through,
and each slot is then in one place once. -/
theorem prefetch_conserves (hps : 0 < cfg.pageSize) (hrest : AtRest cfg size s) (actions : List Action)
    (hcareful : CarefulRun cfg s actions) :
    ∃ s', s.run cfg actions = .ok s' ∧ Conserved size s' := by
  obtain ⟨live, path, h⟩ := hrest.inv
  obtain ⟨s', live', path', hrun, h'⟩ := run_inv hps actions h hcareful
  exact ⟨s', hrun, h'.conserved⟩

/-- A system with an empty tree and all slots free. -/
def start (cfg : StorageConfig) (size : Nat) : System where
  tree := HiTree.reset cfg.toConfig ⟨fun _ => {}, 0, 0⟩
  pool := ⟨List.range size, cfg.pageSize⟩
  operation := fun _ => ⟨0, [], [], none, 0, [], false⟩
  counter := 0
  ongoingPrefetch := empty
  ongoingBackup := empty
  prefetchTokensOccupied := 0
  prefetchQueue := []
  prefetchBuffer := []
  prefetchRevokeQueue := []
  ackBackupQueue := []
  hostMemReleaseQueue := []
  scheduler := []
  prefetchThread := .waiting
  ioThread := .waiting

theorem start_atRest (cfg : StorageConfig) (size : Nat) : AtRest cfg size (start cfg size) where
  slots := by
    refine ⟨{0}, fun _ => [], wf_reset _ _, fun x => ?_, fun n hn => ?_, fun n => Nat.zero_le _⟩
    · have hroot : (((start cfg size).tree.node 0).hostValue.getD []).count x = 0 := rfl
      rw [held, Finset.sum_singleton, hroot]
      rfl
    · cases hn
  page := rfl
  ongoing := rfl
  occupied := rfl
  queues := ⟨rfl, rfl, rfl, rfl, rfl⟩
  threads := ⟨rfl, rfl⟩

theorem CarefulRun.cons {actions : List Action} (hcareful : Careful cfg s a) (hstep : s.step cfg a = .ok s')
    (h : CarefulRun cfg s' actions) : CarefulRun cfg s (a :: actions) := by
  refine ⟨hcareful, fun t ht => ?_⟩
  rw [hstep] at ht
  obtain rfl := Except.ok.inj ht
  exact h

/-- Pages of one slot, and a request of two tokens is long enough. -/
def smallConfig : StorageConfig where
  pageSize := 1
  monotonic := fun n => n
  hash := fun _ => 0
  prefetchThreshold := 1
  prefetchCapacityLimit := 10
  getHashStr := fun _ _ => "page"

/-- Both pages exist; the storage reads those that `pageRead` says. -/
def fetchTwo (pageRead : Nat → Bool) : List Action :=
  [.prefetchFromStorage 0 0 [.id 5, .id 6] none] ++ List.replicate 3 (.prefetchThread fun _ => 2) ++
    List.replicate 9 (.ioThread pageRead) ++
    [.checkPrefetchProgress 0 false]

theorem prefetch_conserves_fetchTwo : ∃ s', (start smallConfig 2).run smallConfig (fetchTwo fun _ => true) = .ok s' ∧
    Conserved 2 s' := by
  refine prefetch_conserves (by decide) (start_atRest smallConfig 2) _ ?_
  refine .cons ⟨InTree.root, rfl, not_mem_nil, fun o ho => by rcases ho with ho | ho <;> cases ho⟩ rfl ?_
  refine .cons trivial rfl (.cons trivial rfl (.cons trivial rfl ?_))
  refine .cons nofun rfl ?_
  refine .cons nofun rfl ?_
  refine .cons nofun rfl ?_
  refine .cons nofun rfl ?_
  refine .cons nofun rfl ?_
  refine .cons (fun o i prev h => by cases h; decide) rfl ?_
  refine .cons nofun rfl ?_
  refine .cons nofun rfl ?_
  refine .cons nofun rfl ?_
  exact .cons trivial rfl trivial

/-- The second page is not read: its slot is freed twice. -/
theorem unread_page_freed_twice : AtRest smallConfig 2 (start smallConfig 2) ∧
    ∃ s', (start smallConfig 2).run smallConfig (fetchTwo (· < 1) ++ [.drainReleases]) = .ok s' ∧ s'.Drained ∧
    s'.pool.freeSlots = [1, 1] ∧
      ¬ Conserved 2 s' := by
  refine ⟨start_atRest smallConfig 2, _, rfl, ⟨rfl, rfl, rfl, rfl, rfl, rfl, rfl⟩, rfl, fun h => ?_⟩
  obtain ⟨nodes, -, hslots, -⟩ := h.slots
  have hone := hslots 1
  have hfree : 2 ≤ 1 := le_trans (le_trans (Nat.le_add_right _ _) (Nat.le_add_right _ _)) hone.le
  exact absurd hfree (by decide)

/-- A request is scheduled without its first prefetch, retracted, and begins a second one; the storage has
    nothing for the first. -/
def prefetchAgain : List Action :=
  [.prefetchFromStorage 0 0 [.id 5, .id 6] none, .checkPrefetchProgress 0 false, .prefetchFromStorage 0 0 [.id 7, .id 8] none] ++
    List.replicate 2 (.prefetchThread fun _ => 0) ++ [.drainRevokes] ++ List.replicate 6 (.prefetchThread fun _ => 2) ++
    List.replicate 9 (.ioThread fun _ => true) ++ [.checkPrefetchProgress 0 false, .drainReleases]

/-- The revoke of the first prefetch drops the entry of the second, whose slots are lost. -/
theorem revoke_drops_second_prefetch : ∃ s', (start smallConfig 4).run smallConfig prefetchAgain = .ok s' ∧ s'.Drained ∧
    s'.ongoingPrefetch.items = [] ∧ s'.pool.freeSlots = [0, 1] ∧ ∀ n, (s'.tree.node n).hostValue.getD [] = [] := by
  refine ⟨_, rfl, ⟨rfl, rfl, rfl, rfl, rfl, rfl, rfl⟩, rfl, rfl, fun n => ?_⟩
  cases n with
  | zero => rfl
  | succ n => rfl

end System

end DynaSpec.MemCache.HiRadix
