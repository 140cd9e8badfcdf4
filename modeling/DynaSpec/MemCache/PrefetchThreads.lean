/-
  DynaSpec.MemCache.PrefetchThreads — who has the host memory of a prefetch, while the prefetch
  thread and the I/O thread take their steps.

  A slot is free, or held by a node of the tree, or with an operation under way (`inFlight`):
  not yet asked for or fetched, fetched and not yet inserted, or on its way to be released
  (`Inv`). A step of the prefetch thread hands slots from one of these places to the next
  (`Inv.prefetchThreadStep`), and so does a step of the I/O thread when the batch it leaves was
  fetched in whole (`Inv.ioThreadStep`).
-/

import DynaSpec.MemCache.HiRadixShape
import DynaSpec.MemCache.Prefetch

namespace DynaSpec.MemCache.HiRadix

open DynaSpec.Lib List Nat PrefetchThread

variable {pageSize n : Nat}

/-! ## Pages and hits -/

theorem flatten_splitPages (hps : 0 < pageSize) (turns : Nat) (l : List Nat) (hl : l.length ≤ turns) :
    (splitPages pageSize turns l).flatten = l := by
  induction turns generalizing l with
  | zero =>
    rw [length_eq_zero_iff.mp (Nat.le_zero.mp hl)]
    rfl
  | succ turns ih =>
    rw [splitPages]
    split
    · rename_i hnil
      rw [hnil]
      rfl
    rename_i hne
    rw [flatten_cons, ih _ (by rw [length_drop]; omega), take_append_drop]

theorem flatten_releasePages (hps : 0 < pageSize) (l : List Nat) : (releasePages pageSize l).flatten = l :=
  flatten_splitPages hps _ l (le_refl _)

namespace System

theorem pageHashes_length (cfg : StorageConfig) (hps : 0 < cfg.pageSize) (turns : Nat) (tokens : List Token)
    (lastHash : Option Hash) (hle : tokens.length ≤ turns) (hdvd : cfg.pageSize ∣ tokens.length) :
    (pageHashes cfg turns tokens lastHash).length * cfg.pageSize = tokens.length := by
  induction turns generalizing tokens lastHash with
  | zero =>
    rw [Nat.le_zero.mp hle, pageHashes]
    exact zero_mul _
  | succ turns ih =>
    rw [pageHashes]
    split
    · rename_i hnil
      rw [hnil]
      exact zero_mul _
    rename_i hne
    have hpos := length_pos_iff.mpr hne
    have hpage := le_of_dvd hpos hdvd
    have hrest := ih (tokens.drop cfg.pageSize) (some (cfg.getHashStr (tokens.take cfg.pageSize) lastHash))
      (by rw [length_drop]; omega) (by rw [length_drop]; exact dvd_sub hdvd (dvd_refl _))
    rw [length_drop] at hrest
    rw [length_cons, succ_mul, hrest]
    omega

/-- The hits are whole pages from the start. -/
theorem storageHitQuery_spec (cfg : StorageConfig) (hps : 0 < cfg.pageSize) (batchExists : List Hash → Nat)
    (turns : Nat) (tokens : List Token) (lastHash : Option Hash) (hdvd : cfg.pageSize ∣ tokens.length) :
    (storageHitQuery cfg batchExists turns tokens lastHash).1.length * cfg.pageSize =
      (storageHitQuery cfg batchExists turns tokens lastHash).2 ∧
    (storageHitQuery cfg batchExists turns tokens lastHash).2 ≤ tokens.length := by
  induction turns generalizing tokens lastHash with
  | zero => exact ⟨zero_mul _, zero_le _⟩
  | succ turns ih =>
    rw [storageHitQuery]
    split
    · exact ⟨zero_mul _, zero_le _⟩
    have hbdvd : cfg.pageSize ∣ (tokens.take (cfg.pageSize * storageBatchSize)).length := by
      rw [length_take]
      rcases le_total (cfg.pageSize * storageBatchSize) tokens.length with h | h
      · rw [min_eq_left h]
        exact dvd_mul_right _ _
      · rwa [min_eq_right h]
    have hlen := pageHashes_length cfg hps _ (tokens.take (cfg.pageSize * storageBatchSize)) lastHash (le_refl _) hbdvd
    dsimp only
    generalize pageHashes cfg _ (tokens.take (cfg.pageSize * storageBatchSize)) lastHash = batchHashes at hlen ⊢
    rw [length_take] at hlen
    have hhit : min (batchExists batchHashes) batchHashes.length ≤ batchHashes.length := min_le_right _ _
    have hhitLen : (batchHashes.take (min (batchExists batchHashes) batchHashes.length)).length =
        min (batchExists batchHashes) batchHashes.length := by
      rw [length_take, min_eq_left hhit]
    have hmul := mul_le_mul_right cfg.pageSize hhit
    split
    · rw [append_nil, hhitLen]
      exact ⟨rfl, by omega⟩
    obtain ⟨h1, h2⟩ := ih (tokens.drop (cfg.pageSize * storageBatchSize)) (batchHashes.getLast?.or lastHash) (by
      rw [length_drop]
      exact dvd_sub hdvd (dvd_mul_right _ _))
    rw [length_append, hhitLen, add_mul, h1]
    refine ⟨rfl, ?_⟩
    rw [length_drop] at h2
    omega

/-! ## Where the slots are -/

variable (s : System)

def prefetchThreadHolds : List Nat :=
  match s.prefetchThread with
  | .waiting => []
  | .querying o => (s.operation o).hostIndices
  | .revoking pages => pages.flatten
  | .cutting o storageHitCount pages => pages.flatten ++ (s.operation o).hostIndices.take storageHitCount

def ioThreadHolds : List Nat :=
  match s.ioThread with
  | .waiting => []
  | .batch o _ => s.unfetched o
  | .fetching o _ _ _ => s.unfetched o
  | .checking o _ _ => s.unfetched o
  | .releasing _ _ pages => pages.flatten

/-- What has been fetched for a request that still waits for it. -/
def fetched (e : Ongoing) : List Nat := e.hostIndices.take (s.operation e.operation).completedTokens

def queued : List Nat := s.prefetchQueue.flatMap fun o => (s.operation o).hostIndices

def buffered : List Nat := s.prefetchBuffer.flatMap s.unfetched

def awaited : List Nat := s.ongoingPrefetch.values.flatMap s.fetched

/-- The slots that an operation under way has. -/
def inFlight : List Nat :=
  s.queued ++ s.prefetchThreadHolds ++ s.buffered ++ s.ioThreadHolds ++ s.awaited ++ s.hostMemReleaseQueue.flatten ++
    s.scheduler.flatten

theorem count_inFlight (x : Nat) : s.inFlight.count x = s.queued.count x + s.prefetchThreadHolds.count x + s.buffered.count x +
    s.ioThreadHolds.count x + s.awaited.count x + s.hostMemReleaseQueue.flatten.count x + s.scheduler.flatten.count x := by
  simp only [inFlight, count_append]

end System

def PrefetchThread.operations : PrefetchThread → List OpId
  | .querying o => [o]
  | .cutting o _ _ => [o]
  | _ => []

def IoThread.operations : IoThread → List OpId
  | .batch o _ => [o]
  | .fetching o _ _ _ => [o]
  | .checking o _ _ => [o]
  | .releasing o _ _ => [o]
  | .waiting => []

namespace System

/-- The operations that the other two threads will still look at. -/
def located (s : System) : List OpId :=
  s.prefetchQueue ++ s.prefetchThread.operations ++ s.prefetchBuffer ++ s.ioThread.operations

/-- An operation that may still be revoked. -/
def Undecided (s : System) (o : OpId) : Prop := o ∈ s.prefetchQueue ∨ s.prefetchThread = .querying o

/-! ## The invariant -/

structure EntryOk (cfg : StorageConfig) (s : System) (r : ReqId) (e : Ongoing) : Prop where
  lt : e.operation < s.counter
  requestId : (s.operation e.operation).requestId = r
  tokens : e.tokenIds.length = e.hostIndices.length
  front : (s.operation e.operation).hostIndices <+: e.hostIndices
  le : (s.operation e.operation).completedTokens ≤ (s.operation e.operation).hostIndices.length
  dvd : cfg.pageSize ∣ (s.operation e.operation).completedTokens

/-- The pages that were hit are the operation's memory. -/
def Cut (cfg : StorageConfig) (op : PrefetchOperation) : Prop := op.hashValue.length * cfg.pageSize = op.hostIndices.length

def IoOk (cfg : StorageConfig) (s : System) : Prop :=
  match s.ioThread with
  | .waiting => True
  | .batch o i =>
    Cut cfg (s.operation o) ∧ (s.operation o).completedTokens = min i (s.operation o).hashValue.length * cfg.pageSize
  | .fetching o i j prev => Cut cfg (s.operation o) ∧ i < (s.operation o).hashValue.length ∧ prev = i * cfg.pageSize ∧
      j ≤ batchLen (s.operation o) i ∧ (cfg.zeroCopy = true → j = 0) ∧ (s.operation o).completedTokens = (i + j) * cfg.pageSize
  | .checking o i prev => Cut cfg (s.operation o) ∧ i < (s.operation o).hashValue.length ∧ prev = i * cfg.pageSize
  | .releasing o _ pages => pages = [] ∧ s.unfetched o = []

structure Ops (cfg : StorageConfig) (s : System) : Prop where
  nodup : s.located.Nodup
  lt : ∀ o ∈ s.located, o < s.counter
  entry : ∀ r e, s.ongoingPrefetch.get? r = some e → EntryOk cfg s r e
  owned : ∀ o ∈ s.located, (s.operation o).terminatedFlag = false → ∃ r e, s.ongoingPrefetch.get? r = some e ∧ e.operation = o
  undecided : ∀ o, s.Undecided o → (s.operation o).completedTokens = 0 ∧
    (s.operation o).hostIndices.length = (s.operation o).tokenIds.length ∧
    cfg.pageSize ∣ (s.operation o).tokenIds.length ∧ ∀ e, s.ongoingPrefetch.get? (s.operation o).requestId = some e →
    e.operation = o
  cutting : ∀ o hits pages, s.prefetchThread = .cutting o hits pages → (s.operation o).completedTokens = 0 ∧
    (s.operation o).hashValue.length * cfg.pageSize = hits ∧ hits ≤ (s.operation o).hostIndices.length
  buffer : ∀ o ∈ s.prefetchBuffer, (s.operation o).completedTokens = 0 ∧ Cut cfg (s.operation o)
  io : IoOk cfg s
  revoked : ∀ r ∈ s.prefetchRevokeQueue, ∀ e, s.ongoingPrefetch.get? r = some e →
    e.operation ∉ s.located ∧ (s.operation e.operation).completedTokens = 0

structure Inv (cfg : StorageConfig) (size : Nat) (s : System) (live : Finset NodeId) (path : NodeId → List ChildKey) : Prop where
  wf : s.tree.Wf cfg.pageSize live path
  ledger : ∀ x, s.pool.freeSlots.count x + s.tree.held live x + s.inFlight.count x = (List.range size).count x
  page : s.pool.pageSize = cfg.pageSize
  nodes : ∀ e ∈ s.ongoingPrefetch.values, e.lastHostNode ∈ live
  backups : ∀ n ∈ s.ongoingBackup.values, n ∈ live
  refs : ∀ n, (s.ongoingPrefetch.values.map Ongoing.lastHostNode).count n + s.ongoingBackup.values.count n ≤
    (s.tree.node n).hostRefCounter
  ops : Ops cfg s
  occupied : s.prefetchTokensOccupied = ((s.ongoingPrefetch.values.map fun e => (e.tokenIds.length : Int)).sum)

variable {cfg : StorageConfig} {size : Nat} {s s' : System} {live : Finset NodeId} {path : NodeId → List ChildKey}

/-- A step of one of the other two threads. -/
theorem Inv.thread (h : Inv cfg size s live path) (htree : s'.tree = s.tree) (hpool : s'.pool = s.pool)
    (hongoing : s'.ongoingPrefetch = s.ongoingPrefetch) (hbackup : s'.ongoingBackup = s.ongoingBackup)
    (hoccupied : s'.prefetchTokensOccupied = s.prefetchTokensOccupied) (hflight : ∀ x, s'.inFlight.count x = s.inFlight.count x)
    (hops : Ops cfg s') : Inv cfg size s' live path := by
  obtain ⟨⟩ := s'
  subst htree hpool hongoing hbackup hoccupied
  exact ⟨h.wf, fun x => (congrArg _ (hflight x)).trans (h.ledger x), h.page, h.nodes, h.backups, h.refs, hops, h.occupied⟩

/-- The I/O thread only looks at its own operation. -/
theorem IoOk.congr (hio : IoOk cfg s) (hthread : s'.ioThread = s.ioThread)
    (hop : ∀ o ∈ s.ioThread.operations, (s'.operation o).hostIndices = (s.operation o).hostIndices ∧
      (s'.operation o).completedTokens = (s.operation o).completedTokens ∧ (s'.operation o).hashValue =
      (s.operation o).hashValue) :
    IoOk cfg s' := by
  unfold IoOk at hio ⊢
  rw [hthread]
  cases h : s.ioThread with
  | waiting => trivial
  | batch o | fetching o | checking o | releasing o =>
    obtain ⟨h1, h2, h3⟩ := hop o (by rw [h]; exact mem_singleton_self o)
    rw [h] at hio
    simpa only [Cut, batchLen, unfetched, h1, h2, h3] using hio

/-- The I/O thread holds what its own operation has not fetched. -/
theorem ioThreadHolds_congr (hthread : s'.ioThread = s.ioThread)
    (hop : ∀ o ∈ s.ioThread.operations, s'.operation o = s.operation o) :
    s'.ioThreadHolds = s.ioThreadHolds := by
  unfold ioThreadHolds unfetched
  rw [hthread]
  cases h : s.ioThread with
  | waiting => rfl
  | releasing o second pages => rfl
  | batch o | fetching o | checking o =>
    dsimp only
    rw [hop o (by rw [h]; exact mem_singleton_self o)]

/-- Two entries do not have the same operation. -/
theorem Ops.entry_inj (h : Ops cfg s) {r r' : ReqId} {e e' : Ongoing} (hr : s.ongoingPrefetch.get? r = some e)
    (hr' : s.ongoingPrefetch.get? r' = some e') (heq : e.operation = e'.operation) : r = r' := by
  rw [← (h.entry r e hr).requestId, ← (h.entry r' e' hr').requestId, heq]

/-- What the other threads may do to an operation: cut its memory, count more of it as fetched, terminate it. -/
structure Advances (cfg : StorageConfig) (s s' : System) : Prop where
  counter : s'.counter = s.counter
  ongoing : s'.ongoingPrefetch = s.ongoingPrefetch
  requestId : ∀ o, (s'.operation o).requestId = (s.operation o).requestId
  front : ∀ o, (s'.operation o).hostIndices <+: (s.operation o).hostIndices
  fetched : ∀ r e, s.ongoingPrefetch.get? r = some e →
    (s'.operation e.operation).completedTokens ≤ (s'.operation e.operation).hostIndices.length ∧
      cfg.pageSize ∣ (s'.operation e.operation).completedTokens
  terminated : ∀ o, (s'.operation o).terminatedFlag = false → (s.operation o).terminatedFlag = false

theorem Ops.advances (h : Ops cfg s) (hop : s'.operation = s.operation) (hcounter : s'.counter = s.counter)
    (hongoing : s'.ongoingPrefetch = s.ongoingPrefetch) : Advances cfg s s' where
  counter := hcounter
  ongoing := hongoing
  requestId o := by rw [hop]
  front o := by rw [hop]
  fetched r e he := by
    rw [hop]
    exact ⟨(h.entry r e he).le, (h.entry r e he).dvd⟩
  terminated o := by
    rw [hop]
    exact id

theorem Ops.next (h : Ops cfg s) (hadv : Advances cfg s s') (hsub : s'.located.Subperm s.located)
    (hundecided : ∀ o, s'.Undecided o → s.Undecided o ∧ (s'.operation o).completedTokens = (s.operation o).completedTokens ∧
      (s'.operation o).hostIndices = (s.operation o).hostIndices ∧ (s'.operation o).tokenIds = (s.operation o).tokenIds)
    (hcutting : ∀ o hits pages, s'.prefetchThread = .cutting o hits pages → (s'.operation o).completedTokens = 0 ∧
      (s'.operation o).hashValue.length * cfg.pageSize = hits ∧ hits ≤ (s'.operation o).hostIndices.length)
    (hbuffer : ∀ o ∈ s'.prefetchBuffer, (s'.operation o).completedTokens = 0 ∧ Cut cfg (s'.operation o)) (hio : IoOk cfg s')
    (hrevoked : ∀ r ∈ s'.prefetchRevokeQueue, ∀ e, s.ongoingPrefetch.get? r = some e →
      e.operation ∉ s'.located ∧ (s'.operation e.operation).completedTokens = 0) : Ops cfg s' where
  nodup := by
    obtain ⟨l, hl, hsl⟩ := hsub
    exact hl.nodup_iff.mp (h.nodup.sublist hsl)
  lt o ho := by
    rw [hadv.counter]
    exact h.lt o (hsub.subset ho)
  entry r e he := by
    rw [hadv.ongoing] at he
    have hentry := h.entry r e he
    exact ⟨by rw [hadv.counter]; exact hentry.lt, (hadv.requestId _).trans hentry.requestId, hentry.tokens,
      (hadv.front _).trans hentry.front, (hadv.fetched r e he).1, (hadv.fetched r e he).2⟩
  owned o ho hf := by
    rw [hadv.ongoing]
    exact h.owned o (hsub.subset ho) (hadv.terminated o hf)
  undecided o ho := by
    obtain ⟨hold, hdone, hhost, htokens⟩ := hundecided o ho
    rw [hdone, hhost, htokens, hadv.requestId, hadv.ongoing]
    exact h.undecided o hold
  cutting := hcutting
  buffer := hbuffer
  io := hio
  revoked r hr e he := by
    rw [hadv.ongoing] at he
    exact hrevoked r hr e he

/-- The operations that are looked at are the same. -/
theorem Ops.revoked_of_sub (h : Ops cfg s) (hop : s'.operation = s.operation)
    (hqueue : s'.prefetchRevokeQueue = s.prefetchRevokeQueue)
    (hsub : s'.located.Subperm s.located) : ∀ r ∈ s'.prefetchRevokeQueue, ∀ e, s.ongoingPrefetch.get? r = some e →
      e.operation ∉ s'.located ∧ (s'.operation e.operation).completedTokens = 0 := by
  intro r hr e he
  rw [hqueue] at hr
  rw [hop]
  obtain ⟨h1, h2⟩ := h.revoked r hr e he
  exact ⟨fun hmem => h1 (hsub.subset hmem), h2⟩

/-! ## Changes of an operation -/

theorem operation_same (s : System) (o : OpId) (f : PrefetchOperation → PrefetchOperation) :
    (s.updOperation o f).operation o = f (s.operation o) :=
  upd_same _ _ _

theorem operation_ne (s : System) {o o' : OpId} (f : PrefetchOperation → PrefetchOperation) (h : o' ≠ o) :
    (s.updOperation o f).operation o' = s.operation o' :=
  upd_ne _ _ h

/-- The hashes of an operation are set, or it is terminated. -/
structure Marks (f : PrefetchOperation → PrefetchOperation) (op : PrefetchOperation) : Prop where
  requestId : (f op).requestId = op.requestId
  hostIndices : (f op).hostIndices = op.hostIndices
  tokenIds : (f op).tokenIds = op.tokenIds
  completedTokens : (f op).completedTokens = op.completedTokens
  terminated : (f op).terminatedFlag = false → op.terminatedFlag = false

variable {o : OpId} {u : IoThread}

section
variable (h : Inv cfg size s live path)
include h

theorem Inv.mark {f : PrefetchOperation → PrefetchOperation} (hf : Marks f (s.operation o))
    (hhash : (f (s.operation o)).hashValue = (s.operation o).hashValue ∨ s.prefetchThread = .querying o) :
    Inv cfg size (s.updOperation o f) live path := by
  set s' := s.updOperation o f
  have hfields : ∀ o', (s'.operation o').requestId = (s.operation o').requestId ∧
      (s'.operation o').hostIndices = (s.operation o').hostIndices ∧
      (s'.operation o').tokenIds = (s.operation o').tokenIds ∧
      (s'.operation o').completedTokens = (s.operation o').completedTokens ∧
      ((s'.operation o').terminatedFlag = false → (s.operation o').terminatedFlag = false) := by
    intro o'
    by_cases ho : o' = o
    · rw [ho, operation_same]
      exact ⟨hf.requestId, hf.hostIndices, hf.tokenIds, hf.completedTokens, hf.terminated⟩
    · rw [operation_ne _ _ ho]
      exact ⟨rfl, rfl, rfl, rfl, id⟩
  -- where the hashes matter they are the same
  have hhashes : ∀ o', o' ∈ s.prefetchBuffer ++ s.ioThread.operations ∨
    (∃ hits pages, s.prefetchThread = .cutting o' hits pages) →
      (s'.operation o').hashValue = (s.operation o').hashValue := by
    intro o' ho'
    by_cases ho : o' = o
    · subst ho
      rw [operation_same]
      refine hhash.resolve_right fun hq => ?_
      rcases ho' with ho' | ⟨hits, pages, hc⟩
      · have hnodup := h.ops.nodup
        simp only [located, hq, operations, append_assoc] at hnodup
        exact (nodup_cons.mp (nodup_append.mp hnodup).2.1).1 ho'
      · rw [hq] at hc
        cases hc
    · rw [operation_ne _ _ ho]
  have hunfetched : ∀ o', s'.unfetched o' = s.unfetched o' := by
    intro o'
    simp [unfetched, (hfields o').2.1, (hfields o').2.2.2.1]
  have hflight : s'.inFlight = s.inFlight := by
    have h1 : s'.queued = s.queued := flatMap_congr fun o' _ => (hfields o').2.1
    have h2 : s'.prefetchThreadHolds = s.prefetchThreadHolds := by
      simp only [prefetchThreadHolds, (hfields _).2.1]
      rfl
    have h3 : s'.buffered = s.buffered := flatMap_congr fun o' _ => hunfetched o'
    have h4 : s'.ioThreadHolds = s.ioThreadHolds := by
      simp only [ioThreadHolds, hunfetched]
      rfl
    have h5 : s'.awaited = s.awaited := flatMap_congr fun e _ => by simp [fetched, (hfields _).2.2.2.1]
    rw [inFlight, h1, h2, h3, h4, h5]
    rfl
  have hadv : Advances cfg s s' := by
    refine ⟨rfl, rfl, fun o' => (hfields o').1, fun o' => ?_, fun r e he => ?_, fun o' => (hfields o').2.2.2.2⟩
    · rw [(hfields o').2.1]
    · rw [(hfields _).2.1, (hfields _).2.2.2.1]
      exact ⟨(h.ops.entry r e he).le, (h.ops.entry r e he).dvd⟩
  refine h.thread rfl rfl rfl rfl rfl (fun x => by rw [hflight]) (h.ops.next hadv (.refl _)
    (fun o' ho' => ⟨ho', (hfields o').2.2.2.1, (hfields o').2.1, (hfields o').2.2.1⟩) (fun o' hits pages hc => ?_)
    (fun o' ho' => ?_) ?_
    (fun r hr e he => ?_))
  · rw [(hfields o').2.1, (hfields o').2.2.2.1, hhashes o' (.inr ⟨hits, pages, hc⟩)]
    exact h.ops.cutting o' hits pages hc
  · rw [Cut, (hfields o').2.1, (hfields o').2.2.2.1, hhashes o' (.inl (mem_append_left _ ho'))]
    exact h.ops.buffer o' ho'
  · exact h.ops.io.congr rfl fun o' ho' =>
      ⟨(hfields o').2.1, (hfields o').2.2.2.1, hhashes o' (.inl (mem_append_right _ ho'))⟩
  · rw [(hfields _).2.2.2.1]
    exact h.ops.revoked r hr e he

/-! ## The prefetch thread -/

/-- The threads hand slots and operations on, and the operations stay as they are. -/
theorem Inv.shift {queue buffer : List OpId} {release pages : List (List Nat)} {t : PrefetchThread}
    (hsub : (queue ++ t.operations ++ buffer ++ u.operations).Subperm s.located) (hquery : ∀ o, o ∈ queue ∨
    t = .querying o → s.Undecided o)
    (hcutting : ∀ o hits l, t = .cutting o hits l → (s.operation o).completedTokens = 0 ∧
      (s.operation o).hashValue.length * cfg.pageSize = hits ∧ hits ≤ (s.operation o).hostIndices.length)
    (hbuffer : ∀ o ∈ buffer, (s.operation o).completedTokens = 0 ∧ Cut cfg (s.operation o))
      (hio : IoOk cfg { s with ioThread := u })
    (hflight : ∀ x, (queue.flatMap fun o => (s.operation o).hostIndices).count x +
      ({ s with prefetchThread := t } : System).prefetchThreadHolds.count x + (buffer.flatMap s.unfetched).count x +
      ({ s with ioThread := u } : System).ioThreadHolds.count x + release.flatten.count x + pages.flatten.count x =
      s.queued.count x +
      s.prefetchThreadHolds.count x + s.buffered.count x + s.ioThreadHolds.count x + s.hostMemReleaseQueue.flatten.count x +
      s.scheduler.flatten.count x) :
    Inv cfg size { s with
      prefetchQueue := queue
      prefetchThread := t
      prefetchBuffer := buffer
      ioThread := u
      hostMemReleaseQueue := release
      scheduler := pages } live path := by
  refine h.thread rfl rfl rfl rfl rfl (fun x => ?_) (h.ops.next (h.ops.advances rfl rfl rfl) hsub
    (fun o' ho' => ⟨hquery o' ho', rfl, rfl, rfl⟩) hcutting hbuffer hio (h.ops.revoked_of_sub rfl rfl hsub))
  have := hflight x
  rw [count_inFlight, count_inFlight]
  show (queue.flatMap fun o => (s.operation o).hostIndices).count x +
    ({ s with prefetchThread := t } : System).prefetchThreadHolds.count x + (buffer.flatMap s.unfetched).count x +
    ({ s with ioThread := u } : System).ioThreadHolds.count x + s.awaited.count x + release.flatten.count x +
    pages.flatten.count x = _
  omega

/-- The first operation of the queue is taken. -/
theorem Inv.take {queue : List OpId} (hthread : s.prefetchThread = .waiting) (hqueue : s.prefetchQueue = o :: queue) :
    Inv cfg size { s with prefetchQueue := queue, prefetchThread := .querying o } live path := by
  refine h.shift (List.Perm.subperm ?_) (fun o' ho' => .inl ?_) nofun h.ops.buffer h.ops.io fun x => ?_
  · simp only [located, hthread, hqueue, operations, append_nil, append_assoc]
    exact perm_middle
  · rw [hqueue]
    rcases ho' with ho' | ho'
    · exact mem_cons_of_mem _ ho'
    · obtain rfl := PrefetchThread.querying.inj ho'
      exact mem_cons_self
  · simp only [queued, prefetchThreadHolds, hthread, hqueue, flatMap_cons, count_append, count_nil]
    show _ + (s.operation o).hostIndices.count x + s.buffered.count x + s.ioThreadHolds.count x + _ + _ = _
    omega

/-- The prefetch thread goes on with the same operation. -/
theorem Inv.prefetchShift {release : List (List Nat)} {t : PrefetchThread} (ht : t.operations = s.prefetchThread.operations)
    (hquery : ∀ o, t ≠ .querying o) (hcutting : ∀ o hits l, t = .cutting o hits l → (s.operation o).completedTokens = 0 ∧
      (s.operation o).hashValue.length * cfg.pageSize = hits ∧ hits ≤ (s.operation o).hostIndices.length)
    (hflight : ∀ x, ({ s with prefetchThread := t } : System).prefetchThreadHolds.count x + release.flatten.count x =
      s.prefetchThreadHolds.count x + s.hostMemReleaseQueue.flatten.count x) :
    Inv cfg size { s with prefetchThread := t, hostMemReleaseQueue := release } live path := by
  refine h.shift (by rw [ht]; rfl) (fun o ho => .inl (ho.resolve_right (hquery o))) hcutting h.ops.buffer h.ops.io fun x => ?_
  have := hflight x
  show s.queued.count x + _ + s.buffered.count x + s.ioThreadHolds.count x + _ + _ = _
  omega

end

/-- A page goes into the release queue, from where the thread has it. -/
theorem count_put (l : List (List Nat)) (page : List Nat) (x : Nat) :
    (l ++ [page]).flatten.count x = l.flatten.count x + page.count x := by
  rw [flatten_append, count_append, flatten_singleton]

section
variable (h : Inv cfg size s live path)
include h

/-- The operation is revoked, and out of the sight of the other threads. -/
theorem Inv.revoke (hps : 0 < cfg.pageSize) (hthread : s.prefetchThread = .querying o) :
    Inv cfg size { s with
      prefetchRevokeQueue := s.prefetchRevokeQueue ++ [(s.operation o).requestId]
      prefetchThread := .revoking (releasePages cfg.pageSize (s.operation o).hostIndices) } live path := by
  obtain ⟨hdone, -, -, hfirst⟩ := h.ops.undecided o (.inr hthread)
  have hholds : s.prefetchThreadHolds = (s.operation o).hostIndices := by rw [prefetchThreadHolds, hthread]
  have hloc : ({ s with
      prefetchRevokeQueue := s.prefetchRevokeQueue ++ [(s.operation o).requestId]
      prefetchThread := .revoking (releasePages cfg.pageSize (s.operation o).hostIndices) } : System).located =
      s.prefetchQueue ++ s.prefetchBuffer ++ s.ioThread.operations := by
    simp [located, operations]
  have hperm : (o :: (s.prefetchQueue ++ s.prefetchBuffer ++ s.ioThread.operations)).Perm s.located := by
    simp only [located, hthread, operations, append_assoc]
    exact perm_middle.symm
  have hfresh := (nodup_cons.mp (hperm.nodup_iff.mpr h.ops.nodup)).1
  have hsub := (sublist_cons_self o _).subperm.trans hperm.subperm
  refine h.thread rfl rfl rfl rfl rfl (fun x => ?_) (h.ops.next (h.ops.advances rfl rfl rfl) (by rw [hloc]; exact hsub)
    (fun o' ho' => ⟨.inl (ho'.resolve_right nofun), rfl, rfl, rfl⟩) nofun h.ops.buffer h.ops.io (fun r hr e he => ?_))
  · rw [count_inFlight, count_inFlight, hholds]
    show s.queued.count x + (releasePages cfg.pageSize (s.operation o).hostIndices).flatten.count x + s.buffered.count x +
      s.ioThreadHolds.count x + s.awaited.count x + s.hostMemReleaseQueue.flatten.count x + s.scheduler.flatten.count x = _
    rw [flatten_releasePages hps]
  · rw [hloc]
    rcases mem_append.mp hr with hr | hr
    · obtain ⟨h1, h2⟩ := h.ops.revoked r hr e he
      exact ⟨fun hmem' => h1 (hsub.subset hmem'), h2⟩
    rw [mem_singleton.mp hr] at he
    rw [hfirst e he]
    exact ⟨hfresh, hdone⟩

/-- The pages that are not hit are to be released. -/
theorem Inv.startCut (hps : 0 < cfg.pageSize) (hits : Nat) (hthread : s.prefetchThread = .querying o)
    (hhash : (s.operation o).hashValue.length * cfg.pageSize = hits) (hle : hits ≤ (s.operation o).hostIndices.length) :
    Inv cfg size
    { s with prefetchThread := .cutting o hits (releasePages cfg.pageSize ((s.operation o).hostIndices.drop hits)) } live
    path := by
  refine h.prefetchShift (by rw [hthread]; rfl) nofun (fun o' hits' pages hc => ?_) fun x => ?_
  · obtain ⟨rfl, rfl, -⟩ := PrefetchThread.cutting.inj hc
    exact ⟨(h.ops.undecided o (.inr hthread)).1, hhash, hle⟩
  · have hparts := congrArg (count x) (take_append_drop hits (s.operation o).hostIndices)
    rw [count_append] at hparts
    simp only [prefetchThreadHolds, hthread, flatten_releasePages hps, count_append]
    omega

/-- The operation is cut to its hits and handed to the I/O thread. -/
theorem Inv.endCut {hits : Nat} (hthread : s.prefetchThread = .cutting o hits []) :
    Inv cfg size { s.updOperation o fun op => { op with hostIndices := op.hostIndices.take hits } with
                   prefetchBuffer := s.prefetchBuffer ++ [o], prefetchThread := .waiting } live path := by
  obtain ⟨hdone, hhash, hle⟩ := h.ops.cutting o hits [] hthread
  set s' : System := { s.updOperation o fun op => { op with hostIndices := op.hostIndices.take hits } with
                       prefetchBuffer := s.prefetchBuffer ++ [o], prefetchThread := .waiting } with hs'
  have hperm : s'.located.Perm s.located := by
    simp only [hs', located, hthread, operations, updOperation, append_nil, append_assoc]
    exact List.Perm.append_left _ perm_middle
  -- the operation is in no other place
  have hnodup : (o :: (s.prefetchQueue ++ s.prefetchBuffer ++ s.ioThread.operations)).Nodup := by
    refine (List.Perm.nodup_iff ?_).mpr h.ops.nodup
    simp only [located, hthread, operations, append_assoc]
    exact perm_middle.symm
  have hfresh := (nodup_cons.mp hnodup).1
  simp only [mem_append, not_or] at hfresh
  have hne : ∀ {o'}, o' ≠ o → s'.operation o' = s.operation o' := fun hne =>
    operation_ne s (fun op => { op with hostIndices := op.hostIndices.take hits }) hne
  have hsame : s'.operation o = { s.operation o with hostIndices := (s.operation o).hostIndices.take hits } :=
    operation_same s o fun op => { op with hostIndices := op.hostIndices.take hits }
  have hcases : ∀ o', s'.operation o' = s.operation o' ∨
      o' = o ∧ s'.operation o' = { s.operation o with hostIndices := (s.operation o).hostIndices.take hits } := by
    intro o'
    by_cases ho : o' = o
    · exact .inr ⟨ho, ho ▸ hsame⟩
    · exact .inl (hne ho)
  have hadv : Advances cfg s s' := by
    refine ⟨rfl, rfl, fun o' => ?_, fun o' => ?_, fun r e he => ?_, fun o' => ?_⟩
    · rcases hcases o' with ho | ⟨rfl, ho⟩ <;> rw [ho]
    · rcases hcases o' with ho | ⟨rfl, ho⟩ <;> rw [ho]
      exact take_prefix _ _
    · rcases hcases e.operation with ho | ⟨heq, ho⟩ <;> rw [ho]
      · exact ⟨(h.ops.entry r e he).le, (h.ops.entry r e he).dvd⟩
      · dsimp only
        rw [hdone]
        exact ⟨zero_le _, dvd_zero _⟩
    · rcases hcases o' with ho | ⟨rfl, ho⟩ <;> rw [ho]
      · exact id
      · exact id
  have hcut : (s'.operation o).completedTokens = 0 ∧ Cut cfg (s'.operation o) := by
    rw [hsame, Cut]
    rw [length_take, min_eq_left hle]
    exact ⟨hdone, hhash⟩
  refine h.thread rfl rfl rfl rfl rfl (fun x => ?_)
    (h.ops.next hadv hperm.subperm (fun o' ho' => ?_) nofun (fun o' ho' => ?_) ?_ (fun r hr e he => ?_))
  · have h1 : s'.queued = s.queued := flatMap_congr fun o' ho' => by rw [hne fun heq => hfresh.1.1 (heq ▸ ho')]
    have h2 : s'.buffered = s.buffered ++ (s.operation o).hostIndices.take hits := by
      have hold : s.prefetchBuffer.flatMap s'.unfetched = s.buffered := flatMap_congr fun o' ho' => by
        rw [unfetched, unfetched, hne fun heq => hfresh.1.2 (heq ▸ ho')]
      show (s.prefetchBuffer ++ [o]).flatMap s'.unfetched = _
      rw [flatMap_append, hold, flatMap_singleton, unfetched, hcut.1, hsame]
      rfl
    have h3 : s'.ioThreadHolds = s.ioThreadHolds := ioThreadHolds_congr rfl fun o' ho' => hne fun heq => hfresh.2 (heq ▸ ho')
    have h4 : s'.awaited = s.awaited := flatMap_congr fun e _ => by
      rcases hcases e.operation with ho | ⟨heq, ho⟩ <;> rw [fetched, fetched, ho]
      rw [heq]
    have h5 : s.prefetchThreadHolds = (s.operation o).hostIndices.take hits := by
      rw [prefetchThreadHolds, hthread]
      rfl
    rw [count_inFlight, count_inFlight, h1, h2, h3, h4, h5, count_append]
    show s.queued.count x + 0 + (s.buffered.count x + ((s.operation o).hostIndices.take hits).count x) + s.ioThreadHolds.count x +
      s.awaited.count x + s.hostMemReleaseQueue.flatten.count x + s.scheduler.flatten.count x = _
    omega
  · have hq : o' ∈ s.prefetchQueue := ho'.resolve_right nofun
    rw [hne fun heq => hfresh.1.1 (heq ▸ hq)]
    exact ⟨.inl hq, rfl, rfl, rfl⟩
  · rcases mem_append.mp ho' with ho' | ho'
    · rw [hne fun heq => hfresh.1.2 (heq ▸ ho')]
      exact h.ops.buffer o' ho'
    · rw [mem_singleton.mp ho']
      exact hcut
  · exact h.ops.io.congr rfl fun o' ho' => by
      rw [hne fun heq => hfresh.2 (heq ▸ ho')]
      exact ⟨rfl, rfl, rfl⟩
  · obtain ⟨h1, h2⟩ := h.ops.revoked r hr e he
    refine ⟨fun hmem => h1 (hperm.mem_iff.mp hmem), ?_⟩
    rcases hcases e.operation with ho | ⟨heq, ho⟩ <;> rw [ho]
    · exact h2
    · exact hdone

theorem Inv.prefetchThreadStep (hps : 0 < cfg.pageSize) (batchExists : List Hash → Nat) :
    Inv cfg size (s.prefetchThreadStep cfg batchExists) live path := by
  unfold System.prefetchThreadStep
  split
  · rename_i hthread
    split
    · exact h
    · rename_i o queue hqueue
      exact h.take hthread hqueue
  · rename_i o hthread
    obtain ⟨-, hlen, hdvd, -⟩ := h.ops.undecided o (.inr hthread)
    obtain ⟨hhash, hle⟩ := storageHitQuery_spec cfg hps batchExists (s.operation o).tokenIds.length (s.operation o).tokenIds
      (s.operation o).lastHash hdvd
    dsimp only
    generalize storageHitQuery cfg batchExists (s.operation o).tokenIds.length (s.operation o).tokenIds
      (s.operation o).lastHash = q at hhash hle ⊢
    obtain ⟨hashValue, hits⟩ := q
    dsimp only at hhash hle ⊢
    split
    · exact h.revoke hps hthread
    have hcut : hashValue.take (hits / cfg.pageSize) = hashValue := by
      rw [← hhash, Nat.mul_div_cancel _ hps]
      exact take_of_length_le (le_refl _)
    rw [hcut]
    have h1 : Inv cfg size (s.updOperation o fun op => { op with hashValue := hashValue }) live path :=
      h.mark ⟨rfl, rfl, rfl, rfl, id⟩ (.inr hthread)
    have hop := operation_same s o fun op => { op with hashValue := hashValue }
    have h2 := h1.startCut hps hits hthread (by rw [hop]; exact hhash) (by rw [hop]; dsimp only; omega)
    rw [hop] at h2
    exact h2
  · rename_i hthread
    refine h.prefetchShift (by rw [hthread]; rfl) nofun nofun fun x => ?_
    rw [prefetchThreadHolds, prefetchThreadHolds, hthread]
    rfl
  · rename_i page pages hthread
    refine h.prefetchShift (by rw [hthread]; rfl) nofun nofun fun x => ?_
    simp only [prefetchThreadHolds, hthread, flatten_cons, count_put, count_append]
    omega
  · rename_i o hits hthread
    exact h.endCut hthread
  · rename_i o hits page pages hthread
    refine h.prefetchShift (by rw [hthread]; rfl) nofun (fun o' hits' l hc => ?_) fun x => ?_
    · obtain ⟨rfl, rfl, -⟩ := PrefetchThread.cutting.inj hc
      exact h.ops.cutting _ _ _ hthread
    · simp only [prefetchThreadHolds, hthread, flatten_cons, count_put, count_append]
      omega

end

/-! ## The I/O thread -/

theorem Ops.io_fresh (h : Ops cfg s) (hthread : s.ioThread.operations = [o]) :
    o ∉ s.prefetchQueue ∧ o ∉ s.prefetchThread.operations ∧ o ∉ s.prefetchBuffer := by
  have hnodup := h.nodup
  rw [located, hthread] at hnodup
  have hfresh : o ∉ s.prefetchQueue ++ s.prefetchThread.operations ++ s.prefetchBuffer := fun hmem =>
    (nodup_append.mp hnodup).2.2 o hmem o (mem_singleton_self o) rfl
  simpa only [mem_append, not_or, and_assoc] using hfresh

/-- What is counted as fetched goes from the thread to the request that waits for it. -/
theorem count_awaited (h : Ops cfg s) {r : ReqId} {e : Ongoing} (he : s.ongoingPrefetch.get? r = some e)
    (heo : e.operation = o) (hle : (s.operation o).completedTokens + n ≤ (s.operation o).hostIndices.length)
    (hongoing : s'.ongoingPrefetch = s.ongoingPrefetch) (hdone : (s'.operation o).completedTokens =
    (s.operation o).completedTokens + n)
    (hhost : (s'.operation o).hostIndices = (s.operation o).hostIndices) (hne : ∀ o', o' ≠ o →
    s'.operation o' = s.operation o') (x : Nat) :
    (s'.unfetched o).count x + s'.awaited.count x = (s.unfetched o).count x + s.awaited.count x := by
  have hperm := Dict.values_erase_perm he
  have hothers : ∀ e' ∈ (s.ongoingPrefetch.erase r).values, s'.fetched e' = s.fetched e' := by
    intro e' he'
    obtain ⟨r', hr'⟩ := Dict.mem_values.mp he'
    obtain ⟨hrr, hr'⟩ := Dict.mem_erase.mp hr'
    rw [fetched, fetched, hne e'.operation fun heq => hrr (h.entry_inj (Dict.get?_eq_some.mpr hr') he (heq.trans heo.symm))]
  have hcount : ∀ t : System, t.ongoingPrefetch = s.ongoingPrefetch →
      t.awaited.count x = (t.fetched e).count x + ((s.ongoingPrefetch.erase r).values.flatMap t.fetched).count x := by
    intro t ht
    rw [awaited, ht, (hperm.flatMap_right t.fetched).count_eq, flatMap_cons, count_append]
  rw [hcount s' hongoing, hcount s rfl, flatMap_congr hothers]
  -- the next pages of the operation's memory are those of the request's
  obtain ⟨rest, hrest⟩ := (h.entry r e he).front
  rw [heo] at hrest
  have hfetched : s'.fetched e = s.fetched e ++ (s.unfetched o).take n := by
    rw [fetched, fetched, unfetched, heo, hdone, take_add, ← hrest, drop_append_of_le_length (by omega),
      take_append_of_le_length (show n ≤ ((s.operation o).hostIndices.drop _).length by rw [length_drop]; omega)]
  have hunfetched : s.unfetched o = (s.unfetched o).take n ++ s'.unfetched o := by
    have : s'.unfetched o = (s.unfetched o).drop n := by rw [unfetched, unfetched, hdone, hhost, drop_drop]
    rw [this, take_append_drop]
  have hparts := congrArg (count x) hunfetched
  rw [count_append] at hparts
  rw [hfetched, count_append]
  omega

/-- The I/O thread goes on with the same operation. -/
theorem Inv.ioShift (h : Inv cfg size s live path) (hu : u.operations = s.ioThread.operations)
    (hio : IoOk cfg { s with ioThread := u }) (hholds : ({ s with ioThread := u } : System).ioThreadHolds = s.ioThreadHolds) :
    Inv cfg size { s with ioThread := u } live path := by
  refine h.shift (by rw [hu]; rfl) (fun _ => id) h.ops.cutting h.ops.buffer hio fun x => ?_
  rw [hholds]
  rfl

/-- More of the operation counts as fetched. -/
theorem Inv.increment (h : Inv cfg size s live path) (hthread : s.ioThread.operations = [o])
    (hholds : s.ioThreadHolds = s.unfetched o) (hu : u.operations = [o]) (hn : cfg.pageSize ∣ n)
    (hle : (s.operation o).completedTokens + n ≤ (s.operation o).hostIndices.length)
    (hholds' : ∀ t : System, t.ioThread = u → t.ioThreadHolds = t.unfetched o)
    (hio : IoOk cfg { s.increment o n with ioThread := u }) :
    Inv cfg size { s.increment o n with ioThread := u } live path := by
  by_cases hterm : (s.operation o).terminatedFlag = true
  · have hid : s.increment o n = s := by
      unfold System.increment updOperation
      dsimp only
      rw [if_pos hterm, upd_self]
    rw [hid] at hio ⊢
    refine h.ioShift (hu.trans hthread.symm) hio ?_
    rw [hholds, hholds' _ rfl]
    rfl
  have hterm : (s.operation o).terminatedFlag = false := by simpa using hterm
  obtain ⟨hq, ht, hb⟩ := h.ops.io_fresh hthread
  obtain ⟨r, e, he, heo⟩ := h.ops.owned o (by rw [located, hthread]; exact mem_append_right _ (mem_singleton_self o)) hterm
  set s' : System := { s.increment o n with ioThread := u } with hs'
  have hsame : s'.operation o = { s.operation o with completedTokens := (s.operation o).completedTokens + n } := by
    show upd s.operation o (if (s.operation o).terminatedFlag then s.operation o else _) o = _
    rw [upd_same, if_neg (by rw [hterm]; exact Bool.false_ne_true)]
  have hne : ∀ o', o' ≠ o → s'.operation o' = s.operation o' := fun o' ho' => upd_ne _ _ ho'
  have hloc : s'.located = s.located := by
    show s.prefetchQueue ++ s.prefetchThread.operations ++ s.prefetchBuffer ++ u.operations = _
    rw [located, hu, hthread]
  have hfields : ∀ o', (s'.operation o').requestId = (s.operation o').requestId ∧ (s'.operation o').hostIndices =
    (s.operation o').hostIndices ∧
      (s'.operation o').terminatedFlag = (s.operation o').terminatedFlag := by
    intro o'
    by_cases ho : o' = o
    · rw [ho, hsame]
      exact ⟨rfl, rfl, rfl⟩
    · rw [hne o' ho]
      exact ⟨rfl, rfl, rfl⟩
  have hadv : Advances cfg s s' := by
    refine ⟨rfl, rfl, fun o' => (hfields o').1, fun o' => by rw [(hfields o').2.1], fun r' e' he' => ?_, fun o' hf => ?_⟩
    · have hentry := h.ops.entry r' e' he'
      by_cases ho : e'.operation = o
      · have hle' := hentry.le
        have hdvd := hentry.dvd
        rw [ho] at hdvd ⊢
        rw [hsame]
        exact ⟨hle, Nat.dvd_add hdvd hn⟩
      · rw [hne _ ho]
        exact ⟨hentry.le, hentry.dvd⟩
    · rw [← (hfields o').2.2]
      exact hf
  refine h.thread rfl rfl rfl rfl rfl (fun x => ?_) (h.ops.next hadv (by rw [hloc])
    (fun o' ho' => ?_) (fun o' hits pages hc => ?_) (fun o' ho' => ?_) hio (fun r' hr' e' he' => ?_))
  · have h1 : s'.queued = s.queued := flatMap_congr fun o' ho' => (hfields o').2.1
    have h2 : s'.prefetchThreadHolds = s.prefetchThreadHolds := by
      simp only [prefetchThreadHolds, (hfields _).2.1]
      rfl
    have h3 : s'.buffered = s.buffered := flatMap_congr fun o' ho' => by
      rw [unfetched, unfetched, hne o' fun heq => hb (heq ▸ ho')]
    have h4 : (s'.unfetched o).count x + s'.awaited.count x = _ :=
      count_awaited h.ops he heo hle (show s'.ongoingPrefetch = _ from rfl) (by rw [hsame]) (hfields o).2.1 hne x
    rw [count_inFlight, count_inFlight, h1, h2, h3, hholds, hholds' s' rfl]
    show _ + _ + _ + _ + _ + s.hostMemReleaseQueue.flatten.count x + s.scheduler.flatten.count x = _
    omega
  · have ho : o' ≠ o := by
      intro heq
      rcases ho' with ho' | ho'
      · exact hq (heq ▸ ho')
      have hquery : s.prefetchThread = .querying o' := ho'
      rw [hquery, heq] at ht
      exact ht (mem_singleton_self _)
    rw [hne o' ho]
    exact ⟨ho', rfl, rfl, rfl⟩
  · have hcut : s.prefetchThread = .cutting o' hits pages := hc
    have ho : o' ≠ o := by
      intro heq
      rw [hcut, heq] at ht
      exact ht (mem_singleton_self _)
    rw [hne o' ho]
    exact h.ops.cutting o' hits pages hcut
  · rw [hne o' fun heq => hb (heq ▸ ho')]
    exact h.ops.buffer o' ho'
  · obtain ⟨h1, h2⟩ := h.ops.revoked r' hr' e' he'
    have ho : e'.operation ≠ o := by
      intro heq
      apply h1
      rw [heq, located, hthread]
      exact mem_append_right _ (mem_singleton_self o)
    rw [hloc, hne _ ho]
    exact ⟨h1, h2⟩

/-- The batch that is checked came whole. -/
def BatchWhole (cfg : StorageConfig) (s : System) : Prop :=
  ∀ o i prev, s.ioThread = .checking o i prev → (s.operation o).completedTokens = prev + batchLen (s.operation o) i * cfg.pageSize

section
variable (h : Inv cfg size s live path)
include h

theorem Inv.ioTake {buffer : List OpId} (hthread : s.ioThread = .waiting)
    (hbuffer : s.prefetchBuffer = o :: buffer) :
    Inv cfg size { s with prefetchBuffer := buffer, ioThread := .batch o 0 } live path := by
  obtain ⟨hdone, hcut⟩ := h.ops.buffer o (hbuffer ▸ mem_cons_self)
  refine h.shift (List.Perm.subperm ?_) (fun _ => id) h.ops.cutting
    (fun o' ho' => h.ops.buffer o' (hbuffer ▸ mem_cons_of_mem _ ho')) ⟨hcut, ?_⟩
    fun x => ?_
  · simp only [located, hthread, hbuffer, IoThread.operations, append_nil, append_assoc]
    exact List.Perm.append_left _ (List.Perm.append_left _ (perm_append_singleton o buffer))
  · show (s.operation o).completedTokens = _
    rw [hdone, zero_min, zero_mul]
  · simp only [buffered, ioThreadHolds, hthread, hbuffer, flatMap_cons, count_append, count_nil]
    show s.queued.count x + s.prefetchThreadHolds.count x + _ + (s.unfetched o).count x + _ + _ = _
    omega

/-- The I/O thread is done with its operation. -/
theorem Inv.ioDone (hthread : s.ioThread = .releasing o true []) : Inv cfg size { s with ioThread := .waiting } live path := by
  refine h.shift ?_ (fun _ => id) h.ops.cutting h.ops.buffer trivial fun x => ?_
  · simp only [located, hthread, IoThread.operations, append_nil]
    exact (sublist_append_left _ _).subperm
  · simp only [ioThreadHolds, hthread]
    rfl

end

theorem batchLen_le (op : PrefetchOperation) (i : Nat) (hi : i < op.hashValue.length) :
    i + batchLen op i ≤ op.hashValue.length := by
  unfold batchLen
  omega

section
variable (h : Inv cfg size s live path)
include h

/-- The next batch is begun, or there is none. -/
theorem Inv.ioBatch {i : Nat} (hthread : s.ioThread = .batch o i) (pageRead : Nat → Bool) :
    Inv cfg size (s.ioThreadStep cfg pageRead) live path := by
  have hio := h.ops.io
  simp only [IoOk, hthread] at hio
  obtain ⟨hcut, hdone⟩ := hio
  have hholds : s.ioThreadHolds = s.unfetched o := by rw [ioThreadHolds, hthread]
  simp only [System.ioThreadStep, hthread]
  split
  · rename_i hlt
    rw [min_eq_left (le_of_lt hlt)] at hdone
    exact h.ioShift (by rw [hthread]; rfl) ⟨hcut, hlt, hdone, zero_le _, fun _ => rfl, hdone⟩ hholds.symm
  rename_i hge
  have hnil : s.unfetched o = [] := by
    rw [unfetched, hdone, min_eq_right (by omega), hcut]
    exact drop_length
  rw [hnil]
  refine h.ioShift (by rw [hthread]; rfl) ⟨rfl, hnil⟩ ?_
  rw [hholds, hnil]
  rfl

/-- Pages of a batch are read. -/
theorem Inv.ioFetch {i j prev : Nat} (hthread : s.ioThread = .fetching o i j prev) (pageRead : Nat → Bool) :
    Inv cfg size (s.ioThreadStep cfg pageRead) live path := by
  have hio := h.ops.io
  simp only [IoOk, hthread] at hio
  obtain ⟨hcut, hlt, hprev, hj, hzero, hdone⟩ := hio
  have hholds : s.ioThreadHolds = s.unfetched o := by rw [ioThreadHolds, hthread]
  have hops : s.ioThread.operations = [o] := by rw [hthread]; rfl
  have hlen := batchLen_le (s.operation o) i hlt
  -- the hashes and the memory stay as they are
  have hkept : ∀ n, ((s.increment o n).operation o).hashValue = (s.operation o).hashValue ∧
      ((s.increment o n).operation o).hostIndices = (s.operation o).hostIndices := by
    intro n
    rw [System.increment, operation_same]
    split <;> exact ⟨rfl, rfl⟩
  have hcut' : ∀ n, Cut cfg ((s.increment o n).operation o) := by
    intro n
    rw [Cut, (hkept n).1, (hkept n).2]
    exact hcut
  have hlt' : ∀ n, i < ((s.increment o n).operation o).hashValue.length := fun n => (hkept n).1 ▸ hlt
  simp only [System.ioThreadStep, hthread]
  split
  · rename_i hzc
    have hk : ((range (batchLen (s.operation o) i)).takeWhile pageRead).length ≤ batchLen (s.operation o) i := by
      have := (takeWhile_sublist (l := range (batchLen (s.operation o) i)) pageRead).length_le
      rwa [length_range] at this
    refine h.increment hops hholds rfl (dvd_mul_left _ _) ?_ (fun t ht => by rw [ioThreadHolds, ht]) ⟨hcut' _, hlt' _, hprev⟩
    rw [hdone, hzero hzc, add_zero, ← add_mul, ← hcut]
    exact mul_le_mul_right _ (by omega)
  rename_i hzc
  split
  · rename_i hread
    have hroom : (s.operation o).completedTokens + cfg.pageSize ≤ (s.operation o).hostIndices.length := by
      rw [hdone, ← hcut, ← succ_mul]
      refine mul_le_mul_right _ ?_
      omega
    split
    · exact h.increment hops hholds rfl (dvd_refl _) hroom (fun t ht => by rw [ioThreadHolds, ht]) ⟨hcut' _, hlt' _, hprev⟩
    rename_i hterm
    refine h.increment hops hholds rfl (dvd_refl _) hroom (fun t ht => by rw [ioThreadHolds, ht])
      ⟨hcut' _, hlt' _, hprev, ?_, fun hz => absurd hz hzc, ?_⟩
    · show j + 1 ≤ batchLen ((s.increment o _).operation o) i
      rw [batchLen, (hkept _).1]
      exact hread.1
    · show ((s.increment o _).operation o).completedTokens = _
      rw [System.increment, operation_same, if_neg hterm, hdone, ← succ_mul]
      rfl
  · exact h.ioShift (by rw [hthread]; rfl) ⟨hcut, hlt, hprev⟩ hholds.symm

/-- A batch that came whole is followed by the next. -/
theorem Inv.ioCheck {i prev : Nat} (hthread : s.ioThread = .checking o i prev) (hwhole : BatchWhole cfg s)
    (pageRead : Nat → Bool) :
    Inv cfg size (s.ioThreadStep cfg pageRead) live path := by
  have hio := h.ops.io
  simp only [IoOk, hthread] at hio
  obtain ⟨hcut, hlt, hprev⟩ := hio
  have hall := hwhole o i prev hthread
  simp only [System.ioThreadStep, hthread]
  rw [if_neg (not_not.mpr hall)]
  refine h.ioShift (by rw [hthread]; rfl) ⟨hcut, ?_⟩ (by rw [ioThreadHolds, ioThreadHolds, hthread]; rfl)
  show (s.operation o).completedTokens = min (i + storageBatchSize) (s.operation o).hashValue.length * cfg.pageSize
  rw [hall, hprev, ← add_mul]
  congr 1
  unfold batchLen
  omega

/-- The memory that was not fetched is released; there is none. -/
theorem Inv.ioRelease {second : Bool} {pages : List (List Nat)} (hthread : s.ioThread = .releasing o second pages)
    (pageRead : Nat → Bool) :
    Inv cfg size (s.ioThreadStep cfg pageRead) live path := by
  have hio := h.ops.io
  simp only [IoOk, hthread] at hio
  obtain ⟨rfl, hnil⟩ := hio
  cases second with
  | true =>
    simp only [System.ioThreadStep, hthread]
    exact h.ioDone hthread
  | false =>
    simp only [System.ioThreadStep, hthread, hnil]
    exact h.ioShift (by rw [hthread]; rfl) ⟨rfl, hnil⟩ (by rw [ioThreadHolds, ioThreadHolds, hthread]; rfl)

theorem Inv.ioThreadStep (hwhole : BatchWhole cfg s) (pageRead : Nat → Bool) :
    Inv cfg size (s.ioThreadStep cfg pageRead) live path := by
  cases hthread : s.ioThread with
  | waiting =>
    simp only [System.ioThreadStep, hthread]
    split
    · exact h
    · rename_i o buffer hbuffer
      exact h.ioTake hthread hbuffer
  | batch o i => exact h.ioBatch hthread pageRead
  | fetching o i j prev => exact h.ioFetch hthread pageRead
  | checking o i prev => exact h.ioCheck hthread hwhole pageRead
  | releasing o second pages => exact h.ioRelease hthread pageRead

end

end System

end DynaSpec.MemCache.HiRadix
