/-
  DynaSpec.Router.Policies — the routing policies of the router
  (sgl-router/src/policies/mod.rs, cache_aware.rs, bucket.rs, power_of_two.rs, round_robin.rs).

  A call sees one state of the workers. The cache-aware policy works with any tree of tenants
  (`TenantTree`), so that what is said about its picks holds whatever the tree answers. The
  outcomes of the floating-point comparisons are functions of the configuration, random numbers
  and the orders of the hash maps are arguments.

  Round-robin and power-of-two only pick from the healthy indices. The cache-aware policy checks
  `is_healthy` of the worker that its tree names and not the circuit breaker, the bucket policy
  checks nothing of the worker that its bucket names, and its pair takes a position among the
  healthy decode workers for a position among all of them. `select_available_iff` says of which
  tables and lists this is true whatever is drawn; `unavailable_picks` has a call for each of the
  three. The state of a policy is any, so the calls that add and remove workers and the thread that
  moves the boundaries are left out.
-/

import DynaSpec.Lib.Dict
import DynaSpec.Lib.Gather
import Mathlib

namespace DynaSpec.Router.Policies

open DynaSpec.Lib List

variable {α : Type} {i : Nat}

inductive CircuitState where
  | closed
  | open_
  | halfOpen
  deriving DecidableEq

/-- The state of a breaker, and whether its time-out has passed since the state last changed. -/
structure CircuitBreaker where
  state : CircuitState
  timeoutElapsed : Bool

def CircuitBreaker.checkAndUpdateState (b : CircuitBreaker) : CircuitState :=
  if b.state = .open_ && b.timeoutElapsed then .halfOpen else b.state

def CircuitBreaker.canExecute (b : CircuitBreaker) : Bool :=
  match b.checkAndUpdateState with
  | .closed => true
  | .open_ => false
  | .halfOpen => true

structure Worker where
  url : String
  modelId : String
  load : Nat
  isHealthy : Bool
  circuitBreaker : CircuitBreaker

def Worker.isAvailable (w : Worker) : Bool := w.isHealthy && w.circuitBreaker.canExecute

open Worker (load url)

def getHealthyWorkerIndices (workers : List Worker) : List Nat :=
  (workers.zipIdx.filter fun e => e.1.isHealthy && e.1.circuitBreaker.canExecute).map Prod.snd

/-- `random_range(0..n)`, called again and again. No generator gives one number for ever. -/
structure Rng where
  draw : Nat → Nat → Nat
  draw_lt : ∀ i n, 0 < n → draw i n < n
  varies : ∀ i n v, 2 ≤ n → ∃ j, draw (i + j) n ≠ v

/-- `min_by_key`: the first of the items with the least key. -/
def minByKey {α : Type} (key : α → Nat) : List α → Option α
  | [] => none
  | a :: l => some (l.foldl (fun best x => if key x < key best then x else best) a)

def position (workers : List Worker) (url : String) : Option Nat := workers.findIdx? fun w => w.url == url

def modelKey (workers : List Worker) (healthyIndices : List Nat) : String :=
  let firstModel := ((healthyIndices[0]?).bind (workers[·]?)).elim "" Worker.modelId
  if firstModel = "" || firstModel = "unknown" then "default" else firstModel

/-! ## Round-robin -/

structure RoundRobinPolicy where
  counter : Nat

def RoundRobinPolicy.selectWorker (p : RoundRobinPolicy) (workers : List Worker) : RoundRobinPolicy × Option Nat :=
  let healthyIndices := getHealthyWorkerIndices workers
  if healthyIndices = [] then (p, none)
  else (⟨(p.counter + 1) % 2 ^ 64⟩, healthyIndices[p.counter % healthyIndices.length]?)

/-! ## Power of two choices -/

structure PowerOfTwoPolicy where
  cachedLoads : Dict String Int

def PowerOfTwoPolicy.getWorkerLoad (p : PowerOfTwoPolicy) (w : Worker) : Int := (p.cachedLoads.get? w.url).getD w.load

/-- `while idx2 == idx1 { idx2 = random_range(..) }`. -/
def secondIndex (rng : Rng) (n : Nat) (hn : 2 ≤ n) : Nat := rng.draw (1 + Nat.find (rng.varies 1 n (rng.draw 0 n) hn)) n

def PowerOfTwoPolicy.selectWorker (p : PowerOfTwoPolicy) (rng : Rng) (workers : List Worker) : Option Nat :=
  let healthyIndices := getHealthyWorkerIndices workers
  if hn : 2 ≤ healthyIndices.length then do
    let workerIdx1 ← healthyIndices[rng.draw 0 healthyIndices.length]?
    let workerIdx2 ← healthyIndices[secondIndex rng healthyIndices.length hn]?
    let worker1 ← workers[workerIdx1]?
    let worker2 ← workers[workerIdx2]?
    return if p.getWorkerLoad worker1 ≤ p.getWorkerLoad worker2 then workerIdx1 else workerIdx2
  else healthyIndices[0]?

/-! ## Cache-aware -/

/-- The calls that the cache-aware policy makes to its trees. -/
structure TenantTree (T : Type) where
  new : T
  insert : T → List Char → String → T
  prefixMatch : T → List Char → T × List Char × String
  getSmallestTenant : T → String
  removeTenant : T → String → T

structure CacheAwareConfig where
  balanceAbsThreshold : Nat
  /-- `max_load as f32 > min_load as f32 * balance_rel_threshold`. -/
  exceedsRel : Nat → Nat → Bool
  /-- `matched as f32 / total as f32 > cache_threshold`, for a text that is not empty. -/
  exceedsCache : Nat → Nat → Bool
  /-- `0.0 > cache_threshold`. -/
  emptyHits : Bool

structure CacheAwarePolicy (T : Type) where
  config : CacheAwareConfig
  trees : Dict String T

namespace CacheAwarePolicy

variable {T : Type} (tree : TenantTree T)

def treeKey (modelId : String) : String := if modelId = "" || modelId = "unknown" then "default" else modelId

variable (p : CacheAwarePolicy T)

def addWorkerByUrl (url modelId : String) : CacheAwarePolicy T :=
  { p with trees := p.trees.set modelId (tree.insert ((p.trees.get? modelId).getD tree.new) [] url) }

def addWorker (w : Worker) : CacheAwarePolicy T := p.addWorkerByUrl tree w.url (treeKey w.modelId)

def initWorkers (workers : List Worker) : CacheAwarePolicy T := workers.foldl (·.addWorker tree ·) p

def updateTree (modelId : String) (f : T → T) : CacheAwarePolicy T :=
  match p.trees.get? modelId with
  | some t => { p with trees := p.trees.set modelId (f t) }
  | none => p

def isImbalanced (workers : List Worker) : Bool :=
  let maxLoad := (workers.map load).max?.getD 0
  let minLoad := (workers.map load).min?.getD 0
  decide (maxLoad - minLoad > p.config.balanceAbsThreshold) && p.config.exceedsRel maxLoad minLoad

/-- The tree after the lookup of the text, and the URL that it names for it. -/
def lookup (t : T) (text : List Char) : T × String :=
  let (t, matchedText, matchedWorker) := tree.prefixMatch t text
  let hit := if text = [] then p.config.emptyHits else p.config.exceedsCache matchedText.length text.length
  (t, if hit then matchedWorker else tree.getSmallestTenant t)

def selectWorker (rng : Rng) (workers : List Worker) (requestText : Option (List Char)) :
    CacheAwarePolicy T × Option Nat :=
  let healthyIndices := getHealthyWorkerIndices workers
  if healthyIndices = [] then (p, none)
  else
    let modelId := modelKey workers healthyIndices
    if p.isImbalanced workers then
      match minByKey (fun idx => (workers[idx]?).elim 0 load) healthyIndices with
      | none => (p, none)
      | some minLoadIdx =>
        (requestText.elim p fun text => p.updateTree modelId (tree.insert · text ((workers[minLoadIdx]?).elim "" url)),
          some minLoadIdx)
    else
      match p.trees.get? modelId with
      | some t =>
        let text := requestText.getD []
        let (t, selectedUrl) := p.lookup tree t text
        match position workers selectedUrl with
        | some selectedIdx =>
          if (workers[selectedIdx]?).any Worker.isHealthy then
            ({ p with trees := p.trees.set modelId (tree.insert t text selectedUrl) }, some selectedIdx)
          else ({ p with trees := p.trees.set modelId t }, healthyIndices[0]?)
        | none => ({ p with trees := p.trees.set modelId (tree.removeTenant t selectedUrl) }, healthyIndices[0]?)
      | none => (p, healthyIndices[rng.draw 0 healthyIndices.length]?)

end CacheAwarePolicy

/-! ## Bucket -/

structure SequencerRequest where
  id : Nat
  charCnt : Nat
  timestamp : Nat
  prefillWorkerUrl : String

structure Boundary where
  url : String
  lower : Nat
  upper : Nat

def usizeMax : Nat := 2 ^ 64 - 1

structure Bucket where
  lMax : Nat := 4096
  bucketCnt : Nat := 0
  prefillWorkerUrls : List String := []
  loadTotal : Nat := 0
  period : Nat
  boundary : List Boundary := []
  requestList : List SequencerRequest := []
  tReqLoads : Dict Nat Nat := .empty
  charsPerUrl : Dict String Nat := .empty
  drawnIds : Nat := 0

namespace Bucket

/-- The lower and upper end of the bucket at a position, without overflow checks. -/
def initBoundary (gap workerCnt i : Nat) (url : String) : Boundary :=
  ⟨url, i * gap, if i = workerCnt - 1 then usizeMax else ((i + 1) * gap + usizeMax) % 2 ^ 64⟩

def initPrefillWorkerUrls (b : Bucket) (urls : List String) : Bucket :=
  { b with
    bucketCnt := urls.length
    prefillWorkerUrls := urls
    charsPerUrl := urls.foldl (fun m url => m.set url 0) .empty
    lMax := if urls.length = 0 then b.lMax else usizeMax
    boundary := urls.zipIdx.map fun e => initBoundary (b.lMax / urls.length) urls.length e.2 e.1 }

def expired (b : Bucket) (now : Nat) (req : SequencerRequest) : Bool :=
  decide (now < req.timestamp) || decide (now - req.timestamp > b.period)

/-- Take one expired request out of the sums. -/
def dropRequest (b : Bucket) (req : SequencerRequest) : Bucket :=
  { b with
    tReqLoads := b.tReqLoads.erase req.id
    loadTotal := b.loadTotal - req.charCnt
    charsPerUrl := match b.charsPerUrl.get? req.prefillWorkerUrl with
      | some count => b.charsPerUrl.set req.prefillWorkerUrl (count - req.charCnt)
      | none => b.charsPerUrl }

def postProcessRequest (b : Bucket) (now charCnt : Nat) (prefillUrl : String) : Bucket :=
  let b := { b with charsPerUrl := b.charsPerUrl.set prefillUrl ((b.charsPerUrl.get? prefillUrl).getD 0 + charCnt) }
  let gone := b.requestList.takeWhile (b.expired now)
  let rest := b.requestList.dropWhile (b.expired now)
  let b := gone.foldl dropRequest b
  { b with
    tReqLoads := b.tReqLoads.set b.drawnIds charCnt
    requestList := rest ++ [⟨b.drawnIds, charCnt, now, prefillUrl⟩]
    loadTotal := min (b.loadTotal + charCnt) usizeMax
    drawnIds := b.drawnIds + 1 }

/-- The binary search over the boundaries, with a bound on its turns; each turn shortens the range. -/
def searchBoundary (boundary : List Boundary) (charCount : Nat) : Nat → Nat → Nat → Option String
  | 0, _, _ => none
  | turns + 1, left, right =>
    if left < right then
      let mid := left + (right - left) / 2
      match boundary[mid]? with
      | none => none
      | some bd =>
        if charCount < bd.lower then searchBoundary boundary charCount turns left mid
        else if charCount > bd.upper then searchBoundary boundary charCount turns (mid + 1) right
        else some bd.url
    else none

def findBoundary (b : Bucket) (charCount : Nat) : Option String :=
  searchBoundary b.boundary charCount b.boundary.length 0 b.boundary.length

end Bucket

/-- The order in which a walk over a hash map meets its keys. -/
structure Hashing where
  keys : List String → List String
  keys_perm : ∀ l, (keys l).Perm l

structure BucketConfig where
  balanceAbsThreshold : Nat
  /-- `max_load as f32 > balance_rel_threshold * min_load as f32`. -/
  exceedsRel : Nat → Nat → Bool
  bucketAdjustIntervalSecs : Nat

structure BucketPolicy where
  config : BucketConfig
  buckets : Dict String Bucket

namespace BucketPolicy

variable (p : BucketPolicy)

def initPrefillWorkerUrls (workers : List Worker) : BucketPolicy :=
  let keys := (workers.map fun w => CacheAwarePolicy.treeKey w.modelId).dedup
  { p with buckets := keys.foldl (fun buckets key =>
      let b := (buckets.get? key).getD { period := p.config.bucketAdjustIntervalSecs * 1000 }
      buckets.set key (b.initPrefillWorkerUrls
        ((workers.filter fun w => CacheAwarePolicy.treeKey w.modelId = key).map url))) p.buckets }

def isImbalanced (b : Bucket) : Bool :=
  let maxLoad := b.charsPerUrl.values.max?.getD 0
  let minLoad := b.charsPerUrl.values.min?.getD 0
  decide (maxLoad - minLoad > p.config.balanceAbsThreshold) && p.config.exceedsRel maxLoad minLoad

/-- The URL of a healthy worker at random. -/
def randomUrl (rng : Rng) (workers : List Worker) : String :=
  let healthyIndices := getHealthyWorkerIndices workers
  ((healthyIndices[rng.draw 0 healthyIndices.length]?).bind (workers[·]?)).elim "" url

/-- The URL that the policy settles on. -/
def prefillUrl (rng : Rng) (order : Hashing) (workers : List Worker) (charCount : Nat) : String :=
  match p.buckets.get? (modelKey workers (getHealthyWorkerIndices workers)) with
  | some b =>
    if p.isImbalanced b then
      (minByKey (fun url => (b.charsPerUrl.get? url).getD 0) (order.keys (b.charsPerUrl.items.map Prod.fst))).getD
        (randomUrl rng workers)
    else
      match b.findBoundary charCount with
      | some url => if url ≠ "" then url else randomUrl rng workers
      | none => randomUrl rng workers
  | none => randomUrl rng workers

def selectWorker (rng : Rng) (order : Hashing) (now : Nat) (workers : List Worker) (requestText : Option (List Char)) :
    BucketPolicy × Option Nat :=
  let healthyIndices := getHealthyWorkerIndices workers
  if healthyIndices = [] then (p, none)
  else
    let charCount := requestText.elim 0 List.length
    let key := modelKey workers healthyIndices
    let url := p.prefillUrl rng order workers charCount
    let buckets := match p.buckets.get? key with
      | some b => p.buckets.set key (b.postProcessRequest now charCount url)
      | none => p.buckets
    ({ p with buckets }, position workers url)

end BucketPolicy

/-! ## The policies together -/

inductive Policy (T : Type) where
  | cacheAware (p : CacheAwarePolicy T)
  | bucket (p : BucketPolicy)
  | powerOfTwo (p : PowerOfTwoPolicy)
  | roundRobin (p : RoundRobinPolicy)

/-- What a call finds around it: the random numbers, the orders of the hash maps, the time. -/
structure Env where
  rng : Rng
  order : Hashing
  now : Nat

namespace Policy

variable {T : Type} (tree : TenantTree T)

def selectWorker (env : Env) (workers : List Worker) (requestText : Option (List Char)) : Policy T → Policy T × Option Nat
  | .cacheAware p => let (p, idx) := p.selectWorker tree env.rng workers requestText; (.cacheAware p, idx)
  | .bucket p => let (p, idx) := p.selectWorker env.rng env.order env.now workers requestText; (.bucket p, idx)
  | .powerOfTwo p => (.powerOfTwo p, p.selectWorker env.rng workers)
  | .roundRobin p => let (p, idx) := p.selectWorker workers; (.roundRobin p, idx)

/-- `select_worker_pair`, with the surroundings of its first and of its second selection. -/
def selectWorkerPair (env env' : Env) (prefillWorkers decodeWorkers : List Worker) (requestText : Option (List Char))
    (policy : Policy T) :
    Policy T × Option (Nat × Nat) :=
  let (policy', prefill) := policy.selectWorker tree env prefillWorkers requestText
  match prefill with
  | none => (policy', none)
  | some prefillIdx =>
    let healthyDecode := getHealthyWorkerIndices decodeWorkers
    match policy' with
    | .cacheAware _ =>
      if healthyDecode = [] then (policy', none)
      else (policy', (minByKey (fun idx => (decodeWorkers[idx]?).elim 0 load) healthyDecode).map fun idx => (prefillIdx, idx))
    | .bucket _ =>
      if healthyDecode = [] then (policy', none)
      else (policy', some (prefillIdx, env'.rng.draw 0 healthyDecode.length))
    | _ =>
      let (policy'', decode) := policy'.selectWorker tree env' decodeWorkers requestText
      (policy'', decode.map fun idx => (prefillIdx, idx))

end Policy

/-! ## Healthy indices -/

def Available (workers : List Worker) (i : Nat) : Prop := ∃ w, workers[i]? = some w ∧ w.isAvailable = true

variable {workers : List Worker}

theorem mem_getHealthyWorkerIndices : i ∈ getHealthyWorkerIndices workers ↔ Available workers i := by
  unfold getHealthyWorkerIndices Available
  simp only [mem_map, mem_filter, Prod.exists, mem_zipIdx_iff_getElem?]
  constructor
  · intro h
    obtain ⟨w, j, ⟨hw, ha⟩, rfl⟩ := h
    exact ⟨w, hw, ha⟩
  · intro h
    obtain ⟨w, hw, ha⟩ := h
    exact ⟨w, i, ⟨hw, ha⟩, rfl⟩

theorem healthy_ne_nil (h : ∃ i, Available workers i) : getHealthyWorkerIndices workers ≠ [] := by
  obtain ⟨i, hi⟩ := h
  exact ne_nil_of_mem (mem_getHealthyWorkerIndices.mpr hi)

theorem available_of_ne_nil (h : getHealthyWorkerIndices workers ≠ []) : ∃ i, Available workers i := by
  obtain ⟨i, hi⟩ := exists_mem_of_ne_nil _ h
  exact ⟨i, mem_getHealthyWorkerIndices.mp hi⟩

theorem available_getElem? {k : Nat} (hk : k < (getHealthyWorkerIndices workers).length) :
    ∃ i, (getHealthyWorkerIndices workers)[k]? = some i ∧ Available workers i :=
  ⟨_, getElem?_eq_getElem hk, mem_getHealthyWorkerIndices.mp (getElem_mem hk)⟩

theorem minByKey_spec (key : α → Nat) {l : List α} (hl : l ≠ []) :
    ∃ a ∈ l, minByKey key l = some a ∧ ∀ x ∈ l, key a ≤ key x := by
  have hfold (l : List α) (a : α) : ∀ x ∈ a :: l, key (l.foldl (fun best x => if key x < key best then x else best) a) ≤
    key x := by
    induction l generalizing a with
    | nil => simp
    | cons y l ih =>
      intro x hx
      rw [foldl_cons]
      have hbest := ih (if key y < key a then y else a)
      have hfirst := hbest _ mem_cons_self
      rcases mem_cons.mp hx with rfl | hx
      · refine hfirst.trans ?_
        split <;> omega
      rcases mem_cons.mp hx with rfl | hx
      · refine hfirst.trans ?_
        split <;> omega
      · exact hbest x (mem_cons_of_mem _ hx)
  cases l with
  | nil => exact absurd rfl hl
  | cons a l => exact ⟨_, by simpa using foldl_pick_mem (fun x best => decide (key x < key best)) l a, rfl, hfold l a⟩

/-- The first of the items stays if none has a smaller key. -/
theorem minByKey_first (key : α → Nat) {a : α} {l : List α} (h : ∀ x ∈ l, key a ≤ key x) : minByKey key (a :: l) = some a := by
  refine congrArg some ?_
  induction l with
  | nil => rfl
  | cons y l ih =>
    rw [foldl_cons, if_neg (not_lt.mpr (h y mem_cons_self))]
    exact ih fun x hx => h x (mem_cons_of_mem y hx)

theorem available_minByKey (key : Nat → Nat) (h : getHealthyWorkerIndices workers ≠ []) :
    ∃ i, minByKey key (getHealthyWorkerIndices workers) = some i ∧ Available workers i := by
  obtain ⟨i, hi, hmin, -⟩ := minByKey_spec key h
  exact ⟨i, hmin, mem_getHealthyWorkerIndices.mp hi⟩

/-! ## Picks of available workers -/

/-- The call picks a worker, and an available one. -/
def Picks (workers : List Worker) (idx : Option Nat) : Prop := ∃ i, idx = some i ∧ Available workers i

theorem RoundRobinPolicy.picks (p : RoundRobinPolicy) (h : getHealthyWorkerIndices workers ≠ []) :
    Picks workers (p.selectWorker workers).2 := by
  unfold RoundRobinPolicy.selectWorker
  simp only [if_neg h]
  exact available_getElem? (Nat.mod_lt _ (length_pos_iff.mpr h))

theorem PowerOfTwoPolicy.picks (p : PowerOfTwoPolicy) (rng : Rng) (h : getHealthyWorkerIndices workers ≠ []) :
    Picks workers (p.selectWorker rng workers) := by
  unfold PowerOfTwoPolicy.selectWorker
  have hpos : 0 < (getHealthyWorkerIndices workers).length := length_pos_iff.mpr h
  dsimp only
  split
  · rename_i hn
    have hsecond : secondIndex rng _ hn < (getHealthyWorkerIndices workers).length := rng.draw_lt _ _ hpos
    obtain ⟨i, hi, hai⟩ := available_getElem? (rng.draw_lt 0 _ hpos)
    obtain ⟨j, hj, haj⟩ := available_getElem? hsecond
    obtain ⟨v, hv, hva⟩ := hai
    obtain ⟨w, hw, hwa⟩ := haj
    simp only [hi, hj, hv, hw, Option.bind_eq_bind, Option.bind_some]
    by_cases hload : p.getWorkerLoad v ≤ p.getWorkerLoad w
    · exact ⟨i, by rw [if_pos hload]; rfl, v, hv, hva⟩
    · exact ⟨j, by rw [if_neg hload]; rfl, w, hw, hwa⟩
  · exact available_getElem? hpos

variable {T : Type} (tree : TenantTree T) (p : CacheAwarePolicy T)

/-- The worker that the tree names for the text, if it is a healthy one of the list, admits requests. -/
def CacheAwarePolicy.NamesAdmitting (workers : List Worker)
    (requestText : Option (List Char)) : Prop :=
  p.isImbalanced workers = false → ∀ t, p.trees.get? (modelKey workers (getHealthyWorkerIndices workers)) = some t → ∀ i w,
    position workers (p.lookup tree t (requestText.getD [])).2 = some i → workers[i]? = some w → w.isHealthy = true →
      w.circuitBreaker.canExecute = true

theorem position_some {url : String} (h : position workers url = some i) : ∃ w, workers[i]? = some w := by
  obtain ⟨hlt, -⟩ := findIdx?_eq_some_iff_getElem.mp h
  exact ⟨_, getElem?_eq_getElem hlt⟩

theorem CacheAwarePolicy.picks_iff (rng : Rng) (workers : List Worker)
    (requestText : Option (List Char)) (h : getHealthyWorkerIndices workers ≠ []) :
    Picks workers (p.selectWorker tree rng workers requestText).2 ↔ p.NamesAdmitting tree workers requestText := by
  unfold CacheAwarePolicy.selectWorker CacheAwarePolicy.NamesAdmitting
  have hpos : 0 < (getHealthyWorkerIndices workers).length := length_pos_iff.mpr h
  simp only [if_neg h]
  cases hb : p.isImbalanced workers with
  | true =>
    obtain ⟨i, hi, ha⟩ := available_minByKey (fun idx => (workers[idx]?).elim 0 load) h
    simp only [if_true, hi]
    exact ⟨by simp, fun _ => ⟨i, rfl, ha⟩⟩
  | false =>
    simp only [Bool.false_eq_true, if_false, true_implies]
    cases ht : p.trees.get? (modelKey workers (getHealthyWorkerIndices workers)) with
    | none =>
      exact ⟨by simp, fun _ => available_getElem? (rng.draw_lt 0 _ hpos)⟩
    | some t =>
      simp only [Option.some.injEq, forall_eq']
      cases hpos' : position workers (p.lookup tree t (requestText.getD [])).2 with
      | none =>
        exact ⟨by simp, fun _ => available_getElem? hpos⟩
      | some i =>
        obtain ⟨w, hw⟩ := position_some hpos'
        simp only [hw, Option.any_some]
        cases hh : w.isHealthy with
        | false =>
          refine ⟨fun _ i' w' hi' hw' hh' => ?_, fun _ => available_getElem? hpos⟩
          cases hi'
          rw [hw] at hw'
          cases hw'
          rw [hh] at hh'
          cases hh'
        | true =>
          simp only [if_true]
          constructor
          · intro hpick i' w' hi' hw' _
            cases hi'
            obtain ⟨j, hj, v, hv, ha⟩ := hpick
            cases hj
            rw [hw'] at hv
            cases hv
            exact (Bool.and_eq_true_iff.mp ha).2
          · intro hall
            exact ⟨i, rfl, w, hw, Bool.and_eq_true_iff.mpr ⟨hh, hall i w rfl hw hh⟩⟩

/-- With a healthy worker in the list the cache-aware policy always picks some worker. -/
theorem CacheAwarePolicy.selects (rng : Rng) (workers : List Worker)
    (requestText : Option (List Char)) (h : getHealthyWorkerIndices workers ≠ []) :
    ∃ i, (p.selectWorker tree rng workers requestText).2 = some i := by
  have hpos : 0 < (getHealthyWorkerIndices workers).length := length_pos_iff.mpr h
  obtain ⟨i, hi, -⟩ := available_minByKey (fun idx => (workers[idx]?).elim 0 load) h
  obtain ⟨first, hfirst, -⟩ := available_getElem? hpos
  obtain ⟨random, hrandom, -⟩ := available_getElem? (rng.draw_lt 0 _ hpos)
  unfold CacheAwarePolicy.selectWorker
  simp only [if_neg h, hi, hfirst, hrandom]
  split
  · exact ⟨i, rfl⟩
  split
  · split
    · split
      · exact ⟨_, rfl⟩
      · exact ⟨first, rfl⟩
    · exact ⟨first, rfl⟩
  · exact ⟨random, rfl⟩

theorem BucketPolicy.selectWorker_eq (p : BucketPolicy) (env : Env) (workers : List Worker) (requestText : Option (List Char))
    (h : getHealthyWorkerIndices workers ≠ []) : (p.selectWorker env.rng env.order env.now workers requestText).2 =
      position workers (p.prefillUrl env.rng env.order workers (requestText.elim 0 length)) := by
  unfold BucketPolicy.selectWorker
  simp [if_neg h]

def HealthyUrl (workers : List Worker) (url : String) : Prop := ∃ i w, Available workers i ∧ workers[i]? = some w ∧ w.url = url

/-- What the tables of the bucket may name: a URL with the least load if the loads are imbalanced, else the one of the
    boundary for the length of the text. Without one it is the URL of an available worker. -/
def BucketPolicy.MayName (p : BucketPolicy) (workers : List Worker) (charCount : Nat) (url : String) : Prop :=
  match p.buckets.get? (modelKey workers (getHealthyWorkerIndices workers)) with
  | some b =>
    if p.isImbalanced b then
      url ∈ b.charsPerUrl.items.map Prod.fst ∧
        ∀ u ∈ b.charsPerUrl.items.map Prod.fst, (b.charsPerUrl.get? url).getD 0 ≤ (b.charsPerUrl.get? u).getD 0
    else
      match b.findBoundary charCount with
      | some u => if u ≠ "" then url = u else HealthyUrl workers url
      | none => HealthyUrl workers url
  | none => HealthyUrl workers url

/-- Random numbers that begin with `k`. -/
def counting (k : Nat) : Rng where
  draw i n := (i + k) % n
  draw_lt i n hn := Nat.mod_lt _ hn
  varies i n v hn := by
    by_cases h : (i + k) % n = v
    · refine ⟨1, fun h' => ?_⟩
      have hlt := Nat.mod_lt (i + k) (show 0 < n by omega)
      rw [Nat.add_right_comm, Nat.add_mod, h, Nat.mod_eq_of_lt (show 1 < n by omega)] at h'
      rcases lt_or_ge (v + 1) n with hv | hv
      · rw [Nat.mod_eq_of_lt hv] at h'
        omega
      · rw [show v + 1 = n by omega, Nat.mod_self] at h'
        omega
    · exact ⟨0, h⟩

theorem counting_draw {k n : Nat} (h : k < n) : (counting k).draw 0 n = k := by
  show (0 + k) % n = k
  rw [Nat.zero_add, Nat.mod_eq_of_lt h]

/-- A hash map that has the key first, if it has it. -/
def keyFirst (url : String) : Hashing where
  keys l := if url ∈ l then url :: l.erase url else l
  keys_perm l := by
    split
    · exact (perm_cons_erase ‹_›).symm
    · exact .refl l

def still : Env := ⟨counting 0, keyFirst "", 0⟩

theorem healthyUrl_iff (h : getHealthyWorkerIndices workers ≠ []) {url : String} :
    HealthyUrl workers url ↔ ∃ rng, BucketPolicy.randomUrl rng workers = url := by
  simp only [BucketPolicy.randomUrl]
  constructor
  · rintro ⟨i, w, hi, hw, rfl⟩
    obtain ⟨k, hk, rfl⟩ := getElem_of_mem (mem_getHealthyWorkerIndices.mpr hi)
    refine ⟨counting k, ?_⟩
    rw [counting_draw hk, getElem?_eq_getElem hk, Option.bind_some, hw]
    rfl
  · rintro ⟨rng, rfl⟩
    obtain ⟨i, hi, w, hw, ha⟩ := available_getElem? (rng.draw_lt 0 _ (length_pos_iff.mpr h))
    exact ⟨i, w, ⟨w, hw, ha⟩, hw, by rw [hi, Option.bind_some, hw]; rfl⟩

/-- The tables are imbalanced only if there are loads. -/
theorem BucketPolicy.loads_of_isImbalanced {p : BucketPolicy} {b : Bucket} (h : p.isImbalanced b = true) :
    b.charsPerUrl.items.map Prod.fst ≠ [] := by
  intro hnil
  have : b.charsPerUrl.values = [] := by rw [Dict.values, map_eq_nil_iff.mp hnil, map_nil]
  simp [isImbalanced, this] at h

theorem BucketPolicy.mayName_iff (p : BucketPolicy) (h : getHealthyWorkerIndices workers ≠ []) {charCount : Nat} {url : String} :
    p.MayName workers charCount url ↔ ∃ rng order, p.prefillUrl rng order workers charCount = url := by
  have hrandom : HealthyUrl workers url ↔ ∃ rng, ∃ _ : Hashing, randomUrl rng workers = url :=
    (healthyUrl_iff h).trans (exists_congr fun rng => (exists_const_iff.trans (and_iff_right ⟨keyFirst url⟩)).symm)
  unfold MayName prefillUrl
  split
  · rename_i b _
    split
    · rename_i himb
      have hne := loads_of_isImbalanced himb
      constructor
      · rintro ⟨hmem, hleast⟩
        refine ⟨counting 0, keyFirst url, ?_⟩
        simp only [keyFirst, if_pos hmem]
        rw [minByKey_first]
        · rfl
        · exact fun x hx => hleast x (mem_of_mem_erase hx)
      · rintro ⟨rng, order, he⟩
        have hperm := order.keys_perm (b.charsPerUrl.items.map Prod.fst)
        obtain ⟨u, hu, hmin, hleast⟩ := minByKey_spec (fun url => (b.charsPerUrl.get? url).getD 0)
          (fun hnil => hne (hnil ▸ hperm).nil_eq.symm : order.keys _ ≠ [])
        rw [hmin] at he
        obtain rfl : u = url := he
        exact ⟨hperm.mem_iff.mp hu, fun x hx => hleast x (hperm.mem_iff.mpr hx)⟩
    · split
      · rename_i u _
        split
        · refine ⟨fun he => ⟨counting 0, keyFirst url, he.symm⟩, fun h => ?_⟩
          obtain ⟨-, -, he⟩ := h
          exact he.symm
        · exact hrandom
      · exact hrandom
  · exact hrandom

namespace Policy

variable {T : Type} (tree : TenantTree T)

/-- What the selection of a worker rests on beyond the healthy indices: the breaker of the worker that the tree names,
    and the whole state of the workers that the tables of the bucket may name. -/
def NamesAvailable (workers : List Worker) (requestText : Option (List Char)) : Policy T → Prop
  | .cacheAware p => p.NamesAdmitting tree workers requestText
  | .bucket p => ∀ url, p.MayName workers (requestText.elim 0 List.length) url → Picks workers (position workers url)
  | _ => True

/-- The same for a pair. The bucket policy draws a position among the healthy decode workers and returns it as a position
    among all, so these have to stand first. -/
def NamesAvailablePair (prefillWorkers decodeWorkers : List Worker) (requestText : Option (List Char)) : Policy T → Prop
  | .cacheAware p => (∃ i, Available prefillWorkers i) → (∃ j, Available decodeWorkers j) →
      p.NamesAdmitting tree prefillWorkers requestText
  | .bucket p => (∃ i, Available prefillWorkers i) → (∃ j, Available decodeWorkers j) → ∀ url i,
      p.MayName prefillWorkers (requestText.elim 0 List.length) url → position prefillWorkers url = some i →
        Available prefillWorkers i ∧ ∀ j < (getHealthyWorkerIndices decodeWorkers).length, Available decodeWorkers j
  | _ => True

theorem picks_iff (h : getHealthyWorkerIndices workers ≠ []) (requestText : Option (List Char)) (policy : Policy T) :
    (∀ env, Picks workers (policy.selectWorker tree env workers requestText).2) ↔
      policy.NamesAvailable tree workers requestText := by
  cases policy with
  | cacheAware p =>
    have hpicks := fun env : Env => p.picks_iff tree env.rng workers requestText h
    exact ⟨fun hall => (hpicks still).mp (hall still), fun hnames env => (hpicks env).mpr hnames⟩
  | bucket p =>
    have heq := fun env => p.selectWorker_eq env workers requestText h
    constructor
    · intro hall url hurl
      obtain ⟨rng, order, rfl⟩ := (p.mayName_iff h).mp hurl
      have := hall ⟨rng, order, 0⟩
      rwa [show (selectWorker tree _ workers requestText (.bucket p)).2 = _ from heq _] at this
    · intro hnames env
      rw [show (selectWorker tree _ workers requestText (.bucket p)).2 = _ from heq env]
      exact hnames _ ((p.mayName_iff h).mpr ⟨env.rng, env.order, rfl⟩)
  | powerOfTwo p => exact ⟨fun _ => trivial, fun _ env => p.picks env.rng h⟩
  | roundRobin p => exact ⟨fun _ => trivial, fun _ _ => p.picks h⟩

theorem selectWorker_none (env : Env) (workers : List Worker) (requestText : Option (List Char)) (policy : Policy T)
    (h : getHealthyWorkerIndices workers = []) : (policy.selectWorker tree env workers requestText).2 = none := by
  cases policy with
  | cacheAware p => simp [Policy.selectWorker, CacheAwarePolicy.selectWorker, h]
  | bucket p => simp [Policy.selectWorker, BucketPolicy.selectWorker, h]
  | powerOfTwo p => simp [Policy.selectWorker, PowerOfTwoPolicy.selectWorker, h]
  | roundRobin p => simp [Policy.selectWorker, RoundRobinPolicy.selectWorker, h]

theorem available_of_picks (env : Env) (workers : List Worker) (requestText : Option (List Char)) (policy : Policy T)
    (hpicks : getHealthyWorkerIndices workers ≠ [] → Picks workers (policy.selectWorker tree env workers requestText).2) :
    ∀ i, (policy.selectWorker tree env workers requestText).2 = some i → Available workers i := by
  intro i hi
  by_cases h : getHealthyWorkerIndices workers = []
  · rw [selectWorker_none tree env workers requestText policy h] at hi
    cases hi
  obtain ⟨j, hj, ha⟩ := hpicks h
  rw [hi] at hj
  exact Option.some.inj hj ▸ ha

/-- What a pair is made of. -/
def secondOf (env' : Env) (decodeWorkers : List Worker) (requestText : Option (List Char)) : Policy T → Option Nat
  | .cacheAware _ => minByKey (fun idx => (decodeWorkers[idx]?).elim 0 load) (getHealthyWorkerIndices decodeWorkers)
  | .bucket _ =>
    if getHealthyWorkerIndices decodeWorkers = [] then none
    else some (env'.rng.draw 0 (getHealthyWorkerIndices decodeWorkers).length)
  | policy => (policy.selectWorker tree env' decodeWorkers requestText).2

theorem pair_eq_some (env env' : Env) (workers decodeWorkers : List Worker) (requestText : Option (List Char)) (policy : Policy T)
    {j : Nat} : (policy.selectWorkerPair tree env env' workers decodeWorkers requestText).2 = some (i, j) ↔
      (policy.selectWorker tree env workers requestText).2 = some i ∧
      (policy.selectWorker tree env workers requestText).1.secondOf tree env' decodeWorkers requestText = some j := by
  unfold selectWorkerPair secondOf
  dsimp only
  split
  · simp [*]
  · rename_i hi
    rw [hi]
    generalize (policy.selectWorker tree env workers requestText).1 = policy'
    cases policy' with
    | cacheAware p =>
      by_cases hd : getHealthyWorkerIndices decodeWorkers = []
      · simp [hd, minByKey]
      · simp [hd, and_comm]
    | bucket p => by_cases hd : getHealthyWorkerIndices decodeWorkers = [] <;> simp [hd]
    | powerOfTwo p => simp [and_comm]
    | roundRobin p => simp [and_comm]

theorem healthy_of_selects {env : Env} {requestText : Option (List Char)} {policy : Policy T}
    (h : (policy.selectWorker tree env workers requestText).2 = some i) : getHealthyWorkerIndices workers ≠ [] := by
  intro hnil
  rw [selectWorker_none tree env workers requestText policy hnil] at h
  cases h

theorem pair_iff (workers decodeWorkers : List Worker) (requestText : Option (List Char)) (policy : Policy T) :
    (∀ env env' i j, (policy.selectWorkerPair tree env env' workers decodeWorkers requestText).2 = some (i, j) →
      Available workers i ∧ Available decodeWorkers j) ↔ policy.NamesAvailablePair tree workers decodeWorkers requestText := by
  simp only [pair_eq_some, and_imp]
  cases policy with
  | cacheAware p =>
    constructor
    · intro h ha hd
      obtain ⟨i, hi⟩ := p.selects tree still.rng workers requestText (healthy_ne_nil ha)
      obtain ⟨j, hj, -⟩ := available_minByKey (fun idx => (decodeWorkers[idx]?).elim 0 load) (healthy_ne_nil hd)
      exact (p.picks_iff tree still.rng workers requestText (healthy_ne_nil ha)).mp ⟨i, hi, (h still still i j hi hj).1⟩
    · intro h env env' i j hi hj
      have hw := healthy_of_selects tree hi
      have hd : getHealthyWorkerIndices decodeWorkers ≠ [] := by
        intro hnil
        simp [secondOf, selectWorker, hnil, minByKey] at hj
      obtain ⟨k, hk, ha⟩ := (p.picks_iff tree env.rng workers requestText hw).mpr
        (h (available_of_ne_nil hw) (available_of_ne_nil hd))
      obtain ⟨l, hl, hla⟩ := available_minByKey (fun idx => (decodeWorkers[idx]?).elim 0 load) hd
      exact ⟨Option.some.inj (hk.symm.trans hi) ▸ ha, Option.some.inj (hl.symm.trans hj) ▸ hla⟩
  | bucket p =>
    constructor
    · intro h ha hd url i hurl hpos
      obtain ⟨rng, order, rfl⟩ := (p.mayName_iff (healthy_ne_nil ha)).mp hurl
      have hi := (p.selectWorker_eq ⟨rng, order, 0⟩ workers requestText (healthy_ne_nil ha)).trans hpos
      have hall (j : Nat) (hj : j < (getHealthyWorkerIndices decodeWorkers).length) :=
        h ⟨rng, order, 0⟩ { still with rng := counting j } i j hi (by
          simp only [selectWorker, secondOf, if_neg (healthy_ne_nil hd), counting_draw hj])
      exact ⟨(hall 0 (length_pos_iff.mpr (healthy_ne_nil hd))).1, fun j hj => (hall j hj).2⟩
    · intro h env env' i j hi hj
      have hw := healthy_of_selects tree hi
      have heq := p.selectWorker_eq env workers requestText hw
      obtain ⟨hd, hj⟩ : getHealthyWorkerIndices decodeWorkers ≠ [] ∧ _ := Option.ite_none_left_eq_some.mp hj
      obtain ⟨ha, hall⟩ := h (available_of_ne_nil hw) (available_of_ne_nil hd) _ i
        ((p.mayName_iff hw).mpr ⟨env.rng, env.order, rfl⟩) (heq.symm.trans hi)
      exact ⟨ha, hall j (Option.some.inj hj ▸ env'.rng.draw_lt 0 _ (length_pos_iff.mpr hd))⟩
  | powerOfTwo p =>
    refine ⟨fun _ => trivial, fun _ env env' i j hi hj => ?_⟩
    exact ⟨available_of_picks tree env workers requestText (.powerOfTwo p) (p.picks env.rng) i hi,
      available_of_picks tree env' decodeWorkers requestText (.powerOfTwo p) (p.picks env'.rng) j hj⟩
  | roundRobin p =>
    refine ⟨fun _ => trivial, fun _ env env' i j hi hj => ?_⟩
    exact ⟨available_of_picks tree env workers requestText (.roundRobin p) p.picks i hi,
      available_of_picks tree env' decodeWorkers requestText (.roundRobin (p.selectWorker workers).1)
        (p.selectWorker workers).1.picks j hj⟩

/-- Whatever is drawn, the policies pick an available worker, alone and in pairs, exactly if the worker that a tree names admits
    requests, every worker that a bucket may name is available, and for pairs the available decode workers stand first. -/
theorem select_available_iff (policy : Policy T) (workers decodeWorkers : List Worker) (requestText : Option (List Char)) :
    ((∀ env, (∃ i, Available workers i) →
        ∃ i, (policy.selectWorker tree env workers requestText).2 = some i ∧ Available workers i) ↔
      ((∃ i, Available workers i) → policy.NamesAvailable tree workers requestText)) ∧
    ((∀ env env' i j, (policy.selectWorkerPair tree env env' workers decodeWorkers requestText).2 = some (i, j) →
        Available workers i ∧ Available decodeWorkers j) ↔
      policy.NamesAvailablePair tree workers decodeWorkers requestText) := by
  refine ⟨?_, policy.pair_iff tree workers decodeWorkers requestText⟩
  rw [forall_comm]
  exact forall_congr' fun ha => picks_iff tree (healthy_ne_nil ha) requestText policy

end Policy

/-! ## Picks of unavailable workers -/

/-- A tree that has no text in it: only its tenants count. -/
def bareTree : TenantTree (List String) where
  new := []
  insert t _ tenant := if tenant ∈ t then t else t ++ [tenant]
  prefixMatch t _ := (t, [], t.head?.getD "empty")
  getSmallestTenant t := t.head?.getD "empty"
  removeTenant t tenant := t.filter (· != tenant)

def closedBreaker : CircuitBreaker := ⟨.closed, false⟩

def up (url : String) : Worker := ⟨url, "unknown", 0, true, closedBreaker⟩

def down (url : String) : Worker := { up url with isHealthy := false }

def tripped (url : String) : Worker := { up url with circuitBreaker := ⟨.open_, false⟩ }

def cachePolicy : CacheAwarePolicy (List String) :=
  ({ config := ⟨32, fun _ _ => false, fun _ _ => false, false⟩, trees := .empty } : CacheAwarePolicy
    (List String)).initWorkers bareTree
    [up "a"]

def bucketPolicy : BucketPolicy :=
  ({ config := ⟨32, fun _ _ => false, 5⟩, buckets := .empty } : BucketPolicy).initPrefillWorkerUrls [up "a", up "b"]

/-- The tree names a worker with an open breaker; the bucket names a worker that is down; the position among
    the healthy decode workers
is not one among all. -/
theorem unavailable_picks : ((Policy.cacheAware cachePolicy).selectWorker bareTree still [tripped "a", up "b"] none).2 = some 0 ∧
      ¬ Available [tripped "a", up "b"] 0 ∧
    ((Policy.bucket bucketPolicy : Policy (List String)).selectWorker bareTree still [down "a", up "b"] none).2 = some 0 ∧
      ¬ Available [down "a", up "b"] 0 ∧
    ((Policy.bucket bucketPolicy : Policy (List String)).selectWorkerPair bareTree still still [up "a", up "b"]
      [down "c", up "d"] none).2 = some (0, 0) ∧ ¬ Available [down "c", up "d"] 0 := by
  refine ⟨by decide, ?_, by decide, ?_, by decide, ?_⟩
  all_goals
    intro h
    obtain ⟨w, hw, ha⟩ := h
    cases hw
    cases ha

end DynaSpec.Router.Policies
