/-
  DynaSpec.Router.WorkerRegistry — the registry of workers and its indexes
  (sgl-router/src/core/worker_registry.rs).

  A worker is kept under its id; one map leads from URLs to ids, and four indexes lead from the
  model (twice: to ids and to the workers themselves), the type and the connection mode. The ids
  are drawn from a generator that never repeats one (`Uuids`), the workers are shared objects
  told apart by their address.

  Registering a URL that is already registered keeps its id and appends to the indexes once
  more, and nothing takes the old entries out. So `registry_agrees_iff`: the answers of all
  indexes agree in every state of a run exactly if every registration of the run is of a URL
  that is not registered at that moment. `registering_again_leaves_old_model` is the shortest
  run in which they do not.
-/

import DynaSpec.Lib.Dict
import Mathlib.Data.List.Induction

namespace DynaSpec.Router.Registry

open DynaSpec.Lib Dict List Option

inductive WorkerType where
  | regular
  | prefill (bootstrapPort : Option UInt16)
  | decode
  deriving DecidableEq

inductive ConnectionMode where
  | http
  | grpc (port : Option UInt16)
  deriving DecidableEq

abbrev WorkerId := String

/-- A worker behind an `Arc`, with the attributes that the registry reads; they never change. -/
structure Worker where
  address : Nat
  url : String
  modelLabel : Option String
  workerType : WorkerType
  connectionMode : ConnectionMode
  deriving DecidableEq

def Worker.modelId (w : Worker) : String := w.modelLabel.getD "unknown"

/-- `Uuid::new_v4`, called again and again: no two calls give the same id. -/
structure Uuids where
  draw : Nat → WorkerId
  injective : Function.Injective draw

structure WorkerRegistry where
  workers : Dict WorkerId Worker
  modelWorkers : Dict String (List WorkerId)
  modelIndex : Dict String (List Worker)
  typeWorkers : Dict WorkerType (List WorkerId)
  connectionWorkers : Dict ConnectionMode (List WorkerId)
  urlToId : Dict String WorkerId
  drawn : Nat

namespace WorkerRegistry

def new : WorkerRegistry := ⟨.empty, .empty, .empty, .empty, .empty, .empty, 0⟩

end WorkerRegistry

section Index

variable {κ α : Type} [DecidableEq κ]

variable (d : Dict κ (List α))

/-- `entry(k).or_default().push(a)`. -/
def pushEntry (k : κ) (a : α) : Dict κ (List α) := d.set k ((d.get? k).getD [] ++ [a])

/-- `if let Some(mut list) = get_mut(k) { list.retain(keep) }`. -/
def retainEntry (k : κ) (keep : α → Bool) : Dict κ (List α) :=
  match d.get? k with
  | some list => d.set k (list.filter keep)
  | none => d

def entry (k : κ) : List α := (d.get? k).getD []

@[simp] theorem entry_empty (k : κ) : entry (.empty : Dict κ (List α)) k = [] := rfl

theorem entry_pushEntry (k k' : κ) (a : α) : entry (pushEntry d k a) k' = if k' = k then entry d k ++ [a] else entry d k' := by
  unfold entry pushEntry
  rw [get?_set]
  split <;> rfl

theorem nodup_pushEntry {d : Dict κ (List α)} {a : α} (h : ∀ k, (entry d k).Nodup) (hfresh : ∀ k, a ∉ entry d k) (k' k : κ) :
    (entry (pushEntry d k' a) k).Nodup := by
  rw [entry_pushEntry]
  split
  · exact (perm_append_singleton _ _).nodup_iff.mpr (nodup_cons.mpr ⟨hfresh _, h _⟩)
  · exact h k

theorem entry_retainEntry (k k' : κ) (keep : α → Bool) :
    entry (retainEntry d k keep) k' = if k' = k then (entry d k).filter keep else entry d k' := by
  unfold entry retainEntry
  cases hk : d.get? k with
  | none =>
    dsimp only
    split
    · rename_i he
      rw [he, hk]
      rfl
    · rfl
  | some list =>
    rw [get?_set]
    split <;> rfl

end Index

namespace WorkerRegistry

/-- Which id `register` uses: the one the URL has, or the next of the generator. -/
def idFor (uuids : Uuids) (r : WorkerRegistry) (worker : Worker) : WorkerId × Nat :=
  match r.urlToId.get? worker.url with
  | some existingId => (existingId, r.drawn)
  | none => (uuids.draw r.drawn, r.drawn + 1)

def register (uuids : Uuids) (r : WorkerRegistry) (worker : Worker) : WorkerRegistry × WorkerId :=
  let (workerId, drawn) := r.idFor uuids worker
  ({ workers := r.workers.set workerId worker
     urlToId := r.urlToId.set worker.url workerId
     modelWorkers := pushEntry r.modelWorkers worker.modelId workerId
     modelIndex := pushEntry r.modelIndex worker.modelId worker
     typeWorkers := pushEntry r.typeWorkers worker.workerType workerId
     connectionWorkers := pushEntry r.connectionWorkers worker.connectionMode workerId
     drawn }, workerId)

variable (r : WorkerRegistry)

def remove (workerId : WorkerId) : WorkerRegistry × Option Worker :=
  match r.workers.get? workerId with
  | some worker =>
    ({ workers := r.workers.erase workerId
       urlToId := r.urlToId.erase worker.url
       modelWorkers := retainEntry r.modelWorkers worker.modelId (· != workerId)
       modelIndex := retainEntry r.modelIndex worker.modelId (·.url != worker.url)
       typeWorkers := retainEntry r.typeWorkers worker.workerType (· != workerId)
       connectionWorkers := retainEntry r.connectionWorkers worker.connectionMode (· != workerId)
       drawn := r.drawn }, some worker)
  | none => (r, none)

def removeByUrl (url : String) : WorkerRegistry × Option Worker :=
  match r.urlToId.get? url with
  | some workerId => remove { r with urlToId := r.urlToId.erase url } workerId
  | none => (r, none)

def get (workerId : WorkerId) : Option Worker := r.workers.get? workerId

def getByUrl (url : String) : Option Worker := (r.urlToId.get? url).bind r.get

def getByModel (modelId : String) : List Worker := (entry r.modelWorkers modelId).filterMap r.get

def getByModelFast (modelId : String) : List Worker := entry r.modelIndex modelId

def getByType (workerType : WorkerType) : List Worker := (entry r.typeWorkers workerType).filterMap r.get

def getByConnection (connectionMode : ConnectionMode) : List Worker :=
  (entry r.connectionWorkers connectionMode).filterMap r.get

def getAll : List Worker := r.workers.values

end WorkerRegistry

open WorkerRegistry (getByType getByUrl idFor)

/-! ## Runs -/

inductive Call where
  | register (worker : Worker)
  | remove (workerId : WorkerId)
  | removeByUrl (url : String)

def exec (uuids : Uuids) (r : WorkerRegistry) : Call → WorkerRegistry
  | .register worker => (r.register uuids worker).1
  | .remove workerId => (r.remove workerId).1
  | .removeByUrl url => (r.removeByUrl url).1

def run (uuids : Uuids) (calls : List Call) : WorkerRegistry := calls.foldl (exec uuids) .new

/-! ## What the indexes should answer -/

/-- A list of workers holds exactly the registered workers with the given value of an attribute, each once. -/
structure Answers {κ : Type} (r : WorkerRegistry) (attr : Worker → κ) (value : κ) (answer : List Worker) : Prop where
  nodup : answer.Nodup
  mem : ∀ w, w ∈ answer ↔ w ∈ r.getAll ∧ attr w = value

structure Agrees (r : WorkerRegistry) : Prop where
  model : ∀ m, Answers r Worker.modelId m (r.getByModel m)
  modelFast : ∀ m, Answers r Worker.modelId m (r.getByModelFast m)
  type : ∀ t, Answers r Worker.workerType t (r.getByType t)
  connection : ∀ c, Answers r Worker.connectionMode c (r.getByConnection c)
  urls : ∀ url id, r.urlToId.get? url = some id ↔ ∃ w, r.get id = some w ∧ w.url = url
  urlOf : ∀ url url' id, r.urlToId.get? url = some id → r.urlToId.get? url' = some id → url = url'

/-- A call that does not register a URL that is registered. -/
def FirstRegistration (r : WorkerRegistry) : Call → Prop
  | .register worker => r.getByUrl worker.url = none
  | _ => True

/-! ## The index of an attr -/

section Indexes

variable {κ : Type} [DecidableEq κ] {attr : Worker → κ} {workers : Dict WorkerId Worker} {ids : Dict κ (List WorkerId)}

/-- An index by ids: under each value the ids of the workers with that value of the attribute, each once. -/
structure IndexesIds (attr : Worker → κ) (workers : Dict WorkerId Worker) (ids : Dict κ (List WorkerId)) : Prop where
  nodup : ∀ k, (entry ids k).Nodup
  mem : ∀ k id, id ∈ entry ids k ↔ ∃ w, workers.get? id = some w ∧ attr w = k

variable {id : WorkerId} {w : Worker}

theorem IndexesIds.push (h : IndexesIds attr workers ids) (hid : workers.get? id = none) (w : Worker) :
    IndexesIds attr (workers.set id w) (pushEntry ids (attr w) id) := by
  have hfresh : ∀ k, id ∉ entry ids k := fun k hk => by
    obtain ⟨v, hv, -⟩ := (h.mem k id).mp hk
    rw [hid] at hv
    cases hv
  refine ⟨nodup_pushEntry h.nodup hfresh _, fun k id' => ?_⟩
  rw [entry_pushEntry, get?_set]
  by_cases hid' : id' = id
  · subst hid'
    by_cases hk : k = attr w
    · simp [hk]
    · simp [hk, hfresh k, Ne.symm hk]
  by_cases hk : k = attr w
  · subst hk
    simp [hid', h.mem]
  · simp [hid', hk, h.mem]

theorem IndexesIds.retain (h : IndexesIds attr workers ids) (hw : workers.get? id = some w) :
    IndexesIds attr (workers.erase id) (retainEntry ids (attr w) (· != id)) := by
  refine ⟨fun k => ?_, fun k id' => ?_⟩
  · rw [entry_retainEntry]
    split
    · exact (h.nodup _).filter _
    · exact h.nodup k
  rw [entry_retainEntry, get?_erase]
  by_cases hid' : id' = id
  · subst hid'
    by_cases hk : k = attr w
    · simp [hk]
    · -- the id of `w` stands only under the value that `w` has
      simp [hk, h.mem, hw, Ne.symm hk]
  by_cases hk : k = attr w
  · subst hk
    simp [hid', h.mem]
  · simp [hid', hk, h.mem]

/-- An index by workers: under each value the registered workers with that value of the attribute, each once. -/
structure IndexesWorkers (attr : Worker → κ) (workers : Dict WorkerId Worker) (index : Dict κ (List Worker)) : Prop where
  nodup : ∀ k, (entry index k).Nodup
  mem : ∀ k w, w ∈ entry index k ↔ (∃ id, workers.get? id = some w) ∧ attr w = k

variable {index : Dict κ (List Worker)}

theorem IndexesWorkers.push (h : IndexesWorkers attr workers index) (hid : workers.get? id = none)
    (hw : ∀ id', workers.get? id' ≠ some w) : IndexesWorkers attr (workers.set id w) (pushEntry index (attr w) w) := by
  have hget : ∀ v, (∃ id', (workers.set id w).get? id' = some v) ↔ v = w ∨ ∃ id', workers.get? id' = some v := fun v => by
    constructor
    · intro hex
      obtain ⟨id', hv⟩ := hex
      rw [get?_set] at hv
      split at hv
      · exact .inl (some.inj hv).symm
      · exact .inr ⟨id', hv⟩
    · intro hor
      rcases hor with rfl | ⟨id', hv⟩
      · exact ⟨id, by rw [get?_set, if_pos rfl]⟩
      refine ⟨id', ?_⟩
      rw [get?_set, if_neg, hv]
      intro he
      rw [he, hid] at hv
      cases hv
  have hfresh : ∀ k, w ∉ entry index k := fun k hk => by
    obtain ⟨⟨id', hv⟩, -⟩ := (h.mem k w).mp hk
    exact hw id' hv
  refine ⟨nodup_pushEntry h.nodup hfresh _, fun k v => ?_⟩
  rw [entry_pushEntry, hget]
  by_cases hvw : v = w
  · subst hvw
    by_cases hk : k = attr v
    · simp [hk]
    · simp [hk, hfresh k, Ne.symm hk]
  by_cases hk : k = attr w
  · subst hk
    simp [hvw, h.mem]
  · simp [hvw, hk, h.mem]

/-- The workers are taken out by their URL, which no other registered worker has. -/
theorem IndexesWorkers.retain (h : IndexesWorkers attr workers index) (hw : workers.get? id = some w)
    (hurl : ∀ id' v, workers.get? id' = some v → v.url = w.url → id' = id) :
    IndexesWorkers attr (workers.erase id) (retainEntry index (attr w) (·.url != w.url)) := by
  have hget : ∀ v, (∃ id', (workers.erase id).get? id' = some v) ↔ v.url ≠ w.url ∧ ∃ id', workers.get? id' = some v := by
    intro v
    constructor
    · intro hex
      obtain ⟨id', hv⟩ := hex
      obtain ⟨hne, hv⟩ := get?_erase_eq_some.mp hv
      exact ⟨fun he => hne (hurl id' v hv he), id', hv⟩
    · intro hand
      obtain ⟨hne, id', hv⟩ := hand
      refine ⟨id', get?_erase_eq_some.mpr ⟨fun he => ?_, hv⟩⟩
      rw [he, hw] at hv
      exact hne (some.inj hv ▸ rfl)
  refine ⟨fun k => ?_, fun k v => ?_⟩
  · rw [entry_retainEntry]
    split
    · exact (h.nodup _).filter _
    · exact h.nodup k
  rw [entry_retainEntry, hget]
  by_cases hk : k = attr w
  · subst hk
    simp only [if_true, mem_filter, h.mem, bne_iff_ne, ne_eq]
    exact ⟨fun hv => ⟨⟨hv.2, hv.1.1⟩, hv.1.2⟩, fun hv => ⟨⟨hv.1.2, hv.2⟩, hv.1.1⟩⟩
  rw [if_neg hk, h.mem]
  refine ⟨fun hv => ⟨⟨fun he => hk ?_, hv.1⟩, hv.2⟩, fun hv => ⟨hv.1.2, hv.2⟩⟩
  obtain ⟨⟨id', hid'⟩, hva⟩ := hv
  rw [hurl id' v hid' he, hw] at hid'
  exact some.inj hid' ▸ hva.symm

end Indexes

/-! ## The invariant of runs without second registrations -/

structure Indexed (uuids : Uuids) (r : WorkerRegistry) : Prop where
  model : IndexesIds Worker.modelId r.workers r.modelWorkers
  type : IndexesIds Worker.workerType r.workers r.typeWorkers
  connection : IndexesIds Worker.connectionMode r.workers r.connectionWorkers
  modelFast : IndexesWorkers Worker.modelId r.workers r.modelIndex
  urls : ∀ url id, r.urlToId.get? url = some id ↔ ∃ w, r.get id = some w ∧ w.url = url
  issued : ∀ id w, r.get id = some w → ∃ k < r.drawn, id = uuids.draw k

namespace Indexed

variable {uuids : Uuids} {r : WorkerRegistry}

theorem mem_getAll {w : Worker} : w ∈ r.getAll ↔ ∃ id, r.get id = some w := by
  unfold WorkerRegistry.getAll WorkerRegistry.get
  rw [mem_values]
  exact exists_congr fun id => get?_eq_some.symm

section
variable (h : Indexed uuids r)
include h

/-- A registered worker is registered under one id only, the one its URL leads to. -/
theorem id_unique {id id' : WorkerId} {w w' : Worker} (hw : r.get id = some w) (hw' : r.get id' = some w')
    (hurl : w.url = w'.url) : id = id' := by
  have h1 := (h.urls w.url id).mpr ⟨w, hw, rfl⟩
  have h2 := (h.urls w.url id').mpr ⟨w', hw', hurl.symm⟩
  rw [h1] at h2
  exact some.inj h2

theorem answers {κ : Type} [DecidableEq κ] {attr : Worker → κ} {ids : Dict κ (List WorkerId)}
    (hids : IndexesIds attr r.workers ids) (k : κ) : Answers r attr k ((entry ids k).filterMap r.get) := by
  refine ⟨(hids.nodup k).filterMap fun id id' w hw hw' => ?_, fun w => ?_⟩
  · exact h.id_unique (mem_def.mp hw) (mem_def.mp hw') rfl
  rw [mem_filterMap, mem_getAll]
  constructor
  · intro hex
    obtain ⟨id, hid, hw⟩ := hex
    obtain ⟨v, hv, hk⟩ := (hids.mem k id).mp hid
    have hvw : v = w := some.inj (hv.symm.trans hw)
    exact ⟨⟨id, hw⟩, hvw ▸ hk⟩
  · intro hex
    obtain ⟨⟨id, hw⟩, hk⟩ := hex
    exact ⟨id, (hids.mem k id).mpr ⟨w, hw, hk⟩, hw⟩

theorem agrees : Agrees r where
  model := h.answers h.model
  modelFast m := ⟨h.modelFast.nodup m, fun w => (h.modelFast.mem m w).trans (and_congr_left' mem_getAll.symm)⟩
  type := h.answers h.type
  connection := h.answers h.connection
  urls := h.urls
  urlOf url url' id hurl hurl' := by
    obtain ⟨w, hw, rfl⟩ := (h.urls url id).mp hurl
    obtain ⟨w', hw', rfl⟩ := (h.urls url' id).mp hurl'
    rw [some.inj (hw.symm.trans hw')]

theorem getByUrl_eq_none {url : String} : r.getByUrl url = none ↔ r.urlToId.get? url = none := by
  unfold getByUrl
  cases hurl : r.urlToId.get? url with
  | none => simp
  | some id =>
    obtain ⟨w, hw, -⟩ := (h.urls url id).mp hurl
    simp [hw]

end

end Indexed

theorem indexed_new (uuids : Uuids) : Indexed uuids .new where
  model := ⟨fun _ => nodup_nil, fun k id => by simp [WorkerRegistry.new]⟩
  type := ⟨fun _ => nodup_nil, fun k id => by simp [WorkerRegistry.new]⟩
  connection := ⟨fun _ => nodup_nil, fun k id => by simp [WorkerRegistry.new]⟩
  modelFast := ⟨fun _ => nodup_nil, fun k w => by simp [WorkerRegistry.new]⟩
  urls url id := by simp [WorkerRegistry.get, WorkerRegistry.new]
  issued id w hw := by simp [WorkerRegistry.get, WorkerRegistry.new] at hw

namespace Indexed

variable {uuids : Uuids} {r : WorkerRegistry}

theorem register (h : Indexed uuids r) {worker : Worker} (hnew : r.getByUrl worker.url = none) :
    Indexed uuids (r.register uuids worker).1 := by
  rw [h.getByUrl_eq_none] at hnew
  have hid : r.get (uuids.draw r.drawn) = none := by
    cases hg : r.get (uuids.draw r.drawn) with
    | none => rfl
    | some w =>
      obtain ⟨k, hk, he⟩ := h.issued _ w hg
      exact absurd (uuids.injective he) (Nat.ne_of_gt hk)
  have hurlNe : ∀ id w, r.get id = some w → w.url ≠ worker.url := fun id w hw he => by
    have := (h.urls worker.url id).mpr ⟨w, hw, he⟩
    rw [hnew] at this
    cases this
  have hfor : r.idFor uuids worker = (uuids.draw r.drawn, r.drawn + 1) := by
    unfold idFor
    rw [hnew]
  unfold WorkerRegistry.register
  rw [hfor]
  refine ⟨h.model.push hid worker, h.type.push hid worker, h.connection.push hid worker,
    h.modelFast.push hid fun id hw => hurlNe id worker hw rfl, fun url id => ?_, fun id w hw => ?_⟩
  · show (r.urlToId.set worker.url (uuids.draw r.drawn)).get? url = some id ↔
      ∃ w, (r.workers.set (uuids.draw r.drawn) worker).get? id = some w ∧ w.url = url
    rw [get?_set, get?_set]
    by_cases hurl : url = worker.url
    · subst hurl
      by_cases he : id = uuids.draw r.drawn
      · simp [he]
      rw [if_pos rfl, if_neg he]
      refine ⟨fun h' => absurd (some.inj h').symm he, fun h' => ?_⟩
      obtain ⟨w, hw, hwu⟩ := h'
      exact absurd hwu (hurlNe id w hw)
    rw [if_neg hurl, h.urls]
    by_cases he : id = uuids.draw r.drawn
    · rw [if_pos he, he, hid]
      simp [Ne.symm hurl]
    · rw [if_neg he]
      rfl
  · have hw' : (r.workers.set (uuids.draw r.drawn) worker).get? id = some w := hw
    rw [get?_set] at hw'
    split at hw'
    · rename_i he
      exact ⟨r.drawn, Nat.lt_succ_self _, he⟩
    · obtain ⟨k, hk, he⟩ := h.issued id w hw'
      exact ⟨k, Nat.lt_succ_of_lt hk, he⟩

/-- `remove` does the same whether or not the URL has been taken out of `url_to_id` before. -/
theorem remove (h : Indexed uuids r) {id : WorkerId} {w : Worker} (hw : r.get id = some w) (urls : Dict String WorkerId)
    (hurls : urls.erase w.url = r.urlToId.erase w.url) :
    Indexed uuids (WorkerRegistry.remove { r with urlToId := urls } id).1 := by
  unfold WorkerRegistry.remove
  have hget : r.workers.get? id = some w := hw
  rw [hget]
  dsimp only
  rw [hurls]
  refine ⟨h.model.retain hw, h.type.retain hw, h.connection.retain hw,
    h.modelFast.retain hw fun id' v hv he => h.id_unique hv hw he, fun url id' => ?_, fun id' v hv => ?_⟩
  · show (r.urlToId.erase w.url).get? url = some id' ↔ ∃ v, (r.workers.erase id).get? id' = some v ∧ v.url = url
    rw [get?_erase, get?_erase]
    by_cases hid : id' = id
    · rw [if_pos hid]
      refine ⟨fun hu => ?_, fun hex => ?_⟩
      · split at hu
        · cases hu
        rename_i hne
        obtain ⟨v, hv, hvu⟩ := (h.urls url id').mp hu
        rw [hid, hw] at hv
        exact absurd (hvu.symm.trans (congrArg Worker.url (some.inj hv).symm)) hne
      · obtain ⟨v, hv, -⟩ := hex
        cases hv
    rw [if_neg hid]
    by_cases hu : url = w.url
    · rw [if_pos hu]
      refine ⟨by simp, fun hex => ?_⟩
      obtain ⟨v, hv, hvu⟩ := hex
      exact absurd (h.id_unique hv hw (hvu.trans hu)) hid
    · rw [if_neg hu]
      exact h.urls url id'
  · exact h.issued id' v (get?_erase_eq_some.mp hv).2

theorem exec (h : Indexed uuids r) {c : Call} (hc : FirstRegistration r c) : Indexed uuids (exec uuids r c) := by
  cases c with
  | register worker => exact h.register hc
  | remove id =>
    show Indexed uuids (r.remove id).1
    cases hw : r.get id with
    | none =>
      have hget : r.workers.get? id = none := hw
      unfold WorkerRegistry.remove
      rw [hget]
      exact h
    | some w => exact h.remove hw r.urlToId rfl
  | removeByUrl url =>
    show Indexed uuids (r.removeByUrl url).1
    unfold WorkerRegistry.removeByUrl
    cases hurl : r.urlToId.get? url with
    | none => exact h
    | some id =>
      obtain ⟨w, hw, rfl⟩ := (h.urls url id).mp hurl
      refine h.remove hw (r.urlToId.erase w.url) ?_
      unfold erase
      simp

end Indexed

/-! ## Registering a URL again -/

/-- After a second registration some index answers with a worker it should not, or with one twice. -/
theorem not_agrees_of_registered {uuids : Uuids} {r : WorkerRegistry} (h : Indexed uuids r) {worker : Worker}
    (hold : r.getByUrl worker.url ≠ none) : ¬ Agrees (r.register uuids worker).1 := by
  intro hagrees
  cases hurl : r.urlToId.get? worker.url with
  | none => exact hold (h.getByUrl_eq_none.mpr hurl)
  | some id =>
    obtain ⟨old, hget, -⟩ := (h.urls worker.url id).mp hurl
    have hfor : r.idFor uuids worker = (id, r.drawn) := by
      unfold idFor
      rw [hurl]
    have hgetNew : (r.register uuids worker).1.get id = some worker := by
      unfold WorkerRegistry.register WorkerRegistry.get
      rw [hfor]
      rw [get?_set, if_pos rfl]
    have hmem : id ∈ entry r.typeWorkers old.workerType := (h.type.mem _ id).mpr ⟨old, hget, rfl⟩
    have hans := hagrees.type old.workerType
    unfold getByType at hans
    rw [show (r.register uuids worker).1.typeWorkers =
      pushEntry r.typeWorkers worker.workerType id by unfold WorkerRegistry.register; rw [hfor],
      entry_pushEntry] at hans
    split at hans
    · -- the same type: the id stands there twice
      rename_i htype
      have hnd := hans.nodup
      rw [filterMap_append, nodup_append] at hnd
      exact hnd.2.2 worker (mem_filterMap.mpr ⟨id, htype ▸ hmem, hgetNew⟩) worker
        (mem_filterMap.mpr ⟨id, mem_singleton_self id, hgetNew⟩) rfl
    -- another type: the id still stands under the old one
    rename_i htype
    have hw := (hans.mem worker).mp (mem_filterMap.mpr ⟨id, hmem, hgetNew⟩)
    exact htype hw.2.symm

theorem run_append (uuids : Uuids) (calls : List Call) (c : Call) :
    run uuids (calls ++ [c]) = exec uuids (run uuids calls) c := by
  unfold run
  rw [foldl_append]
  rfl

theorem run_indexed (uuids : Uuids) {calls : List Call}
    (h : ∀ k c, calls[k]? = some c → FirstRegistration (run uuids (calls.take k)) c) : Indexed uuids (run uuids calls) := by
  induction calls using reverseRecOn with
  | nil => exact indexed_new uuids
  | append_singleton calls c ih =>
    rw [run_append]
    refine (ih fun k c' hk => ?_).exec ?_
    · have hlt : k < calls.length := (List.getElem?_eq_some_iff.mp hk).1
      have := h k c' (by rw [getElem?_append_left hlt, hk])
      rwa [take_append_of_le_length (Nat.le_of_lt hlt)] at this
    · have := h calls.length c (by simp)
      rwa [take_left] at this

theorem take_of_take {l : List Call} {c : Call} {j k : Nat} (h : (l.take k)[j]? = some c) :
    j < k ∧ l[j]? = some c ∧ (l.take k).take j = l.take j := by
  rw [getElem?_take] at h
  split at h
  · rename_i hjk
    exact ⟨hjk, h, by rw [take_take, Nat.min_eq_left (Nat.le_of_lt hjk)]⟩
  · cases h

/-- The indexes agree in every state of a run exactly if the run registers no URL that is registered at that moment. -/
theorem registry_agrees_iff (uuids : Uuids) (calls : List Call) :
    (∀ k, Agrees (run uuids (calls.take k))) ↔ ∀ k c, calls[k]? = some c → FirstRegistration (run uuids (calls.take k)) c := by
  constructor
  · intro hagrees k
    -- the first second registration would show in the state after it
    induction k using Nat.strongRecOn with
    | _ k ih =>
      intro c hc
      have hindexed : Indexed uuids (run uuids (calls.take k)) := run_indexed uuids fun j c' hj => by
        obtain ⟨hjk, hj, htake⟩ := take_of_take hj
        rw [htake]
        exact ih j hjk c' hj
      have hnext := hagrees (k + 1)
      have htake : calls.take (k + 1) = calls.take k ++ [c] := by
        rw [take_add_one, hc]
        rfl
      rw [htake, run_append] at hnext
      cases c with
      | register worker =>
        by_contra hreg
        exact not_agrees_of_registered hindexed hreg hnext
      | remove id => trivial
      | removeByUrl url => trivial
  · intro hfirst k
    refine (run_indexed uuids fun j c hj => ?_).agrees
    obtain ⟨-, hj, htake⟩ := take_of_take hj
    rw [htake]
    exact hfirst j c hj

def workerOf (address : Nat) (model : String) : Worker := ⟨address, "http://w1", some model, .regular, .http⟩

def tally : Uuids where
  draw k := String.ofList (List.replicate k 'x')
  injective j k h := by simpa using congrArg String.length h

/-- The worker moves from one model to another, and its old model goes on answering with it. -/
theorem registering_again_leaves_old_model :
    ((run tally [.register (workerOf 0 "llama"), .register (workerOf 1 "qwen")]).getByModel "llama" = [workerOf 1 "qwen"]) ∧
      ((run tally [.register (workerOf 0 "llama"), .register (workerOf 1 "qwen")]).getByType .regular =
        [workerOf 1 "qwen", workerOf 1 "qwen"]) ∧
      ¬ Agrees (run tally [.register (workerOf 0 "llama"), .register (workerOf 1 "qwen")]) := by
  have htype : (run tally [.register (workerOf 0 "llama"), .register (workerOf 1 "qwen")]).getByType .regular =
      [workerOf 1 "qwen", workerOf 1 "qwen"] := by decide
  refine ⟨by decide, htype, fun h => ?_⟩
  have hnd := (h.type .regular).nodup
  rw [htype] at hnd
  simp at hnd

end DynaSpec.Router.Registry
