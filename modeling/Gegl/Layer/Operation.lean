import Gegl.Layer.Graph
import Mathlib.Data.List.Destutter

/-!
# The layer meta-operation

`layer.c` keeps a private state `Priv`: pointers into the graph `associate` builds, and a cache of
the buffer loaded from `src`. `prepare` points the nodes at the properties and refreshes the
cache, `dispose` releases it and `finalize` frees `priv`. Effects outside the state are events.
-/

namespace Gegl
namespace Layer

/-- The layer's properties, as its `gegl_chant_*` lines declare them. -/
structure LayerConfig where
  compositeOp : String
  opacity : Float
  x : Float
  y : Float
  src : String

/-- The declared defaults. -/
def LayerConfig.defaults : LayerConfig := ⟨"over", 1.0, 0.0, 0.0, ""⟩

/-- The cache fields of `Priv`, `cached_path` and `cached_buffer` (`none` is NULL). -/
structure Cache (Buffer : Type) where
  path : Option String
  buffer : Option Buffer

/-- `Priv`: the internal graph its node fields point into, and the cache. -/
structure Priv (Buffer : Type) where
  graph : Internal Buffer
  cache : Cache Buffer

/-- The effects of the layer's code outside its own state. -/
inductive Event (Buffer : Type)
  /-- `refresh_cache` runs a `load` graph on this path. -/
  | load (path : String)
  /-- `g_object_unref` of a buffer. -/
  | unref (buffer : Buffer)
  /-- `g_free` of a cached path. -/
  | free (path : String)
  /-- `g_free` of `priv` in `finalize`. -/
  | freePriv
  deriving DecidableEq

/-- Why a call does not return normally. -/
inductive Fault
  /-- The call dereferences `self->priv` while it is NULL. -/
  | nullPriv
  /-- `g_assert (priv == NULL)` in `associate` fails. -/
  | assertion
  deriving DecidableEq

/-- The operation instance. -/
structure Operation (Buffer : Type) where
  config : LayerConfig
  /-- `self->priv`; `g_object_new` leaves it NULL. -/
  priv : Option (Priv Buffer)
  events : List (Event Buffer)

namespace Event

variable {Buffer : Type}

/-- The path of a load event. -/
def loadedPath? : Event Buffer → Option String
  | .load path => some path
  | _ => none

/-- The event runs a load graph. -/
def isLoad (event : Event Buffer) : Bool := event.loadedPath?.isSome

end Event

/-- The path of the most recent load among `events`. -/
def lastLoaded {Buffer : Type} (events : List (Event Buffer)) : Option String :=
  (events.filterMap Event.loadedPath?).getLast?

variable {Buffer : Type} (load : String → Option Buffer)

/-- The operation `g_object_new` makes: `priv` is NULL. -/
def created (config : LayerConfig) : Operation Buffer := ⟨config, none, []⟩

/-- The private state `associate` makes: `g_malloc0` leaves both cache fields NULL. -/
def Priv.freshVia (connect : Connect Buffer) (compositeOp : String) : Priv Buffer :=
  ⟨associateGraphVia connect compositeOp, ⟨none, none⟩⟩

/-- The private state `associate` makes over the spec's `gegl_node_connect`. -/
def Priv.fresh (compositeOp : String) : Priv Buffer :=
  Priv.freshVia Internal.link compositeOp

/-- Every pad `associate` connects is free at that point, so both readings make the same state. -/
theorem Priv.freshVia_rewire (compositeOp : String) :
    (Priv.freshVia Internal.rewire compositeOp : Priv Buffer) = Priv.fresh compositeOp := by
  simp only [Priv.freshVia, Priv.fresh, associateGraphVia_rewire, associateGraph]

theorem Priv.fresh_edges (compositeOp : String) :
    (Priv.fresh compositeOp : Priv Buffer).graph.edges = layerEdges := by
  simp only [Priv.fresh, Priv.freshVia]
  exact associateGraph_edges compositeOp

theorem Priv.fresh_loadBuffer (compositeOp : String) :
    (Priv.fresh compositeOp : Priv Buffer).graph.loadBuffer = none := by
  simp only [Priv.fresh, Priv.freshVia]
  exact associateGraph_loadBuffer compositeOp

/-- `associate`: allocate the private state and build the internal graph. -/
def associate (self : Operation Buffer) : Except Fault (Operation Buffer) :=
  match self.priv with
  | some _ => .error .assertion
  | none => .ok { self with priv := some (Priv.fresh self.config.compositeOp) }

namespace Cache

/-- `refresh_cache` reloads when no buffer is cached or `src` differs from the cached path. -/
def reloads (cache : Cache Buffer) (src : String) : Bool :=
  cache.buffer.isNone || cache.path.any (· != src)

/-- What `refresh_cache` releases before a reload: the cached buffer, then the cached path. -/
def releases (cache : Cache Buffer) : List (Event Buffer) :=
  match cache.buffer with
  | some buffer => Event.unref buffer :: (cache.path.map Event.free).toList
  | none => []

end Cache

/-- `refresh_cache`. `load path` is the buffer a `load` node on `path` produces; the code drops
one reference to it at once, to steal its contents. -/
def refreshCache (src : String) (cache : Cache Buffer) : Cache Buffer × List (Event Buffer) :=
  if cache.reloads src then
    (⟨some src, load src⟩, cache.releases ++ Event.load src :: ((load src).map Event.unref).toList)
  else (cache, [])

/-- The body of `prepare` once `priv = self->priv` is read: set the composite operation, then
refresh the cache and point the load node at it, or connect `aux` to the opacity node. -/
def prepareWithVia (connect : Connect Buffer) (config : LayerConfig) (priv : Priv Buffer) :
    Priv Buffer × List (Event Buffer) :=
  let refreshed :=
    if config.src = "" then (priv.cache, []) else refreshCache load config.src priv.cache
  let graph := { priv.graph with compositeOperation := config.compositeOp }
  let graph :=
    if config.src = "" then connect graph .opacity "input" .aux
    else { graph with loadBuffer := refreshed.1.buffer }
  (⟨{ graph with opacityValue := config.opacity, shiftX := config.x, shiftY := config.y },
      refreshed.1⟩,
    refreshed.2)

/-- The body of `prepare` over the spec's `gegl_node_connect`. -/
def prepareWith (config : LayerConfig) (priv : Priv Buffer) : Priv Buffer × List (Event Buffer) :=
  prepareWithVia load Internal.link config priv

/-- `prepare`. -/
def prepare (self : Operation Buffer) : Except Fault (Operation Buffer) :=
  match self.priv with
  | none => .error .nullPriv
  | some priv =>
    .ok { self with
      priv := some (prepareWith load self.config priv).1
      events := self.events ++ (prepareWith load self.config priv).2 }

/-- `dispose`: release the cached buffer and path. It reads `priv->cached_buffer` without
checking `priv`. -/
def dispose (self : Operation Buffer) : Except Fault (Operation Buffer) :=
  match self.priv with
  | none => .error .nullPriv
  | some priv =>
    .ok { self with
      priv := some { priv with cache := ⟨none, none⟩ }
      events := self.events ++ (priv.cache.buffer.map Event.unref).toList ++
        (priv.cache.path.map Event.free).toList }

/-- `finalize`: free the private state if there is one. -/
def finalize (self : Operation Buffer) : Operation Buffer :=
  { self with
    priv := none
    events := self.events ++ if self.priv.isSome then [.freePriv] else [] }

/-- The calls a layer operation receives over its life. -/
inductive Call
  | associate
  /-- `g_object_set` of the properties. -/
  | set (config : LayerConfig)
  | prepare
  | dispose
  | finalize

/-- One call. -/
def step (self : Operation Buffer) : Call → Except Fault (Operation Buffer)
  | .associate => associate self
  | .set config => .ok { self with config }
  | .prepare => prepare load self
  | .dispose => dispose self
  | .finalize => .ok (finalize self)

/-- A sequence of calls; the first fault stops it. -/
def runCalls (self : Operation Buffer) (calls : List Call) : Except Fault (Operation Buffer) :=
  calls.foldlM (step load) self

/-- A history that prepares the layer once per configuration. -/
def preparesWithVia (connect : Connect Buffer) (priv : Priv Buffer) :
    List LayerConfig → Priv Buffer × List (Event Buffer)
  | [] => (priv, [])
  | config :: configs =>
    ((preparesWithVia connect (prepareWithVia load connect config priv).1 configs).1,
      (prepareWithVia load connect config priv).2 ++
        (preparesWithVia connect (prepareWithVia load connect config priv).1 configs).2)

/-- A history of `prepare` calls over the spec's `gegl_node_connect`. -/
def preparesWith (priv : Priv Buffer) (configs : List LayerConfig) :
    Priv Buffer × List (Event Buffer) :=
  preparesWithVia load Internal.link priv configs

/-- The cache holds what the most recent load among `events` gave. -/
def CacheLoaded (cache : Cache Buffer) (events : List (Event Buffer)) : Prop :=
  cache.path = lastLoaded events ∧ cache.buffer = (lastLoaded events).bind load

variable {load}

theorem prepareWithVia_cache (connect : Connect Buffer) (config : LayerConfig)
    (priv : Priv Buffer) :
    (prepareWithVia load connect config priv).1.cache =
      if config.src = "" then priv.cache else (refreshCache load config.src priv.cache).1 := by
  unfold prepareWithVia
  split <;> rfl

@[simp]
theorem prepareWith_cache (config : LayerConfig) (priv : Priv Buffer) :
    (prepareWith load config priv).1.cache =
      if config.src = "" then priv.cache else (refreshCache load config.src priv.cache).1 :=
  prepareWithVia_cache _ config priv

@[simp]
theorem prepareWith_events (config : LayerConfig) (priv : Priv Buffer) :
    (prepareWith load config priv).2 =
      if config.src = "" then [] else (refreshCache load config.src priv.cache).2 := by
  unfold prepareWith prepareWithVia
  split <;> rfl

theorem lastLoaded_append (events later : List (Event Buffer)) :
    lastLoaded (events ++ later) = (lastLoaded later).or (lastLoaded events) := by
  simp only [lastLoaded, List.filterMap_append, List.getLast?_append]

@[simp]
theorem releases_not_load (cache : Cache Buffer) : cache.releases.any Event.isLoad = false := by
  unfold Cache.releases
  split <;> cases cache.path <;> rfl

theorem lastLoaded_releases (cache : Cache Buffer) : lastLoaded cache.releases = none := by
  unfold Cache.releases
  split <;> cases cache.path <;> rfl

theorem refreshCache_of_reloads {cache : Cache Buffer} {src : String}
    (reloads : cache.reloads src = true) :
    refreshCache load src cache =
      (⟨some src, load src⟩,
        cache.releases ++ Event.load src :: ((load src).map Event.unref).toList) :=
  if_pos reloads

theorem refreshCache_of_not_reloads {cache : Cache Buffer} {src : String}
    (reloads : cache.reloads src = false) : refreshCache load src cache = (cache, []) :=
  if_neg (by simp [reloads])

/-- A call's events run a load exactly when it reloads. -/
theorem refreshCache_any_isLoad (src : String) (cache : Cache Buffer) :
    (refreshCache load src cache).2.any Event.isLoad = cache.reloads src := by
  cases reloads : cache.reloads src
  · simp [refreshCache_of_not_reloads reloads]
  · cases load src <;> simp [refreshCache_of_reloads reloads, Event.isLoad, Event.loadedPath?]

theorem lastLoaded_refreshCache (events : List (Event Buffer)) (src : String)
    (cache : Cache Buffer) :
    lastLoaded (events ++ (refreshCache load src cache).2) =
      if cache.reloads src then some src else lastLoaded events := by
  cases reloads : cache.reloads src
  · simp [refreshCache_of_not_reloads reloads]
  · rw [refreshCache_of_reloads reloads, lastLoaded_append, lastLoaded_append,
      lastLoaded_releases]
    cases load src <;> rfl

theorem CacheLoaded.refreshCache {cache : Cache Buffer} {events : List (Event Buffer)}
    (loaded : CacheLoaded load cache events) (src : String) :
    CacheLoaded load (refreshCache load src cache).1
      (events ++ (refreshCache load src cache).2) := by
  rw [CacheLoaded, lastLoaded_refreshCache]
  cases reloads : cache.reloads src
  · simpa [refreshCache_of_not_reloads reloads] using loaded
  · simp [refreshCache_of_reloads reloads]

theorem CacheLoaded.prepareWith {priv : Priv Buffer} {events : List (Event Buffer)}
    (loaded : CacheLoaded load priv.cache events) (config : LayerConfig) :
    CacheLoaded load (prepareWith load config priv).1.cache
      (events ++ (prepareWith load config priv).2) := by
  rw [prepareWith_cache, prepareWith_events]
  split
  · simpa using loaded
  · exact loaded.refreshCache config.src

@[simp]
theorem preparesWith_nil (priv : Priv Buffer) : preparesWith load priv [] = (priv, []) := rfl

theorem preparesWith_cons (priv : Priv Buffer) (config : LayerConfig)
    (configs : List LayerConfig) :
    preparesWith load priv (config :: configs) =
      ((preparesWith load (prepareWith load config priv).1 configs).1,
        (prepareWith load config priv).2 ++
          (preparesWith load (prepareWith load config priv).1 configs).2) := rfl

theorem preparesWithVia_append (connect : Connect Buffer) (priv : Priv Buffer)
    (front back : List LayerConfig) :
    preparesWithVia load connect priv (front ++ back) =
      ((preparesWithVia load connect (preparesWithVia load connect priv front).1 back).1,
        (preparesWithVia load connect priv front).2 ++
          (preparesWithVia load connect (preparesWithVia load connect priv front).1 back).2) := by
  induction front generalizing priv with
  | nil => rfl
  | cons config front ih => simp [preparesWithVia, ih]

/-- The state after a history is the state its last `prepare` leaves. -/
theorem preparesWithVia_concat (connect : Connect Buffer) (priv : Priv Buffer)
    (configs : List LayerConfig) (config : LayerConfig) :
    (preparesWithVia load connect priv (configs ++ [config])).1 =
      (prepareWithVia load connect config (preparesWithVia load connect priv configs).1).1 := by
  rw [preparesWithVia_append]
  rfl

theorem CacheLoaded.preparesWith {priv : Priv Buffer} {events : List (Event Buffer)}
    (loaded : CacheLoaded load priv.cache events) (configs : List LayerConfig) :
    CacheLoaded load (preparesWith load priv configs).1.cache
      (events ++ (preparesWith load priv configs).2) := by
  induction configs generalizing priv events with
  | nil => simpa using loaded
  | cons config configs ih =>
    simpa [preparesWith_cons] using ih (loaded.prepareWith config)

/-- With the cache consistent, a reload happens exactly when no buffer is cached or the cached
path is not `src`. -/
theorem Cache.reloads_iff {cache : Cache Buffer}
    (consistent : cache.path = none → cache.buffer = none) (src : String) :
    cache.reloads src = true ↔ cache.buffer = none ∨ cache.path ≠ some src := by
  unfold Cache.reloads
  cases path : cache.path <;> cases buffer : cache.buffer <;> simp_all

/-- The non-empty `src` values of a history, in order. -/
def loadedSources (configs : List LayerConfig) : List String :=
  (configs.map LayerConfig.src).filter (· ≠ "")

@[simp]
theorem loadedSources_nil : loadedSources [] = [] := rfl

theorem loadedSources_append (front back : List LayerConfig) :
    loadedSources (front ++ back) = loadedSources front ++ loadedSources back := by
  simp [loadedSources]

theorem loadedSources_cons (config : LayerConfig) (configs : List LayerConfig) :
    loadedSources (config :: configs) =
      if config.src = "" then loadedSources configs else config.src :: loadedSources configs := by
  by_cases empty : config.src = "" <;> simp [loadedSources, empty]

theorem countP_reload_events (cache : Cache Buffer) (src : String) :
    (cache.releases ++ Event.load src :: ((load src).map Event.unref).toList).countP
      Event.isLoad = 1 := by
  have none_in_releases : cache.releases.countP Event.isLoad = 0 := by
    unfold Cache.releases
    split <;> cases cache.path <;> rfl
  cases load src <;> simp [List.countP_append, none_in_releases, Event.isLoad, Event.loadedPath?]

/-- Once a buffer is cached, each maximal run of equal non-empty `src` values after the cached
path costs one load. -/
theorem countP_isLoad_preparesWith (always : ∀ path, (load path).isSome)
    {priv : Priv Buffer} {path : String} (cached : priv.cache.path = some path)
    (filled : priv.cache.buffer.isSome) (configs : List LayerConfig) :
    (preparesWith load priv configs).2.countP Event.isLoad + 1 =
      ((loadedSources configs).destutter' (· ≠ ·) path).length := by
  induction configs generalizing priv path with
  | nil => simp
  | cons config configs ih =>
    simp only [preparesWith_cons, List.countP_append, loadedSources_cons]
    by_cases empty : config.src = ""
    · have same : (prepareWith load config priv).1.cache = priv.cache := by simp [empty]
      simpa [empty] using ih (same ▸ cached) (same ▸ filled)
    · by_cases repeated : config.src = path
      · have reloads : priv.cache.reloads config.src = false := by
          simpa [Cache.reloads, cached, repeated] using filled
        have same : (prepareWith load config priv).1.cache = priv.cache := by
          simp [empty, refreshCache_of_not_reloads reloads]
        rw [if_neg empty, List.destutter'_cons_neg _ (by simp [repeated])]
        simpa [empty, refreshCache_of_not_reloads reloads] using ih (same ▸ cached) (same ▸ filled)
      · have reloads : priv.cache.reloads config.src = true := by
          simp [Cache.reloads, cached, Ne.symm repeated]
        have rest := @ih (prepareWith load config priv).1 config.src
          (by simp [empty, refreshCache_of_reloads reloads])
          (by simp [empty, refreshCache_of_reloads reloads, always])
        rw [if_neg empty, List.destutter'_cons_pos _ (Ne.symm repeated), List.length_cons, ← rest]
        simp only [prepareWith_events, if_neg empty, refreshCache_of_reloads reloads,
          countP_reload_events]
        omega

/-- From an empty cache, each maximal run of equal non-empty `src` values costs one load. -/
theorem countP_isLoad_preparesWith_of_empty (always : ∀ path, (load path).isSome)
    {priv : Priv Buffer} (empty_cache : priv.cache.buffer = none) (configs : List LayerConfig) :
    (preparesWith load priv configs).2.countP Event.isLoad =
      ((loadedSources configs).destutter (· ≠ ·)).length := by
  induction configs generalizing priv with
  | nil => simp
  | cons config configs ih =>
    simp only [preparesWith_cons, List.countP_append, loadedSources_cons]
    by_cases empty : config.src = ""
    · have same : (prepareWith load config priv).1.cache = priv.cache := by simp [empty]
      simpa [empty] using ih (same ▸ empty_cache)
    · have reloads : priv.cache.reloads config.src = true := by simp [Cache.reloads, empty_cache]
      have rest := @countP_isLoad_preparesWith _ _ always (prepareWith load config priv).1
        config.src (by simp [empty, refreshCache_of_reloads reloads])
        (by simp [empty, refreshCache_of_reloads reloads, always]) configs
      rw [if_neg empty, List.destutter_cons', ← rest]
      simp only [prepareWith_events, if_neg empty, refreshCache_of_reloads reloads,
        countP_reload_events]
      omega

/-- A reload's events: the cached buffer's and path's releases, once each, then the load. -/
theorem refreshCache_reload_events {cache : Cache Buffer} {src : String}
    (reloads : cache.reloads src = true) (consistent : cache.path = none → cache.buffer = none) :
    (∀ buffer, cache.buffer = some buffer → ∃ path, cache.path = some path ∧
      (refreshCache load src cache).2 =
        .unref buffer :: .free path :: .load src :: ((load src).map Event.unref).toList) ∧
    (cache.buffer = none →
      (refreshCache load src cache).2 = .load src :: ((load src).map Event.unref).toList) := by
  rw [refreshCache_of_reloads reloads]
  refine ⟨fun buffer cached => ?_, fun none_cached => by simp [Cache.releases, none_cached]⟩
  cases cached_path : cache.path with
  | none => simp [consistent cached_path] at cached
  | some path => exact ⟨path, rfl, by simp [Cache.releases, cached, cached_path]⟩

/-- The cache law of a `prepare` history: a call loads exactly when `src` is non-empty and not
the cached path of a cached buffer, dropping that buffer and path once each first; other calls
keep the cache. With every load giving a buffer, loads are the runs of equal non-empty `src`. -/
theorem preparesWith_cache_law (compositeOp : String) (configs : List LayerConfig) :
    (∀ front config back, configs = front ++ config :: back →
      ∀ before, before = (preparesWith load (Priv.fresh compositeOp) front).1 →
        CacheLoaded load before.cache (preparesWith load (Priv.fresh compositeOp) front).2 ∧
        ((prepareWith load config before).2.any Event.isLoad = true ↔
          config.src ≠ "" ∧ (before.cache.buffer = none ∨ before.cache.path ≠ some config.src)) ∧
        ((prepareWith load config before).2.any Event.isLoad = true →
          (∀ buffer, before.cache.buffer = some buffer → ∃ path, before.cache.path = some path ∧
            (prepareWith load config before).2 = .unref buffer :: .free path ::
              .load config.src :: ((load config.src).map Event.unref).toList) ∧
          (before.cache.buffer = none → (prepareWith load config before).2 =
            .load config.src :: ((load config.src).map Event.unref).toList) ∧
          (prepareWith load config before).1.cache.path = some config.src) ∧
        ((prepareWith load config before).2.any Event.isLoad = false →
          (prepareWith load config before).1.cache = before.cache)) ∧
    ((∀ path, (load path).isSome) →
      (preparesWith load (Priv.fresh compositeOp) configs).2.countP Event.isLoad =
        ((loadedSources configs).destutter (· ≠ ·)).length) := by
  have fresh_loaded : CacheLoaded load (Priv.fresh compositeOp : Priv Buffer).cache [] :=
    ⟨rfl, rfl⟩
  refine ⟨fun front config back _ before history => ?_,
    fun always => countP_isLoad_preparesWith_of_empty always rfl configs⟩
  have loaded :
      CacheLoaded load before.cache (preparesWith load (Priv.fresh compositeOp) front).2 :=
    history ▸ by simpa using fresh_loaded.preparesWith front
  have consistent : before.cache.path = none → before.cache.buffer = none := by
    intro none_cached
    rw [loaded.2, ← loaded.1, none_cached, Option.none_bind]
  refine ⟨loaded, ?_⟩
  by_cases empty : config.src = ""
  · simp [empty]
  simp only [prepareWith_events, prepareWith_cache, if_neg empty, refreshCache_any_isLoad]
  refine ⟨by simp [empty, Cache.reloads_iff consistent], fun reloads => ?_,
    fun reloads => by simp [refreshCache_of_not_reloads reloads]⟩
  obtain ⟨cached, uncached⟩ := refreshCache_reload_events reloads consistent
  exact ⟨cached, uncached, by simp [refreshCache_of_reloads reloads]⟩

variable (load) in
/-- The pipeline of primitive operations the layer should behave as, following the spec's
words: `S` is the buffer loaded from `src`, or the `aux` input when `src` is empty. -/
def pipeline (config : LayerConfig) : Image Buffer :=
  .composite config.compositeOp .input
    (.shift config.x config.y
      (.opacity config.opacity (if config.src = "" then .aux else .buffer (load config.src))))

variable (load) in
/-- The cached buffer is the one loaded from the cached path. -/
def Cache.Consistent (cache : Cache Buffer) : Prop :=
  cache.buffer = cache.path.bind load

theorem Cache.Consistent.refreshCache {cache : Cache Buffer} (consistent : cache.Consistent load)
    (src : String) :
    (Layer.refreshCache load src cache).1.Consistent load ∧
      (Layer.refreshCache load src cache).1.buffer = load src := by
  cases reloads : cache.reloads src
  · rw [refreshCache_of_not_reloads reloads]
    refine ⟨consistent, ?_⟩
    unfold Cache.reloads at reloads
    rw [consistent]
    rw [consistent] at reloads
    cases path : cache.path with
    | none => simp [path] at reloads
    | some cached => simp_all
  · simp [refreshCache_of_reloads reloads, Cache.Consistent]

section Reading

variable {connect : Connect Buffer} (edgesOnly : Connect.EdgesOnly connect)
include edgesOnly

/-- The graph one `prepare` leaves: the configuration's properties, the load node pointed at the
refreshed cache, and the opacity node connected to `aux` when `src` is empty. -/
theorem prepareWithVia_graph (config : LayerConfig) (priv : Priv Buffer) :
    (prepareWithVia load connect config priv).1.graph =
      { edges := if config.src = "" then
            (connect { priv.graph with compositeOperation := config.compositeOp } .opacity "input"
              .aux).edges
          else priv.graph.edges
        compositeOperation := config.compositeOp
        opacityValue := config.opacity
        shiftX := config.x
        shiftY := config.y
        loadBuffer := if config.src = "" then priv.graph.loadBuffer
          else (refreshCache load config.src priv.cache).1.buffer } := by
  by_cases empty : config.src = ""
  · simp only [prepareWithVia, if_pos empty]
    rw [← edgesOnly]
  · simp only [prepareWithVia, if_neg empty]

/-- After a history, the load node holds the buffer loaded from its last non-empty `src`. -/
theorem preparesWithVia_loadBuffer {priv : Priv Buffer} (consistent : priv.cache.Consistent load)
    (configs : List LayerConfig) :
    (preparesWithVia load connect priv configs).1.cache.Consistent load ∧
    (preparesWithVia load connect priv configs).1.graph.loadBuffer =
      ((loadedSources configs).getLast?.map load).getD priv.graph.loadBuffer := by
  induction configs generalizing priv with
  | nil => exact ⟨consistent, rfl⟩
  | cons config configs ih =>
    have refreshed := consistent.refreshCache config.src
    have next_consistent : (prepareWithVia load connect config priv).1.cache.Consistent load := by
      rw [prepareWithVia_cache]
      split
      · exact consistent
      · exact refreshed.1
    obtain ⟨final_consistent, final_buffer⟩ := ih next_consistent
    refine ⟨final_consistent, ?_⟩
    rw [preparesWithVia, final_buffer, loadedSources_cons, prepareWithVia_graph edgesOnly]
    dsimp only
    split
    · rfl
    · rw [refreshed.2, List.getLast?_cons]
      cases (loadedSources configs).getLast? <;> rfl

/-- After a history ending in `config`, the graph's node properties are `config`'s. -/
theorem preparesWithVia_concat_result {priv : Priv Buffer} (configs : List LayerConfig)
    (config : LayerConfig) {graph : Internal Buffer}
    (final : (preparesWithVia load connect priv (configs ++ [config])).1.graph = graph) :
    graph.compositeOperation = config.compositeOp ∧ graph.opacityValue = config.opacity ∧
      graph.shiftX = config.x ∧ graph.shiftY = config.y := by
  rw [← final, preparesWithVia_concat, prepareWithVia_graph edgesOnly]
  exact ⟨rfl, rfl, rfl, rfl⟩

end Reading

/-! ## Over the spec's `gegl_node_connect` -/

theorem prepareWithVia_rewire_edges {priv : Priv Buffer}
    (edges : priv.graph.edges = layerEdges ∨ priv.graph.edges = auxEdges) (config : LayerConfig) :
    (prepareWithVia load Internal.rewire config priv).1.graph.edges =
      if config.src = "" then auxEdges else priv.graph.edges := by
  have taken :
      ({ priv.graph with compositeOperation := config.compositeOp } : Internal Buffer).edges =
        layerEdges ∨
      ({ priv.graph with compositeOperation := config.compositeOp } : Internal Buffer).edges =
        auxEdges := edges
  rw [prepareWithVia_graph Internal.rewire_edgesOnly]
  simp only [Internal.rewire_opacity_aux taken]

/-- An empty `src` moves the opacity node's input to `aux`, and no later call moves it back. -/
theorem preparesWithVia_rewire_edges {priv : Priv Buffer}
    (edges : priv.graph.edges = layerEdges ∨ priv.graph.edges = auxEdges)
    (configs : List LayerConfig) :
    (preparesWithVia load Internal.rewire priv configs).1.graph.edges =
      if configs.any (·.src = "") then auxEdges else priv.graph.edges := by
  induction configs generalizing priv with
  | nil => rfl
  | cons config configs ih =>
    have step := @prepareWithVia_rewire_edges Buffer load priv edges config
    have next : (prepareWithVia load Internal.rewire config priv).1.graph.edges = layerEdges ∨
        (prepareWithVia load Internal.rewire config priv).1.graph.edges = auxEdges := by
      rw [step]
      split
      · exact .inr rfl
      · exact edges
    rw [preparesWithVia, ih next, step]
    by_cases empty : config.src = "" <;> simp [empty]

/-- What the layer computes after any history when `gegl_node_connect` replaces connections: it
reads `aux` once any `src` was empty, the last loaded buffer otherwise. -/
theorem preparesWithVia_rewire_result (compositeOp : String) (configs : List LayerConfig)
    (config : LayerConfig) :
    (preparesWithVia load Internal.rewire (Priv.freshVia Internal.rewire compositeOp)
        (configs ++ [config])).1.graph.result =
      .composite config.compositeOp .input (.shift config.x config.y (.opacity config.opacity
        (if (configs ++ [config]).any (·.src = "") then .aux
          else .buffer ((loadedSources (configs ++ [config])).getLast?.bind load)))) := by
  obtain ⟨operation, opacity, x, y⟩ := @preparesWithVia_concat_result Buffer load _
    Internal.rewire_edgesOnly (Priv.freshVia Internal.rewire compositeOp) configs config _ rfl
  have buffer := (@preparesWithVia_loadBuffer Buffer load _ Internal.rewire_edgesOnly
    (Priv.freshVia Internal.rewire compositeOp) rfl (configs ++ [config])).2
  have edges := @preparesWithVia_rewire_edges Buffer load _
    (.inl ((Priv.freshVia_rewire compositeOp).symm ▸ Priv.fresh_edges compositeOp))
    (configs ++ [config])
  rw [Priv.freshVia_rewire] at operation opacity x y buffer edges ⊢
  split_ifs at edges ⊢ with empty
  · rw [Internal.result_of_auxEdges edges, operation, opacity, x, y]
  · rw [Priv.fresh_edges] at edges
    rw [Internal.result_of_layerEdges edges, operation, opacity, x, y, buffer,
      Priv.fresh_loadBuffer]
    cases (loadedSources (configs ++ [config])).getLast? <;> rfl

/-- When `gegl_node_connect` replaces connections, the layer computes the pipeline of its last
configuration exactly when that `src` is empty or no earlier `src` was. -/
theorem rewired_result_eq_pipeline_iff (compositeOp : String) (configs : List LayerConfig)
    (config : LayerConfig) :
    (preparesWithVia load Internal.rewire (Priv.freshVia Internal.rewire compositeOp)
        (configs ++ [config])).1.graph.result = pipeline load config ↔
      config.src = "" ∨ ∀ earlier ∈ configs, earlier.src ≠ "" := by
  rw [preparesWithVia_rewire_result, loadedSources_append, loadedSources_cons]
  by_cases empty : config.src = ""
  · simp [pipeline, empty]
  · split_ifs with earlier <;> simpa [pipeline, empty] using earlier

/-- The history `src` "" then "a" with `gegl_node_connect` replacing connections: the first call
moves the opacity node onto `aux`, the second loads "a" but the opacity node still reads `aux`. -/
theorem rewired_empty_then_named_src (load : String → Option Buffer) :
    (preparesWithVia load Internal.rewire (Priv.freshVia Internal.rewire "over")
        [LayerConfig.defaults, ⟨"over", 1.0, 0.0, 0.0, "a"⟩]).1.graph.result =
      .composite "over" .input (.shift 0.0 0.0 (.opacity 1.0 .aux)) ∧
    pipeline load ⟨"over", 1.0, 0.0, 0.0, "a"⟩ =
      .composite "over" .input (.shift 0.0 0.0 (.opacity 1.0 (.buffer (load "a")))) ∧
    (preparesWithVia load Internal.rewire (Priv.freshVia Internal.rewire "over")
        [LayerConfig.defaults, ⟨"over", 1.0, 0.0, 0.0, "a"⟩]).1.graph.result ≠
      pipeline load ⟨"over", 1.0, 0.0, 0.0, "a"⟩ := by
  have result := @preparesWithVia_rewire_result Buffer load "over" [LayerConfig.defaults]
    ⟨"over", 1.0, 0.0, 0.0, "a"⟩
  simp only [List.singleton_append, List.any_cons, LayerConfig.defaults, decide_True,
    Bool.true_or, if_true] at result
  refine ⟨result, rfl, fun same => ?_⟩
  have reads_aux := result.symm.trans same
  simp [pipeline] at reads_aux

theorem runCalls_prepares {self : Operation Buffer} {priv : Priv Buffer}
    (has_priv : self.priv = some priv) (configs : List LayerConfig) :
    runCalls load self (configs.flatMap fun config => [.set config, .prepare]) =
      .ok ⟨configs.getLast?.getD self.config, some (preparesWith load priv configs).1,
        self.events ++ (preparesWith load priv configs).2⟩ := by
  induction configs generalizing self priv with
  | nil =>
    simp [runCalls, ← has_priv]
    rfl
  | cons config configs ih =>
    have next := @ih ⟨config, some (prepareWith load config priv).1,
      self.events ++ (prepareWith load config priv).2⟩ _ rfl
    simp only [runCalls] at next ⊢
    simp only [List.flatMap_cons, List.cons_append, List.nil_append, List.foldlM_cons, step,
      prepare, has_priv]
    cases configs <;> simpa [preparesWith_cons] using next

theorem associate_created (config : LayerConfig) :
    associate (created config : Operation Buffer) =
      .ok ⟨config, some (Priv.fresh config.compositeOp), []⟩ := rfl

/-- An associated layer prepared once per configuration: its state and events are those of
`preparesWith` from the private state `associate` makes. -/
theorem runCalls_associate_prepares (config : LayerConfig) (configs : List LayerConfig) :
    runCalls load (created config)
        (.associate :: configs.flatMap fun config => [.set config, .prepare]) =
      .ok ⟨configs.getLast?.getD config,
        some (preparesWith load (Priv.fresh config.compositeOp) configs).1,
        (preparesWith load (Priv.fresh config.compositeOp) configs).2⟩ := by
  have prepares := @runCalls_prepares Buffer load
    ⟨config, some (Priv.fresh config.compositeOp), []⟩ _ rfl configs
  simpa [runCalls, step, associate_created] using prepares

/-- `dispose` on an operation that was never associated reads `priv->cached_buffer` through the
NULL `priv`; `finalize` checks `priv` first but is never reached. -/
theorem dispose_unassociated_faults (load : String → Option Buffer) (config : LayerConfig) :
    runCalls load (created config : Operation Buffer) [.dispose, .finalize] = .error .nullPriv :=
  rfl

/-- After `associate`, setting properties and preparing never fault and keep a private state. -/
theorem runCalls_of_priv {self : Operation Buffer} {priv : Priv Buffer}
    (has_priv : self.priv = some priv) (calls : List Call)
    (only : ∀ call ∈ calls, call = .prepare ∨ ∃ config, call = .set config) :
    ∃ after priv', runCalls load self calls = .ok after ∧ after.priv = some priv' := by
  induction calls generalizing self priv with
  | nil => exact ⟨self, priv, rfl, has_priv⟩
  | cons call calls ih =>
    have rest : ∀ call ∈ calls, call = .prepare ∨ ∃ config, call = .set config :=
      fun call mem => only call (List.mem_cons_of_mem _ mem)
    rcases only call (List.mem_cons_self _ _) with rfl | ⟨config, rfl⟩
    · obtain ⟨after, priv', run, has⟩ :=
        @ih ⟨self.config, some (prepareWith load self.config priv).1,
          self.events ++ (prepareWith load self.config priv).2⟩ _ rfl rest
      exact ⟨after, priv', by simpa [runCalls, step, prepare, has_priv] using run, has⟩
    · obtain ⟨after, priv', run, has⟩ := @ih { self with config } priv has_priv rest
      exact ⟨after, priv', by simpa [runCalls, step] using run, has⟩

/-- Repeated `dispose` releases the cache once: the first call clears both fields. -/
theorem runCalls_replicate_dispose {self : Operation Buffer} {priv : Priv Buffer}
    (has_priv : self.priv = some priv) (count : Nat) :
    runCalls load self (List.replicate (count + 1) .dispose) =
      .ok ⟨self.config, some { priv with cache := ⟨none, none⟩ },
        self.events ++ (priv.cache.buffer.map Event.unref).toList ++
          (priv.cache.path.map Event.free).toList⟩ := by
  induction count with
  | zero => simp [runCalls, step, dispose, has_priv]
  | succ count ih =>
    rw [List.replicate_succ', runCalls, List.foldlM_append]
    simp only [runCalls] at ih
    simp [ih, step, dispose, bind, Except.bind]
    rfl

/-- Every lifecycle that associates first: no call faults, and however many times `dispose`
runs, the cache is released at most once, before `finalize` frees the private state. -/
theorem associated_lifecycle (config : LayerConfig) (middle : List Call)
    (only : ∀ call ∈ middle, call = .prepare ∨ ∃ config, call = .set config) (count : Nat) :
    ∃ self priv, runCalls load (created config) (.associate :: middle) = .ok self ∧
      self.priv = some priv ∧
      runCalls load self (List.replicate (count + 1) .dispose ++ [.finalize]) =
        .ok ⟨self.config, none,
          self.events ++ (priv.cache.buffer.map Event.unref).toList ++
            (priv.cache.path.map Event.free).toList ++ [.freePriv]⟩ := by
  obtain ⟨self, priv, run, has_priv⟩ :=
    @runCalls_of_priv Buffer load ⟨config, some (Priv.fresh config.compositeOp), []⟩ _ rfl
      middle only
  refine ⟨self, priv, by simpa [runCalls, step, associate_created] using run, has_priv, ?_⟩
  have disposed := @runCalls_replicate_dispose Buffer load self priv has_priv count
  simp only [runCalls] at disposed ⊢
  simp [List.foldlM_append, disposed, step, finalize, bind, Except.bind]
  rfl

theorem associated_lifecycle_photo :
    (∀ call ∈ [Call.set ⟨"over", 0.5, 0.0, 0.0, "photo.png"⟩, .prepare],
      call = .prepare ∨ ∃ config, call = .set config) ∧
    ∃ self priv, runCalls (fun _ => some 7) (created LayerConfig.defaults)
        [.associate, .set ⟨"over", 0.5, 0.0, 0.0, "photo.png"⟩, .prepare] = .ok self ∧
      self.priv = some priv ∧
      runCalls (fun _ => some 7) self (List.replicate (2 + 1) .dispose ++ [.finalize]) =
        .ok ⟨self.config, none,
          self.events ++ (priv.cache.buffer.map Event.unref).toList ++
            (priv.cache.path.map Event.free).toList ++ [.freePriv]⟩ :=
  have only : ∀ call ∈ [Call.set ⟨"over", 0.5, 0.0, 0.0, "photo.png"⟩, .prepare],
      call = .prepare ∨ ∃ config, call = .set config := by
    simp
  ⟨only, associated_lifecycle LayerConfig.defaults _ only 2⟩

end Layer
end Gegl
