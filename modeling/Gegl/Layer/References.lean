import Gegl.Layer.Operation

/-!
# The references the layer drops

`refresh_cache` unrefs the buffer a load gives at once, "since we effectifly need to steal the
contents", and again when the cache is released, by the next reload or by `dispose`. Over a whole
life the layer drops two references to every buffer a load gives it.
-/

namespace Gegl
namespace Layer

namespace Event

variable {Buffer : Type}

/-- The event drops a reference to a buffer. -/
def isUnref : Event Buffer → Bool
  | .unref _ => true
  | _ => false

/-- The event runs a load graph that gives a buffer. -/
def yieldsBuffer (load : String → Option Buffer) : Event Buffer → Bool
  | .load path => (load path).isSome
  | _ => false

end Event

variable {Buffer : Type} {load : String → Option Buffer}

/-- Releasing the cache drops the reference to the cached buffer, if there is one, and loads
nothing. -/
theorem countP_releases (cache : Cache Buffer) :
    cache.releases.countP Event.isUnref = cache.buffer.isSome.toNat ∧
      cache.releases.countP (Event.yieldsBuffer load) = 0 := by
  unfold Cache.releases
  split <;> cases cache.path <;> simp_all [Event.isUnref, Event.yieldsBuffer]

/-- One `refresh_cache` keeps the count: a reload drops the old buffer's last reference and the
new buffer's first. -/
theorem refreshCache_unrefs (src : String) (cache : Cache Buffer) :
    (refreshCache load src cache).2.countP Event.isUnref +
        (refreshCache load src cache).1.buffer.isSome.toNat =
      cache.buffer.isSome.toNat + 2 * (refreshCache load src cache).2.countP (Event.yieldsBuffer load) := by
  cases reloads : cache.reloads src
  · simp [refreshCache_of_not_reloads reloads]
  · obtain ⟨unrefs, yields⟩ := @countP_releases _ load cache
    rw [refreshCache_of_reloads reloads]
    cases loaded : load src <;>
      simp [List.countP_append, unrefs, yields, loaded, Event.isUnref, Event.yieldsBuffer]

/-- One `prepare` keeps the count. -/
theorem prepareWith_unrefs (config : LayerConfig) (priv : Priv Buffer) :
    (prepareWith load config priv).2.countP Event.isUnref +
        (prepareWith load config priv).1.cache.buffer.isSome.toNat =
      priv.cache.buffer.isSome.toNat +
        2 * (prepareWith load config priv).2.countP (Event.yieldsBuffer load) := by
  rw [prepareWith_cache, prepareWith_events]
  split
  · simp
  · exact refreshCache_unrefs config.src priv.cache

/-- A history of `prepare` calls keeps the count. -/
theorem preparesWith_unrefs (priv : Priv Buffer) (configs : List LayerConfig) :
    (preparesWith load priv configs).2.countP Event.isUnref +
        (preparesWith load priv configs).1.cache.buffer.isSome.toNat =
      priv.cache.buffer.isSome.toNat +
        2 * (preparesWith load priv configs).2.countP (Event.yieldsBuffer load) := by
  induction configs generalizing priv with
  | nil => simp
  | cons config configs ih =>
    have first := @prepareWith_unrefs _ load config priv
    have rest := ih (prepareWith load config priv).1
    simp only [preparesWith_cons, List.countP_append]
    omega

/-- `dispose` drops the reference to the cached buffer, if there is one, and loads nothing. -/
theorem countP_dispose_events (cache : Cache Buffer) :
    ((cache.buffer.map Event.unref).toList ++ (cache.path.map Event.free).toList).countP
        Event.isUnref = cache.buffer.isSome.toNat ∧
      ((cache.buffer.map Event.unref).toList ++ (cache.path.map Event.free).toList).countP
        (Event.yieldsBuffer load) = 0 := by
  cases cache.buffer <;> cases cache.path <;> exact ⟨rfl, rfl⟩

/-- A layer associated, prepared once per configuration and disposed. -/
theorem runCalls_associate_prepares_dispose (config : LayerConfig) (configs : List LayerConfig) :
    runCalls load (created config)
        ((.associate :: configs.flatMap fun config => [.set config, .prepare]) ++ [.dispose]) =
      .ok ⟨configs.getLast?.getD config,
        some { (preparesWith load (Priv.fresh config.compositeOp) configs).1 with
          cache := ⟨none, none⟩ },
        (preparesWith load (Priv.fresh config.compositeOp) configs).2 ++
          ((preparesWith load (Priv.fresh config.compositeOp) configs).1.cache.buffer.map
            Event.unref).toList ++
          ((preparesWith load (Priv.fresh config.compositeOp) configs).1.cache.path.map
            Event.free).toList⟩ := by
  have split : runCalls load (created config)
        ((.associate :: configs.flatMap fun config => [.set config, .prepare]) ++ [.dispose]) =
      runCalls load (created config)
          (.associate :: configs.flatMap fun config => [.set config, .prepare]) >>=
        fun self => runCalls load self [.dispose] :=
    List.foldlM_append _ _ _ _
  rw [split, runCalls_associate_prepares]
  rfl

/-- Over every life of a layer that is associated, prepared with any configurations and disposed,
the events hold twice as many `g_object_unref` calls as loads that gave a buffer. -/
theorem lifecycle_unrefs (config : LayerConfig) (configs : List LayerConfig) :
    ∃ self : Operation Buffer,
      runCalls load (created config)
          ((.associate :: configs.flatMap fun config => [.set config, .prepare]) ++ [.dispose]) =
        .ok self ∧
      self.events.countP Event.isUnref = 2 * self.events.countP (Event.yieldsBuffer load) := by
  refine ⟨_, runCalls_associate_prepares_dispose config configs, ?_⟩
  have history := @preparesWith_unrefs Buffer load (Priv.fresh config.compositeOp) configs
  obtain ⟨unrefs, yields⟩ := @countP_dispose_events Buffer load
    (preparesWith load (Priv.fresh config.compositeOp) configs).1.cache
  have fresh : (Priv.fresh config.compositeOp : Priv Buffer).cache.buffer.isSome.toNat = 0 := rfl
  dsimp only
  simp only [List.append_assoc, List.countP_append] at unrefs yields ⊢
  omega

end Layer
end Gegl
