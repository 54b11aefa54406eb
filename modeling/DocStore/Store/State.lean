import DocStore.Model
import DocStore.Reconcile.Queue
import DocStore.Reconcile.Task

namespace DocStore

-- What stays the same about a store: its settings, and the runtimes that it was given.
structure Store (σ : Type) where
  config : Config
  host : Host σ

-- Everything that a store holds from one operation to the next.
structure World (σ : Type) where
  site : Site σ
  models : ModelCache
  registry : Registry
  queue : TaskQueue ReconcileTask
  bus : Option Bus

-- An operation of a store. What it did before it failed stays done.
abbrev Action (σ : Type) := ExceptT Error (StateM (World σ))

namespace World

variable {σ : Type}

-- A new store. The settings must be usable.
def start (config : Config) (bus : Option Bus) (now : Time) (s : σ) : Except Error (World σ) := do
  config.check
  return {
    site := ⟨Kv.new config.backend, now, s⟩
    models := ModelCache.empty
    registry := Registry.new
    queue := TaskQueue.new config.reconcile.workers config.reconcile.maxQueueDepth
    bus := bus }

-- What the context says now.
def signal (w : World σ) (ctx : Context) : Signal := ctx.signal w.site.now

def withKv (w : World σ) (kv : Kv) : World σ := { w with site := { w.site with kv := kv } }

-- Time goes on by the least there is, or up to an instant.
def pass (w : World σ) (until_ : Time) : World σ :=
  { w with site := { w.site with now := max (w.site.now + 1) until_ } }

end World

namespace Action

variable {σ α : Type}

-- Changes the world by a function that also gives an answer.
def ofStep (step : World σ → Except Error α × World σ) : Action σ α := ExceptT.mk (fun w => step w)

-- Fails if the context is over.
def check (ctx : Context) : Action σ Unit := ofStep (fun w => ((w.signal ctx).check, w.pass 0))

-- Reads what is committed, through a reader that is closed again.
def reading (ctx : Context) (f : View → Except Error α) : Action σ α :=
  ofStep (fun w =>
    let (h, kv) := w.site.kv.read
    let result := f (kv.view h (w.signal ctx))
    (result, (w.withKv (kv.close h).2).pass 0))

-- Changes the running reactors, and what the runtimes keep.
def onRegistry (change : Registry → σ → α × Registry × σ) : Action σ α :=
  ofStep (fun w =>
    let (a, registry, host) := change w.registry w.site.host
    (.ok a, { w with registry := registry, site := { w.site with host := host } }))

-- Waits, unless the context ends before.
def backoff (ctx : Context) (duration : Time) : Action σ Unit :=
  ofStep (fun w =>
    let (signal, now) := ctx.wait w.site.now duration
    (signal.check, { w with site := { w.site with now := now } }))

end Action

end DocStore
