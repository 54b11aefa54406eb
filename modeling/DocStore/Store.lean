import DocStore.Query.Parse
import DocStore.Store.Attempt

namespace DocStore.Store

variable {σ : Type}

section Reconciliation

-- Does a task of the queue, or one that was not queued.
def perform (store : Store σ) (task : ReconcileTask) : Action σ Unit :=
  Action.ofStep (fun w =>
    let (bus, site) := task.run w.registry store.host store.config.reconcile w.bus w.site
    (.ok (), { w with bus := bus, site := site }))

-- Brings a committed change to the reactors of the model, if it has any: by way of the queue, or at
-- once.
def announce (store : Store σ) (model : Model) (old new : Option Document) : Action σ Unit := do
  if model.reactors.isEmpty then return
  let task : ReconcileTask := ⟨model.reactors, old, new⟩
  match (← get).queue.schedule? (Priority.ofModel model.id) task with
  | some queue => modify ({ · with queue := queue })
  | none =>
    perform store task
    modify (fun w => { w with queue := w.queue.noteInline })

-- Lets workers do what waits in the queue. `fuel` bounds the number of tasks.
def settle (store : Store σ) : Nat → Action σ Unit
  | 0 => return
  | fuel + 1 => do
    match (← get).queue.take? with
    | none => return
    | some (ticket, queue) =>
      modify ({ · with queue := queue })
      perform store ticket.task
      modify (fun w => { w with queue := w.queue.finish ticket.number })
      settle store fuel

-- Waits until the queue is empty.
def drain (store : Store σ) : Action σ Unit := do
  settle store (← get).queue.waiting.length

-- Finishes what waits in the queue, and stops all reactors. From now on nothing is queued.
def shutdown (store : Store σ) : Action σ Unit := do
  modify (fun w => { w with queue := w.queue.close })
  drain store
  Action.onRegistry (fun registry s => ((), registry.stopAll store.host s))

end Reconciliation

section Reading

-- The compiled model of a name, from the cache if it is there. The generation is noted before the
-- model is read, so that a model which changes meanwhile is not kept.
def model (ctx : Context) (name : String) : Action σ Model := do
  match Model.builtIn? name with
  | some builtIn => return builtIn
  | none =>
    match (← get).models.get? name with
    | some cached => return cached
    | none =>
      let generation := (← get).models.generation name
      match ← Action.reading ctx (stored? modelOfModels name) with
      | none => throw (.validation ("validation error: model " ++ name ++ " does not exist"))
      | some doc =>
        let compiled ← liftExcept (Model.ofDocument doc)
        let (kept, models) := (← get).models.insert compiled generation
        modify ({ · with models := models })
        return kept
where
  liftExcept {α : Type} (r : Except Error α) : Action σ α := ExceptT.mk (pure r)

-- Tells whether the store can be used.
def ping (ctx : Context) : Action σ BackendKind := do
  Action.check ctx
  return (← get).site.kv.kind

-- One document. Documents of reactors come with their status.
def get (ctx : Context) (model id : String) : Action σ Document := do
  Action.check ctx
  Identifier.checkPath model id
  match ← Action.reading ctx (stored? model id) with
  | none => throw notFound
  | some doc =>
    if model == modelOfReactors then
      return { doc with status := some ((← MonadState.get).registry.status id) }
    else return doc

-- One page of a search.
def search (store : Store σ) (ctx : Context) (request : SearchRequest) :
    Action σ SearchResponse := do
  Action.check ctx
  Action.reading ctx (fun view => Search.page view store.config.search request)

-- Runs a query that is given as a text. Linked queries are not run.
def query (store : Store σ) (ctx : Context) (text : String) (params : List Value) :
    Action σ SearchResponse := do
  match Query.parse text params with
  | .ok q => search store ctx q.toRequest
  | .error e => throw (.validation ("invalid query: " ++ e.message))

end Reading

section Writing

-- What a document that sets something up asks for: models need running reactors, and a reactor is
-- started.
def prepare (store : Store σ) (doc : Document) : Action σ (Option Instance) := do
  if doc.model == modelOfModels then
    let declared ← Model.ofDocument doc
    (← MonadState.get).registry.ensureRunning declared.reactors
    return none
  else if doc.model == modelOfReactors then
    match ← Action.onRegistry (fun registry s => registry.prepare store.host doc s) with
    | .ok inst => return some inst
    | .error fault => throw fault.toError
  else return none

-- Stops a reactor that was started for nothing.
def discard (store : Store σ) (prepared : Option Instance) : Action σ Unit :=
  match prepared with
  | some inst => Action.onRegistry (fun r s => ((), r, store.host.stop inst s))
  | none => return

def install (store : Store σ) (id : String) (prepared : Option Instance) : Action σ Unit :=
  match prepared with
  | some inst => Action.onRegistry (fun r s => ((), r.install store.host id inst s))
  | none => return

-- Writes a document in a transaction. A writer that names a version reserves the document and has
-- one attempt; any other has as many as the settings allow.
def write (store : Store σ) (ctx : Context) (model : Model) (doc : Document) :
    Action σ WriteOutcome :=
  let changes : WriteOutcome → Bool
    | .unchanged _ => false
    | .written _ _ => true
  let body := putAttempt store.config.encoding ctx model doc doc.version
  match doc.version with
  | some _ =>
    let key := Key.document doc.model doc.id
    let openKv (kv : Kv) (signal : Signal) (stop : Error) := kv.writeExclusive signal stop [key]
    tryCatch (transact store.host ctx openKv body changes)
      (fun e => throw (if e.isRetryable then preempted else e))
  | none =>
    let config := store.config.retry
    retrying config ctx (transact store.host ctx Kv.write body changes) config.maxRetries

-- Creates or changes a document. The answer is the stored document.
def put (store : Store σ) (ctx : Context) (doc : Document) : Action σ Document := do
  Action.check ctx
  Identifier.checkPath doc.model doc.id
  let prepared ← prepare store doc
  let model ← model ctx doc.model
  if doc.mutations.isNone then checkBody model doc.val
  let outcome ← tryCatch (write store ctx model doc) (fun e => do
    discard store prepared
    throw e)
  match outcome with
  | .unchanged stored =>
    if (← MonadState.get).registry.isRunning stored.id then discard store prepared
    else install store stored.id prepared
    return stored
  | .written old new =>
    if new.model == modelOfModels then
      modify (fun w => { w with models := w.models.invalidate new.id })
    else if new.model == modelOfReactors then install store new.id prepared
    announce store model old (some new)
    return new

-- Deletes a document. The answer is the document that was stored.
def delete (store : Store σ) (ctx : Context) (model id : String) : Action σ Document := do
  Action.check ctx
  Identifier.checkPath model id
  let target ← Store.model ctx model
  let body := deleteAttempt ctx target model id
  let config := store.config.retry
  let run := transact store.host ctx Kv.write body (fun _ => true)
  let old ← retrying config ctx run config.maxRetries
  if model == modelOfModels then
    modify (fun w => { w with models := w.models.invalidate id })
  else if model == modelOfReactors then
    let _ ← Action.onRegistry (fun registry s => registry.remove store.host id s)
  announce store target (some old) none
  return old

end Writing

end DocStore.Store
