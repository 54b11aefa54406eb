import DocStore.Index.Maintenance
import DocStore.Mutation
import DocStore.Store.State

namespace DocStore

-- A transaction in which a change is being prepared, and the world around it.
structure Draft (σ : Type) where
  handle : Handle
  world : World σ

-- The work of one transaction between its start and its end, as the steps that it takes one after
-- the other. Other transactions may take steps between any two of them.
inductive Attempt (α : Type) where
  | done (result : Except Error α)
  | reading (ctx : Context) (next : View → Attempt α)
  | writing (writes : List Write) (next : Attempt α)
  | validating (ctx : Context) (reactors : List String) (old new : Option Document)
      (next : Option Document → Attempt α)
  | timing (next : Timestamp → Attempt α)

namespace Attempt

variable {σ α β : Type}

-- Goes on with what an attempt has come to, unless that is a failure.
def bind : Attempt α → (α → Attempt β) → Attempt β
  | done (.ok a), f => f a
  | done (.error e), _ => done (.error e)
  | reading ctx next, f => reading ctx (fun view => (next view).bind f)
  | writing writes next, f => writing writes (next.bind f)
  | validating ctx reactors old new next, f =>
    validating ctx reactors old new (fun verdict => (next verdict).bind f)
  | timing next, f => timing (fun now => (next now).bind f)

instance : Monad Attempt where
  pure a := done (.ok a)
  bind := bind

instance : MonadLift (Except Error) Attempt := ⟨done⟩

-- Reads what is committed below what the transaction has written.
def read (ctx : Context) (f : View → Except Error α) : Attempt α :=
  reading ctx (fun view => done (f view))

def write (writes : List Write) : Attempt Unit := writing writes (done (.ok ()))

-- Lets the reactors of a model check the change.
def validate (ctx : Context) (reactors : List String) (old new : Option Document) :
    Attempt (Option Document) :=
  validating ctx reactors old new (fun verdict => done (.ok verdict))

-- The time by the calendar.
def calendar : Attempt Timestamp := timing (fun now => done (.ok now))

-- Does the work in one go, so that nobody else takes a step meanwhile.
def perform (host : Host σ) : Attempt α → Draft σ → Except Error α × Draft σ
  | done result, d => (result, d)
  | reading ctx next, d =>
    (next (d.world.site.kv.view d.handle (d.world.signal ctx))).perform host
      { d with world := d.world.pass 0 }
  | writing writes next, d =>
    match Kv.bufferAll d.handle writes with
    | .ok h => next.perform host { d with handle := h }
    | .error e => (.error e, d)
  | validating ctx reactors old new next, d =>
    match d.world.registry.validate host ctx old reactors new d.world.site with
    | (.ok verdict, site) =>
      (next verdict).perform host { d with world := { d.world with site := site } }
    | (.error e, site) => (.error e, { d with world := { d.world with site := site } })
  | timing next, d =>
    let now := d.world.site.now
    (next ⟨(now / 1000000000 : Nat), now % 1000000000⟩).perform host d

end Attempt

-- What a write came to.
inductive WriteOutcome where
  -- the stored document already has the body
  | unchanged (stored : Document)
  | written (old : Option Document) (new : Document)
  deriving BEq, Repr, Inhabited

namespace Store

variable {σ α : Type}

def versionOutdated : Error := .conflict "version is out of date"
def preempted : Error := .conflict "preempted by a different parallel write"
def notFound : Error := .notFound "document not found"
def modelInUse : Error := .conflict "model is in use"

section Steps

-- The stored document, if there is one.
def stored? (model id : String) (view : View) : Except Error (Option Document) := do
  match ← view.get (Key.document model id) with
  | some record => return some (← Record.decode record)
  | none => return none

-- A writer that names a version demands that it is the stored one. Nothing stored counts as zero.
def checkVersion (expected : Option Nat) (old : Option Document) : Except Error Unit :=
  match expected with
  | none => .ok ()
  | some expected =>
    match old with
    | some stored => if stored.currentVersion = expected then .ok () else .error versionOutdated
    | none => if expected = 0 then .ok () else .error versionOutdated

def checkBody (model : Model) (val : Value) : Except Error Unit :=
  match model.schema with
  | some schema => (schema.validate val).mapError SchemaFault.toError
  | none => .ok ()

-- The new body: the given one, or the stored one with its mutations, which then has to fit the
-- schema.
def newBody (model : Model) (doc : Document) (old : Option Document) : Except Error Value :=
  match doc.mutations with
  | none => .ok doc.val
  | some mutations => do
    let base := (old.map (·.val)).getD .null
    let val ← (Mutation.apply base mutations).mapError (fun fault => Error.validation fault.message)
    checkBody model val
    return val

-- The record that a write leaves, before reactors have a say in its body.
def candidate (doc : Document) (old : Option Document) (val : Value) (now : Timestamp) : Document :=
  { id := doc.id
    model := doc.model
    version := some ((old.map Document.currentVersion).getD 0 + 1)
    history := some ⟨((old.bind (·.history)).map (·.created)).getD now, now⟩
    val := val
    status := none
    mutations := none }

-- Reactors may replace the body and nothing else.
def reviewed (fresh : Document) : Option Document → Document
  | some replaced => { fresh with val := replaced.val }
  | none => fresh

end Steps

-- Writes a document, and puts it into the index.
def place (encoding : Encoding) (ctx : Context) (model : Model) (new : Document) :
    Attempt Unit := do
  Attempt.write [(Key.document new.model new.id, some (Record.encode encoding new))]
  Attempt.write (← Attempt.read ctx (fun view => Index.add view model new))

-- Prepares the change of one document. An unchanged body is not written.
def putAttempt (encoding : Encoding) (ctx : Context) (model : Model) (doc : Document)
    (expected : Option Nat) : Attempt WriteOutcome := do
  let old ← Attempt.read ctx (stored? doc.model doc.id)
  checkVersion expected old
  let val ← newBody model doc old
  match old with
  | some stored =>
    if stored.val.equals val then return .unchanged stored
    Attempt.write (← Attempt.read ctx (fun view => Index.remove view model stored))
  | none => pure ()
  let fresh := candidate doc old val (← Attempt.calendar)
  let new := reviewed fresh (← Attempt.validate ctx model.reactors old (some fresh))
  place encoding ctx model new
  return .written old new

-- A model that still has documents cannot be deleted.
def checkUnused (id : String) (view : View) : Except Error Unit :=
  match view.entries (KeyRange.ofPrefix (Key.documents id)) with
  | [] => .ok ()
  | .ok _ :: _ => .error modelInUse
  | .error e :: _ => .error e

-- Prepares the deletion of one document, and tells what is deleted.
def deleteAttempt (ctx : Context) (target : Model) (model id : String) : Attempt Document := do
  match ← Attempt.read ctx (stored? model id) with
  | none => .done (.error notFound)
  | some old =>
    if model == modelOfModels then Attempt.read ctx (checkUnused id)
    let _ ← Attempt.validate ctx target.reactors (some old) none
    Attempt.write (← Attempt.read ctx (fun view => Index.remove view target old))
    Attempt.write [(Key.document model id, none)]
    return old

section Transactions

-- Opens a writer. The wait for it may take time.
def openWriter (ctx : Context) (openKv : Kv → Signal → Error → Except Error Handle × Kv) :
    Action σ Handle :=
  Action.ofStep (fun w =>
    let (stop, stopTime) := ctx.giveUp w.site.now
    match openKv w.site.kv (w.signal ctx) stop with
    | (.ok h, kv) => (.ok h, (w.withKv kv).pass 0)
    | (.error e, kv) => (.error e, (w.withKv kv).pass stopTime))

-- Does the work of a transaction. The handle is given back, whatever comes of it.
def work (host : Host σ) (h : Handle) (body : Attempt α) :
    Action σ (Except Error α × Handle) :=
  Action.ofStep (fun w =>
    let (result, draft) := body.perform host ⟨h, w⟩
    (.ok (result, draft.handle), draft.world))

def commit (ctx : Context) (h : Handle) : Action σ Unit :=
  Action.ofStep (fun w =>
    let (result, _, kv) := w.site.kv.commit h (w.signal ctx)
    (result, (w.withKv kv).pass 0))

def rollback (h : Handle) : Action σ Unit :=
  Action.ofStep (fun w => (.ok (), w.withKv (w.site.kv.close h).2))

-- One transaction from start to end. It is committed if the work is done and changes something.
def transact (host : Host σ) (ctx : Context)
    (openKv : Kv → Signal → Error → Except Error Handle × Kv) (body : Attempt α)
    (changes : α → Bool) : Action σ α := do
  let h ← openWriter ctx openKv
  let (result, h) ← work host h body
  match result with
  | .error e =>
    rollback h
    throw e
  | .ok a =>
    if changes a then commit ctx h else rollback h
    return a

-- Runs a transaction again as long as it loses races, up to `left` times more.
def retrying (config : RetryConfig) (ctx : Context) (run : Action σ α) : Nat → Action σ α
  | 0 => tryCatch run (fun e => throw (if e.isRetryable then preempted else e))
  | left + 1 =>
    tryCatch run fun e =>
      if e.isRetryable then do
        let attempt := config.maxRetries - (left + 1)
        Action.backoff ctx (Time.ofMillis (config.longestDelay attempt))
        retrying config ctx run left
      else throw e

end Transactions

end Store

end DocStore
