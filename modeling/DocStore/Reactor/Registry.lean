import DocStore.Config
import DocStore.Reactor

namespace DocStore

-- The kinds of reactors that can be started, and the reactors that are running, by id.
structure Registry where
  kinds : List String
  running : SortedMap String Reactor
  -- how many reactors were ever started
  started : Nat

-- Why a document sets up no reactor.
inductive ReactorFault where
  | builtIn (id : String)
  | kindNotText
  | kindMissing
  | unknownKind (kind : String)
  | notStarted (id : String) (cause : Error)
  deriving DecidableEq, Repr

namespace ReactorFault

def message : ReactorFault → String
  | .builtIn id => "invalid reactor: " ++ id ++ " is built in"
  | .kindNotText => "invalid reactor: val.runtime must be string"
  | .kindMissing => "invalid reactor: val.runtime is required"
  | .unknownKind kind => "invalid reactor: runtime " ++ kind ++ " not supported"
  | .notStarted _ (.validation m) => m
  | .notStarted id cause => "invalid reactor " ++ id ++ ": " ++ cause.message

def toError (fault : ReactorFault) : Error := .validation fault.message

end ReactorFault

namespace Registry

-- The one reactor that is always running.
def immutableId : String := "Immutable"

def isBuiltIn (id : String) : Bool := id == immutableId

def new : Registry := ⟨[], SortedMap.empty.insert immutableId .immutable, 0⟩

def register (r : Registry) (kind : String) : Registry :=
  if r.kinds.contains kind then r else { r with kinds := r.kinds ++ [kind] }

def hasKind (r : Registry) (kind : String) : Bool := r.kinds.contains kind

def get? (r : Registry) (id : String) : Option Reactor := r.running.get? id

def isRunning (r : Registry) (id : String) : Bool := (r.get? id).isSome

-- Every listed reactor must be running.
def ensureRunning (r : Registry) (ids : List String) : Except Error Unit :=
  match ids.find? (fun id => !r.isRunning id) with
  | some missing => .error (.validation ("validation error: reactor does not exist: " ++ missing))
  | none => .ok ()

-- What is reported of a reactor beside its document.
def status (r : Registry) (id : String) : Value :=
  .object [("reactor", .object [("running", .bool (r.isRunning id))])]

-- The kind of reactor that a document asks for.
def kindOf (doc : Document) : Except ReactorFault String :=
  if isBuiltIn doc.id then .error (.builtIn doc.id)
  else
    match doc.val.get? "runtime" with
    | some (.string kind) => if kind.isEmpty then .error .kindNotText else .ok kind
    | some _ => .error .kindNotText
    | none => .error .kindMissing

variable {σ : Type}

-- Starts a reactor from its document, without putting it to work.
def prepare (r : Registry) (host : Host σ) (doc : Document) (s : σ) :
    Except ReactorFault Instance × Registry × σ :=
  match kindOf doc with
  | .error fault => (.error fault, r, s)
  | .ok kind =>
    if !r.hasKind kind then (.error (.unknownKind kind), r, s)
    else
      let inst : Instance := ⟨r.started + 1, kind, doc⟩
      match host.start inst s with
      | (.ok (), s) => (.ok inst, { r with started := r.started + 1 }, s)
      | (.error e, s) => (.error (.notStarted doc.id e), r, s)

-- Puts a started reactor to work, and stops the one it replaces.
def install (r : Registry) (host : Host σ) (id : String) (inst : Instance) (s : σ) : Registry × σ :=
  let replaced := { r with running := r.running.insert id (.started inst) }
  match r.get? id with
  | some previous => (replaced, host.stopReactor previous s)
  | none => (replaced, s)

-- Takes a reactor from work and stops it. Built-in ones stay.
def remove (r : Registry) (host : Host σ) (id : String) (s : σ) : Bool × Registry × σ :=
  if isBuiltIn id then (false, r, s)
  else
    match r.get? id with
    | some reactor => (true, { r with running := r.running.erase id }, host.stopReactor reactor s)
    | none => (false, r, s)

-- Stops every reactor that is not built in.
def stopAll (r : Registry) (host : Host σ) (s : σ) : Registry × σ :=
  let stopped := r.running.toList.filter (fun e => !isBuiltIn e.1)
  ({ r with running := r.running.filterKeys isBuiltIn },
    stopped.foldl (fun s e => host.stopReactor e.2 s) s)

-- How the error of a reactor is told, when it rejects a change.
def rejection (id : String) (e : Error) : Error :=
  if e.isCancelled then e
  else .validation ("reactor " ++ id ++ " rejected change: " ++ e.message)

-- Lets the listed reactors check a change, one after the other. Those that are not running are
-- skipped.
def validate (r : Registry) (host : Host σ) (ctx : Context) (old : Option Document) :
    List String → Option Document → Site σ → Except Error (Option Document) × Site σ
  | [], new, site => (.ok new, site)
  | id :: rest, new, site =>
    match r.get? id with
    | none => validate r host ctx old rest new site
    | some reactor =>
      match host.validateWith reactor ctx old new site with
      | (.ok new, site) => validate r host ctx old rest new site
      | (.error e, site) => (.error (rejection id e), site)

-- Brings a change to one reactor, with up to `left` more attempts after a failure. It ends with the
-- error of the last attempt, if that failed; what breaks off all reconciliation is told apart.
def bring (host : Host σ) (config : RetryConfig) (ctx : Context) (reactor : Reactor)
    (old new : Option Document) : Nat → Site σ → Except Outcome (Option Error) × Site σ
  | left, site =>
    match host.reconcileWith reactor ctx old new site with
    | (.done, site) => (.ok none, site)
    | (.crashed, site) => (.error .crashed, site)
    | (.failed e, site) =>
      match left with
      | 0 => (.ok (some e), site)
      | left + 1 =>
        if e.isCancelled then (.ok (some e), site)
        else
          let delay := config.longestDelay (config.maxRetries - (left + 1))
          let (signal, now) := ctx.wait site.now (Time.ofMillis delay)
          let site := { site with now := now }
          match signal.check with
          | .ok () => bring host config ctx reactor old new left site
          | .error e => (.error (.failed e), site)

-- Brings a change to every listed reactor, whether or not earlier ones failed. The outcome is the
-- last failure, if there was one.
def reconcile (r : Registry) (host : Host σ) (config : RetryConfig) (ctx : Context)
    (old new : Option Document) : List String → Outcome → Site σ → Outcome × Site σ
  | [], outcome, site => (outcome, site)
  | id :: rest, outcome, site =>
    match r.get? id with
    | none => reconcile r host config ctx old new rest outcome site
    | some reactor =>
      match bring host config ctx reactor old new config.maxRetries site with
      | (.ok none, site) => reconcile r host config ctx old new rest outcome site
      | (.ok (some e), site) => reconcile r host config ctx old new rest (.failed e) site
      | (.error broken, site) => (broken, site)

end Registry

end DocStore
