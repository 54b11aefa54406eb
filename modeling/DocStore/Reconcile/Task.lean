import DocStore.Bus
import DocStore.Reactor.Registry

namespace DocStore

-- A committed change that is to be brought to the reactors of its model.
structure ReconcileTask where
  reactors : List String
  old : Option Document
  new : Option Document
  deriving BEq, Repr, Inhabited

namespace ReconcileTask

-- The document that the change is about.
def subject? (task : ReconcileTask) : Option Document := task.new.orElse (fun _ => task.old)

variable {σ : Type}

-- Brings the change to the reactors, within the time that the settings allow.
def bring (task : ReconcileTask) (registry : Registry) (host : Host σ) (config : ReconcileConfig)
    (ctx : Context) (site : Site σ) : Outcome × Site σ :=
  registry.reconcile host config.retry ctx task.old task.new task.reactors .done site

-- What follows the work under a lock: success is told on the bus, and the lock is given up. Work
-- that stopped dead gives up the lock and no more.
def conclude (path : String) (outcome : Outcome) (lock : Lock) (now : Time) (bus : Bus) : Bus :=
  let bus := match outcome with
    | .crashed => bus
    | .done =>
      ((bus.keepAlive now lock).toOption.getD bus).send Bus.reconcileTopic (Bytes.ofString path)
    | .failed _ => (bus.keepAlive now lock).toOption.getD bus
  (bus.unlock lock).2

-- Does the task. Where stores share a bus, only the one that gets the lock on the document does it.
def run (task : ReconcileTask) (registry : Registry) (host : Host σ) (config : ReconcileConfig)
    (bus : Option Bus) (site : Site σ) : Option Bus × Site σ :=
  match task.subject? with
  | none => (bus, site)
  | some subject =>
    let ctx : Context := ⟨none, some (site.now + Time.ofMillis config.timeout)⟩
    match bus with
    | none => (none, (task.bring registry host config ctx site).2)
    | some bus =>
      let key := Bus.reconcileKey subject.model subject.id
      match bus.lock ctx site.now key (Time.ofMillis config.lockLease) with
      | (.error _, bus, now) => (some bus, { site with now := now })
      | (.ok lock, bus, now) =>
        let (outcome, site) := task.bring registry host config ctx { site with now := now }
        (some (conclude subject.path outcome lock site.now bus), site)

end ReconcileTask

end DocStore
