import DocStore.Document
import DocStore.Storage.Backend

namespace DocStore

-- A started reactor. Its number is its own, its kind tells who runs it, and it was set up by a
-- document.
structure Instance where
  number : Nat
  kind : String
  source : Document
  deriving BEq, Repr, Inhabited

-- What takes part in the changes of a model's documents.
inductive Reactor where
  -- lets no document change
  | immutable
  | started (inst : Instance)
  deriving BEq, Repr, Inhabited

-- What a reactor can see and change: the storage below the store, the clock, and what the runtimes
-- keep.
structure Site (σ : Type) where
  kv : Kv
  now : Time
  host : σ

-- How it ends when a change is brought to reactors.
inductive Outcome where
  | done
  | failed (e : Error)
  -- the work stopped dead, and nothing of it is told
  | crashed
  deriving DecidableEq, Repr

-- The runtimes that started reactors live in. A program that embeds the store supplies them; `σ` is
-- what they keep.
structure Host (σ : Type) where
  start : Instance → σ → Except Error Unit × σ
  -- checks a change, and may replace the new document
  validate : Instance → Context → Option Document → Option Document → Site σ →
    Except Error (Option Document) × Site σ
  -- acts on a committed change
  reconcile : Instance → Context → Option Document → Option Document → Site σ → Outcome × Site σ
  stop : Instance → σ → σ

namespace Host

-- A program without runtimes.
def none : Host Unit where
  start _ s := (.ok (), s)
  validate _ _ _ new site := (.ok new, site)
  reconcile _ _ _ _ site := (.done, site)
  stop _ s := s

variable {σ : Type}

def validateWith (host : Host σ) (reactor : Reactor) (ctx : Context) (old new : Option Document)
    (site : Site σ) : Except Error (Option Document) × Site σ :=
  match reactor with
  | .immutable =>
    if old.isSome && new.isSome then (.error (.validation "Document is immutable"), site)
    else (.ok new, site)
  | .started inst => host.validate inst ctx old new site

def reconcileWith (host : Host σ) (reactor : Reactor) (ctx : Context) (old new : Option Document)
    (site : Site σ) : Outcome × Site σ :=
  match reactor with
  | .immutable => (.done, site)
  | .started inst => host.reconcile inst ctx old new site

def stopReactor (host : Host σ) (reactor : Reactor) (s : σ) : σ :=
  match reactor with
  | .immutable => s
  | .started inst => host.stop inst s

end Host

end DocStore
