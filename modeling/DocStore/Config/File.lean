import DocStore.Config
import DocStore.Toml.Read
import DocStore.Toml.Write

-- Settings as they are kept in a file.
namespace DocStore.Config

section Reading

-- A part of a section. A section may also be given as a list, in the order of its settings; a date
-- in its place sets nothing.
private def part? (section_ : Toml) (place : Nat) (name : String) : Option Toml :=
  match section_ with
  | .table entries => Assoc.get? name entries
  | .list items => items[place]?
  | _ => none

-- A setting, which keeps its default where it is not given.
private def setting {α : Type} (section_ : Toml) (place : Nat) (name : String)
    (read? : Toml → Option α) (default : α) : Option α :=
  match part? section_ place name with
  | some v => read? v
  | none => some default

private def count? : Toml → Option Nat
  | .int n => if 0 ≤ n then some n.toNat else none
  | _ => none

private def flag? : Toml → Option Bool
  | .bool b => some b
  | _ => none

private def text? : Toml → Option String
  | .text s => some s
  | _ => none

-- A choice is a name, or a table in which the name has nothing to say.
private def choice? {α : Type} (ofName? : String → Option α) : Toml → Option α
  | .text name => ofName? name
  | .table [(name, .table [])] => ofName? name
  | .table [(name, .list [])] => ofName? name
  | _ => none

private def isSection : Toml → Bool
  | .table _ => true
  | .list _ => true
  | .date => true
  | _ => false

private def sectionOf? {α : Type} (read? : Toml → Option α) (v : Toml) : Option α :=
  if isSection v then read? v else none

private def retry? (v : Toml) : Option RetryConfig := do
  let d := RetryConfig.standard
  some ⟨← setting v 0 "max_retries" count? d.maxRetries,
    ← setting v 1 "base_delay_ms" count? d.baseDelay,
    ← setting v 2 "max_delay_ms" count? d.maxDelay,
    ← setting v 3 "jitter" flag? d.jitter⟩

private def reconcile? (v : Toml) : Option ReconcileConfig := do
  let d := ReconcileConfig.standard
  some ⟨← setting v 0 "workers" count? d.workers,
    ← setting v 1 "max_queue_depth" count? d.maxQueueDepth,
    ← setting v 2 "max_attempts" count? d.maxAttempts,
    ← setting v 3 "base_delay_ms" count? d.baseDelay,
    ← setting v 4 "max_delay_ms" count? d.maxDelay,
    ← setting v 5 "timeout_ms" count? d.timeout,
    ← setting v 6 "lock_lease_ms" count? d.lockLease⟩

private def search? (v : Toml) : Option SearchConfig := do
  let d := SearchConfig.standard
  some ⟨← setting v 0 "default_limit" count? d.defaultLimit,
    ← setting v 1 "max_limit" count? d.maxLimit⟩

-- The settings that a document gives. Others than these are ignored.
def ofToml? (v : Toml) : Option Config := do
  let d := Config.standard
  some ⟨← setting v 0 "backend" (choice? BackendKind.ofName?) d.backend,
    ← setting v 1 "encoding" (choice? Encoding.ofName?) d.encoding,
    ← setting v 2 "log_level" text? d.logLevel,
    ← setting v 3 "retry" (sectionOf? retry?) d.retry,
    ← setting v 4 "reconcile" (sectionOf? reconcile?) d.reconcile,
    ← setting v 5 "search" (sectionOf? search?) d.search⟩

-- The settings in a file, once they are found usable.
def load (path : String) : Option String → Except Error Config
  | none =>
    .error (.internal ("failed to read config file '" ++ path
      ++ "': No such file or directory (os error 2)"))
  | some contents =>
    match (Toml.read? contents).bind ofToml? with
    | none => .error (.validation ("failed to parse config file '" ++ path ++ "'"))
    | some config => do
      config.check
      return config

end Reading

section Writing

def toToml (config : Config) : Toml :=
  let counts (entries : List (String × Nat)) : List (String × Toml) :=
    entries.map (fun e => (e.1, .int e.2))
  let (retry, reconcile, search) := (config.retry, config.reconcile, config.search)
  .table [
    ("backend", .text config.backend.name),
    ("encoding", .text config.encoding.name),
    ("log_level", .text config.logLevel),
    ("retry", .table (counts [
      ("max_retries", retry.maxRetries),
      ("base_delay_ms", retry.baseDelay),
      ("max_delay_ms", retry.maxDelay)] ++ [("jitter", .bool retry.jitter)])),
    ("reconcile", .table (counts [
      ("workers", reconcile.workers),
      ("max_queue_depth", reconcile.maxQueueDepth),
      ("max_attempts", reconcile.maxAttempts),
      ("base_delay_ms", reconcile.baseDelay),
      ("max_delay_ms", reconcile.maxDelay),
      ("timeout_ms", reconcile.timeout),
      ("lock_lease_ms", reconcile.lockLease)])),
    ("search", .table (counts [
      ("default_limit", search.defaultLimit),
      ("max_limit", search.maxLimit)]))]

-- The text of a file with the given settings. A file cannot hold numbers beyond 63 bits.
def save (config : Config) : Except Error String :=
  match config.toToml.render? with
  | some text => .ok text
  | none => .error (.internal "failed to serialize config: out-of-range value for u64 type")

-- What a new file holds: the standard settings, with comments.
def standardLines : List String :=
  ["# Apogy engine configuration",
    "#",
    "# KV backend: \"mvcc\" (default) or \"embedded\"",
    "#   \"mvcc\"     = snapshot isolation, commit-time conflict detection",
    "#   \"embedded\" = one global write gate, reads are not snapshot-isolated",
    "backend = \"mvcc\"",
    "",
    "# Encoding of stored documents: \"json\" (default) or \"msgpack\".",
    "# Readers accept both, so this can be changed at any time.",
    "encoding = \"json\"",
    "",
    "# trace, debug, info, warn, error",
    "log_level = \"info\"",
    "",
    "# Retry policy for writes without an explicit version",
    "[retry]",
    "max_retries = 100",
    "base_delay_ms = 1",
    "max_delay_ms = 50",
    "jitter = true",
    "",
    "# Post-commit reactor reconciliation",
    "[reconcile]",
    "workers = 2",
    "max_queue_depth = 4096",
    "max_attempts = 10",
    "base_delay_ms = 10",
    "max_delay_ms = 1000",
    "timeout_ms = 60000",
    "lock_lease_ms = 1000",
    "",
    "[search]",
    "default_limit = 100",
    "max_limit = 1000",
    ""]

def standardText : String := String.intercalate "\n" standardLines

-- A file that is there is left as it is.
def provide (file : Option String) : String := file.getD standardText

end Writing

end DocStore.Config
