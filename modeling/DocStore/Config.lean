import DocStore.LogLevel
import DocStore.Record
import DocStore.Retry
import DocStore.Search
import DocStore.Storage.Backend

namespace DocStore

-- How committed changes are brought to reactors. Times are in milliseconds.
structure ReconcileConfig where
  -- none of them: changes are brought while the writer waits
  workers : Nat
  maxQueueDepth : Nat
  maxAttempts : Nat
  baseDelay : Nat
  maxDelay : Nat
  timeout : Nat
  lockLease : Nat
  deriving DecidableEq, Repr, Inhabited

namespace ReconcileConfig

def standard : ReconcileConfig := ⟨2, 4096, 10, 10, 1000, 60000, 1000⟩

-- How failed attempts of one reactor are repeated.
def retry (config : ReconcileConfig) : RetryConfig :=
  { RetryConfig.standard with
    maxRetries := config.maxAttempts - 1
    baseDelay := config.baseDelay
    maxDelay := config.maxDelay }

end ReconcileConfig

-- The settings of a store.
structure Config where
  backend : BackendKind
  -- the format of new records; either format is read
  encoding : Encoding
  logLevel : String
  retry : RetryConfig
  reconcile : ReconcileConfig
  search : SearchConfig
  deriving DecidableEq, Repr, Inhabited

-- Why settings cannot be used.
inductive ConfigFault where
  | unknownLogLevel (level : String)
  | emptyPage
  | pageBeyondLimit
  | noAttempt
  deriving DecidableEq, Repr

namespace ConfigFault

def message : ConfigFault → String
  | .unknownLogLevel level =>
    "invalid log_level '" ++ level ++ "' in apogy.toml: expected trace, debug, info, warn or error"
  | .emptyPage => "search limits must be positive"
  | .pageBeyondLimit => "search.default_limit must not exceed search.max_limit"
  | .noAttempt => "reconcile.max_attempts must be positive"

def toError (fault : ConfigFault) : Error := .validation fault.message

end ConfigFault

namespace Config

def standard : Config :=
  ⟨.mvcc, .json, "info", RetryConfig.standard, ReconcileConfig.standard, SearchConfig.standard⟩

def level (config : Config) : Except ConfigFault LogLevel :=
  match LogLevel.ofText? config.logLevel with
  | some level => .ok level
  | none => .error (.unknownLogLevel config.logLevel)

-- The first thing that is wrong with the settings.
def fault? (config : Config) : Option ConfigFault :=
  match config.level with
  | .error fault => some fault
  | .ok _ =>
    let search := config.search
    if search.defaultLimit = 0 || search.maxLimit = 0 then some .emptyPage
    else if search.maxLimit < search.defaultLimit then some .pageBeyondLimit
    else if config.reconcile.maxAttempts = 0 then some .noAttempt
    else none

def check (config : Config) : Except Error Unit :=
  match config.fault? with
  | some fault => .error fault.toError
  | none => .ok ()

end Config

-- Reporting is set up at the level of the settings, or at one that is given by itself.
namespace Logging

def start (config : Config) : Except Error LogLevel := config.level.mapError ConfigFault.toError

def startAt (level : String) : Except Error LogLevel :=
  match LogLevel.ofText? level with
  | some level => .ok level
  | none => .error (.validation ("invalid log level '" ++ level ++ "'"))

end Logging

end DocStore
