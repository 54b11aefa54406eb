import DocStore.Bytes

namespace DocStore

-- Why an operation failed. Where a message is carried, it is the text that a caller reads.
inductive Error where
  -- a malformed request, or a change that a rule rejects
  | validation (message : String)
  -- a clash with the stored version, with another holder of a value, or with a use
  | conflict (message : String)
  | notFound (message : String)
  -- another transaction committed this key first
  | writeConflict (key : Bytes)
  | cancelled
  | deadlineExceeded
  -- a record or a request that cannot be read or written
  | serialization (message : String)
  -- a broken invariant of the store
  | internal (message : String)
  deriving DecidableEq, Repr, Inhabited

-- The coarse classification that callers act on.
inductive ErrorKind where
  | validation
  | conflict
  | notFound
  | cancelled
  | internal
  deriving DecidableEq, Repr

namespace Error

def message : Error → String
  | .validation m => m
  | .conflict m => m
  | .notFound m => m
  | .writeConflict key => "write conflict on key " ++ key.escape
  | .cancelled => "operation cancelled"
  | .deadlineExceeded => "deadline exceeded"
  | .serialization m => "serialization error: " ++ m
  | .internal m => "internal error: " ++ m

def kind : Error → ErrorKind
  | .validation _ => .validation
  | .conflict _ => .conflict
  | .writeConflict _ => .conflict
  | .notFound _ => .notFound
  | .cancelled => .cancelled
  | .deadlineExceeded => .cancelled
  | .serialization _ => .internal
  | .internal _ => .internal

def isConflict (e : Error) : Bool := e.kind == .conflict

-- Only a lost commit race is worth another attempt.
def isRetryable : Error → Bool
  | .writeConflict _ => true
  | _ => false

def isCancelled (e : Error) : Bool := e.kind == .cancelled

-- Puts a heading in front of the message. Errors without a message of their own stay as they are.
def withHeading (heading : String) : Error → Error
  | .validation m => .validation (heading ++ ": " ++ m)
  | .conflict m => .conflict (heading ++ ": " ++ m)
  | .notFound m => .notFound (heading ++ ": " ++ m)
  | .serialization m => .serialization (heading ++ ": " ++ m)
  | .internal m => .internal (heading ++ ": " ++ m)
  | e => e

end Error

end DocStore
