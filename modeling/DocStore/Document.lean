import DocStore.Wire

namespace DocStore

-- When a document was first stored, and when it was last changed.
structure History where
  created : Timestamp
  updated : Timestamp
  deriving DecidableEq, Repr, Inhabited

-- A document. Its model and its id name it; version and history are kept by the store. A writer
-- gives a version to demand that it is the stored one, and mutations to change the stored body.
structure Document where
  id : String
  model : String
  version : Option Nat
  history : Option History
  val : Value
  status : Option Value
  mutations : Option Fields
  deriving BEq, Repr, Inhabited

-- The model of the documents that define models.
def modelOfModels : String := "Model"

-- The model of the documents that set up reactors.
def modelOfReactors : String := "Reactor"

namespace Document

def ofBody (model id : String) (val : Value) : Document :=
  ⟨id, model, none, none, val, none, none⟩

def path (doc : Document) : String := doc.model ++ "/" ++ doc.id

-- The stored version, and zero for a document that was never stored.
def currentVersion (doc : Document) : Nat := doc.version.getD 0

-- Equality of documents, in which floats compare as numbers do.
def equals (a b : Document) : Bool :=
  let sameFields (x y : Option Fields) : Bool :=
    match x, y with
    | none, none => true
    | some x, some y => Value.equalFields x y
    | _, _ => false
  let sameStatus :=
    match a.status, b.status with
    | none, none => true
    | some x, some y => x.equals y
    | _, _ => false
  a.id == b.id && a.model == b.model && a.version == b.version && a.history == b.history
    && a.val.equals b.val && sameStatus && sameFields a.mutations b.mutations

def entry (name : String) : Option Wire → List (String × Wire)
  | some w => [(name, w)]
  | none => []

def historyWire (h : History) : Wire :=
  .map [("created", .text h.created.render), ("updated", .text h.updated.render)]

-- Absent parts are left out, the body never is.
def toWire (doc : Document) : Wire :=
  .map ([("id", .text doc.id), ("model", .text doc.model)]
    ++ entry "version" (doc.version.map (fun n => .int n))
    ++ entry "history" (doc.history.map historyWire)
    ++ [("val", Wire.ofValue doc.val)]
    ++ entry "status" (doc.status.map Wire.ofValue)
    ++ entry "mut" (doc.mutations.map (fun fields => .map (Wire.ofFields fields))))

def historyOfWire? (w : Wire) : Option History := do
  match ← w.record? ["created", "updated"] with
  | [some created, some updated] =>
    some ⟨← Wire.timestamp? created, ← Wire.timestamp? updated⟩
  | _ => none

def fieldsOfWire? (nesting : Nat) (w : Wire) : Option Fields :=
  (Wire.toValue? nesting w).bind Value.object?

-- The document that a tree holds, where containers are nested at most `nesting` deep.
def ofWire? (nesting : Nat) (w : Wire) : Option Document := do
  match ← w.record? ["id", "model", "version", "history", "val", "status", "mut"] with
  | [some id, some model, version, history, val, status, mutations] =>
    let inner := nesting - 1
    some {
      id := ← id.text?
      model := ← model.text?
      version := ← Wire.optional Wire.word? version
      history := ← Wire.optional historyOfWire? history
      val := ← match val with
        | some w => Wire.toValue? inner w
        | none => some .null
      status := ← Wire.optional (Wire.toValue? inner) status
      mutations := ← Wire.optional (fieldsOfWire? inner) mutations
    }
  | _ => none

end Document

end DocStore
