import DocStore.Search.Candidate

namespace DocStore

-- How many documents a page holds: by default, and at most.
structure SearchConfig where
  defaultLimit : Nat
  maxLimit : Nat
  deriving DecidableEq, Repr, Inhabited

namespace SearchConfig

def standard : SearchConfig := ⟨100, 1000⟩

-- Zero asks for the default.
def pageSize (config : SearchConfig) : Option Nat → Nat
  | none => config.defaultLimit
  | some 0 => config.defaultLimit
  | some n => min n config.maxLimit

end SearchConfig

namespace Search

-- Takes candidates that the index does not rule out, up to a number, and tells which are left.
def takeBatch (view : View) (others : List Plan) :
    Nat → List (Except Error Candidate) →
      Except Error (List Candidate × List (Except Error Candidate))
  | 0, left => .ok ([], left)
  | _ + 1, [] => .ok ([], [])
  | _ + 1, .error e :: _ => .error e
  | room + 1, .ok candidate :: left => do
    if ← probeAll view candidate.id others then
      let (batch, left) ← takeBatch view others room left
      return (candidate :: batch, left)
    else takeBatch view others (room + 1) left

-- What a batch takes is missing from what it leaves.
theorem takeBatch_length (view : View) (others : List Plan) {room : Nat}
    {left rest : List (Except Error Candidate)} {batch : List Candidate}
    (h : takeBatch view others room left = .ok (batch, rest)) :
    batch.length + rest.length ≤ left.length := by
  induction left generalizing room batch rest with
  | nil => cases room <;> simp_all [takeBatch]
  | cons item left ih =>
    cases room with
    | zero => simp only [takeBatch, Except.ok.injEq, Prod.mk.injEq] at h; simp [← h.1, ← h.2]
    | succ room =>
      cases item with
      | error e => simp [takeBatch] at h
      | ok candidate =>
        simp only [takeBatch, bind, Except.bind] at h
        split at h
        · simp at h
        · split at h
          · split at h
            · simp at h
            · rename_i taken hb
              simp only [pure, Except.pure, Except.ok.injEq, Prod.mk.injEq] at h
              have := ih (hb.trans (by rw [Prod.eta]))
              simp only [← h.1, ← h.2, List.length_cons]
              omega
          · have := ih h
            simp only [List.length_cons]
            omega

-- Adds the documents of a batch that satisfy every filter. A page that is full then ends with the
-- entry of its last document. An entry may have no document.
def confirm (plans : List Plan) (limit : Nat) :
    List Document → List (Candidate × Option Bytes) → Except Error (List Document × Option Bytes)
  | kept, [] => .ok (kept, none)
  | kept, (_, none) :: rest => confirm plans limit kept rest
  | kept, (candidate, some record) :: rest => do
    let doc ← Record.decode record
    if plans.all (fun plan => plan.acceptsDocument doc) then
      let kept := kept ++ [doc]
      let (all, last) ← confirm plans limit kept rest
      return (all, last.orElse (fun _ => if limit ≤ kept.length then some candidate.key else none))
    else confirm plans limit kept rest

-- Adds documents to a page until it is full. Candidates are confirmed in batches that just fit the
-- room left, so that a full page ends with the last item of a batch.
def fill (view : View) (model : String) (plans : List Plan) (limit : Nat) (kept : List Document)
    (left : List (Except Error Candidate)) : Except Error (List Document × Option Bytes) :=
  match _h : takeBatch view plans.tail (limit - kept.length) left with
  | .error e => .error e
  | .ok ([], _) => .ok (kept, none)
  | .ok (first :: batch, rest) => do
    let records ← (first :: batch).mapM (fun c => view.get (Key.document model c.id))
    let (kept, last) ← confirm plans limit kept ((first :: batch).zip records)
    match last with
    | some key => return (kept, some key)
    | none => fill view model plans limit kept rest
termination_by left.length
decreasing_by
  have := takeBatch_length view plans.tail _h
  simp only [List.length_cons] at this
  omega

-- One page of a search. The first filter is answered by a scan, the others by probing what it
-- finds.
def page (view : View) (config : SearchConfig) (request : SearchRequest) :
    Except Error SearchResponse := do
  request.check
  let limit := config.pageSize request.limit
  let after ← request.cursor.mapM Cursor.decode
  match request.filters with
  | [] => .error SearchFault.incomplete.toError
  | driving :: _ =>
    let plans := request.filters.map (Plan.ofFilter request.model)
    let candidates ← find view request.model driving after
    let (documents, last) ← fill view request.model plans limit [] candidates
    let cursor := last.map Cursor.encode
    return if request.full then ⟨cursor, [], documents⟩ else ⟨cursor, documents.map (·.id), []⟩

end Search

end DocStore
