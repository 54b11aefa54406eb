import DocStore.Proofs.Store.IndexConsistency
import DocStore.Proofs.Store.Requests

-- What the answers of a store tell about the stored documents.
namespace DocStore

-- A document as a reader is given it. Those of reactors come with their status.
def World.shown {σ : Type} (w : World σ) (model id : String) (doc : Document) : Document :=
  if model == modelOfReactors then { doc with status := some (w.registry.status id) } else doc

-- Nothing is stored in a new world, and no reactor was started.
theorem World.of_start {σ : Type} {config : Config} {bus : Option Bus} {now : Time} {s : σ}
    {w : World σ} (h : World.start config bus now s = .ok w) :
    w.site.kv = Kv.new config.backend ∧ w.registry = Registry.new ∧ w.site.host = s := by
  obtain ⟨_, -, hw⟩ := bind_eq_ok_iff.mp h
  cases hw
  exact ⟨rfl, rfl, rfl⟩

-- An entry in the index belongs to a document that is stored.
theorem Indexed.stored?_of_entry {map : SortedMap Bytes Bytes} (h : Indexed map)
    (hplaced : Placed map) {model : String} {e : IndexEntry} {owner : Bytes}
    (howner : Key.separator ∉ owner)
    (hentry : (map.get? (Key.fieldValue model e.path e.encoded ++ owner)).isSome) :
    ∃ other, owner = Bytes.ofString other.id ∧
      Store.stored? model other.id (View.ofMap map) = .ok (some other) := by
  obtain ⟨name, id, other, hstored, hm⟩ := (h _ (Key.head?_fieldValue ..)).mp hentry
  obtain ⟨e', -, heq⟩ := List.mem_map.mp hm
  -- an id does not hold the separating byte, and neither does the owner
  have hsplit : Bytes.splitLast? Key.separator (Key.entry other.model e'.path e'.encoded other.id) =
      some (Key.field model e.path ++ e.encoded, owner) := by
    rw [heq, Key.fieldValue, List.append_assoc, List.singleton_append]
    exact Bytes.splitLast?_append _ howner
  rw [Key.entry, Key.fieldValue, List.append_assoc, List.singleton_append,
    Bytes.splitLast?_append _ (Bytes.separator_notMem other.id)] at hsplit
  obtain ⟨-, rfl⟩ := Prod.mk.inj (Option.some.inj hsplit)
  obtain ⟨rfl, -, -, -⟩ := Key.entry_inj.mp heq
  obtain ⟨_, hold, hplace⟩ := hplaced name id
  rw [hstored, Except.ok.injEq] at hold
  obtain ⟨rfl, rfl⟩ := hplace other hold.symm
  exact ⟨other, rfl, hstored⟩

namespace Store

variable {σ : Type} {store : Store σ} {log : List Entry} {map : SortedMap Bytes Bytes}
  {w w' : World σ} {ctx : Context} {doc : Document}

-- A reader whose context goes on is given what is stored.
theorem get_eq (hw : w.site.kv.Holds log map) (hgo : ∀ now, ctx.signal now = .go)
    {model id : String} (hpath : Identifier.checkPath model id = .ok ()) :
    (get ctx model id w).1 = match stored? model id (View.ofMap map) with
      | .ok (some found) => .ok (w.shown model id found)
      | .ok none => .error notFound
      | .error e => .error e := by
  have hstored : ∀ signal, signal = .go →
      stored? model id (w.site.kv.read.2.view w.site.kv.read.1 signal) =
        stored? model id (View.ofMap map) := by
    rintro _ rfl
    refine stored?_congr (fun key => ?_) model id
    simp only [Kv.view, hw.reads.get, SortedMap.setAll_empty]
    rfl
  have hcheck : Action.check ctx w = (.ok (), w.pass 0) := by
    simp only [Action.check, Action.ofStep, ExceptT.mk, World.signal, hgo]
    rfl
  have hok : (liftM (Identifier.checkPath model id) : Action σ Unit) (w.pass 0) =
      (.ok (), w.pass 0) := by
    rw [hpath]
    rfl
  have hreading : Action.reading ctx (stored? model id) (w.pass 0) =
      (stored? model id (View.ofMap map), (((w.pass 0).withKv
        (w.site.kv.read.2.close w.site.kv.read.1).2).pass 0)) := by
    rw [← hstored _ (hgo _)]
    rfl
  unfold get
  simp only [Action.bind_eq, hcheck, hok, hreading]
  cases stored? model id (View.ofMap map) with
  | error e => rfl
  | ok old =>
    cases old with
    | none => rfl
    | some found =>
      simp only [World.shown]
      split
      · rfl
      · rfl

-- What a client asks of a store.
inductive Request where
  | put (ctx : Context) (doc : Document)
  | delete (ctx : Context) (model id : String)
  | get (ctx : Context) (model id : String)
  | search (ctx : Context) (request : SearchRequest)

def Request.serve (store : Store σ) : Request → World σ → World σ
  | put ctx doc, w => (Store.put store ctx doc w).2
  | delete ctx model id, w => (Store.delete store ctx model id w).2
  | get ctx model id, w => (Store.get ctx model id w).2
  | search ctx request, w => (Store.search store ctx request w).2

-- The changes that may come of a request are of some kind.
def Request.Keeps (store : Store σ) (keeps : Entry → Prop) : Request → Prop
  | put ctx doc => ∀ model answer change, Accepted doc model →
    (Job.put store.config.encoding ctx model doc).Makes answer change →
      keeps ⟨.put store.config.encoding ctx model doc, answer, change⟩
  | delete ctx model id => ∀ target answer old,
    keeps ⟨.delete ctx target model id, answer, ⟨some old, none⟩⟩
  | get _ _ _ => True
  | search _ _ => True

theorem Request.holds_serve (hspares : store.host.Spares) (hrests : store.host.Rests)
    {keeps : Entry → Prop} {request : Request} (hkeeps : request.Keeps store keeps)
    (hw : ∃ log map, w.site.kv.Holds log map ∧ ∀ e ∈ log, keeps e) :
    ∃ log map, (request.serve store w).site.kv.Holds log map ∧ ∀ e ∈ log, keeps e := by
  have helapsing := (World.passing_preserves (σ := σ)).toElapsing
  cases request with
  | put ctx doc => exact lasting_put hspares hrests ctx doc hkeeps w hw
  | delete ctx model id => exact lasting_delete hspares hrests ctx model id hkeeps w hw
  | get ctx model id =>
      obtain ⟨log, map, hholds, hlog⟩ := hw
      exact ⟨log, map, keeps_get helapsing ctx model id w log map hholds, hlog⟩
  | search ctx request =>
      obtain ⟨log, map, hholds, hlog⟩ := hw
      exact ⟨log, map, keeps_search helapsing store ctx request w log map hholds, hlog⟩

-- A store that was new has been through changes of the kind that its requests make.
theorem holds_of_keeps (hspares : store.host.Spares) (hrests : store.host.Rests)
    {config : Config} {bus : Option Bus} {now : Time} {s : σ}
    (hstart : World.start config bus now s = .ok w) (keeps : Entry → Prop) (requests : List Request)
    (hkeeps : ∀ request ∈ requests, request.Keeps store keeps) :
    ∃ log map,
      (requests.foldl (fun w request => request.serve store w) w).site.kv.Holds log map ∧
        ∀ e ∈ log, keeps e := by
  induction requests using List.reverseRecOn with
  | nil =>
      obtain ⟨hkv, -⟩ := World.of_start hstart
      exact ⟨[], SortedMap.empty, hkv ▸ Kv.Holds.new config.backend, by simp⟩
  | append_singleton requests request ih =>
      rw [List.foldl_append]
      obtain ⟨hearlier, hlast⟩ := List.forall_mem_append.mp hkeeps
      exact Request.holds_serve hspares hrests (hlast request (by simp)) (ih hearlier)

-- Whatever a store has been asked since it was new, it has been through some changes, and holds
-- what they have left.
theorem holds_of_requests (hspares : store.host.Spares) (hrests : store.host.Rests)
    {config : Config} {bus : Option Bus} {now : Time} {s : σ}
    (hstart : World.start config bus now s = .ok w) (requests : List Request) :
    ∃ log map,
      (requests.foldl (fun w request => request.serve store w) w).site.kv.Holds log map := by
  obtain ⟨log, map, hholds, -⟩ := holds_of_keeps hspares hrests hstart (fun _ => True) requests
    (fun request _ => by cases request <;> simp [Request.Keeps])
  exact ⟨log, map, hholds⟩

-- Who reads a document after it was put is given what the put has answered, or what comes of it
-- when it is written and read in the format of the store.
theorem get_of_put (hspares : store.host.Spares) (hrests : store.host.Rests)
    (hw : w.site.kv.Holds log map) {answer : Document}
    (hput : put store ctx doc w = (.ok answer, w')) {later : Context}
    (hgo : ∀ now, later.signal now = .go) :
    ∃ found, (found = .ok answer ∨
        found = Record.decode (Record.encode store.config.encoding answer)) ∧
      (get later doc.model doc.id w').1 = found.map (w'.shown doc.model doc.id) := by
  have hends := put_ends hspares hrests ctx doc hw
  rw [hput] at hends
  obtain ⟨model, outcome, haccepted, rfl, ⟨writes, verdict, hputs⟩, hafter⟩ :=
    hends.answered answer rfl
  have hpath := haccepted.named
  cases outcome with
  | unchanged stored =>
      refine ⟨.ok stored, .inl rfl, ?_⟩
      rw [get_eq hafter hgo hpath, show Store.stored? _ _ _ = _ from hputs]
      rfl
  | written old new =>
      obtain ⟨reply, after, hturns, hholds⟩ := hafter
      refine ⟨Record.decode (Record.encode store.config.encoding new), .inr rfl, ?_⟩
      have hstored : stored? doc.model doc.id (View.ofMap after) =
          (Record.decode (Record.encode store.config.encoding new)).map some := hturns.stored?_new
      rw [get_eq hholds hgo hpath, hstored]
      cases Record.decode (Record.encode store.config.encoding new) <;> rfl

-- An infinite number, as it may come of a mutation, is lost on its way through JSON.
example :
    let answer : Document := ⟨"a", "m", some 1, none, .float Double.infinity, none, none⟩
    Record.decode (Record.encode .json answer) = .ok { answer with val := .null } := by
  cbv

-- A conflict tells a writer that it was too late, or that a unique value is taken: a document that
-- is stored has it, or one had it whose claim was left behind.
theorem conflict_of_put (hspares : store.host.Spares) (hrests : store.host.Rests)
    (hw : w.site.kv.Holds log map) (hread : ∀ e ∈ log, e.Readable) {error : Error}
    (hput : put store ctx doc w = (.error error, w')) (hconflict : error.isConflict = true) :
    error = preempted ∨ error = versionOutdated ∨
      ∃ model new e id, Proposes map model doc new ∧ e ∈ IndexEntry.ofBody new.val ∧
        model.isUnique e.path = true ∧ id ≠ doc.id ∧
        error = Index.takenError e (Bytes.ofString id) ∧
        ((∃ other, stored? doc.model id (View.ofMap map) = .ok (some other) ∧
            e ∈ IndexEntry.ofBody other.val) ∨
          stored? doc.model id (View.ofMap map) = .ok none ∧
            map.get? (Key.claim doc.model e.path e.encoded) = some (Bytes.ofString id)) := by
  have hends := put_ends hspares hrests ctx doc hw
  rw [hput] at hends
  rcases (hends.refused error rfl).2 with rfl | ⟨model, hrefuses⟩
  · exact .inl rfl
  · rcases hrefuses hconflict with rfl | ⟨new, e, owner, hnew, he, hunique, rfl, htaken⟩
    · exact .inr (.inl rfl)
    · refine .inr (.inr ?_)
      have hrecorded := hw.recorded
      have hplaced := placed_of_recorded hrecorded hread
      rcases htaken.named with hclaim | ⟨howner, hentry⟩
      · obtain ⟨id, rfl⟩ := claimed_of_recorded hrecorded _ _ (Key.head?_claim ..) hclaim
        obtain ⟨stored, hstored, hhas⟩ := htaken.owns id rfl
        refine ⟨model, new, e, id, hnew, he, hunique, fun hid => htaken.other (hid ▸ rfl), rfl, ?_⟩
        cases stored with
        | none => exact .inr ⟨hstored, hclaim⟩
        | some other => exact .inl ⟨other, hstored, hhas other rfl⟩
      · obtain ⟨other, rfl, hstored⟩ :=
          (indexed_of_recorded hrecorded hread).stored?_of_entry hplaced howner hentry
        obtain ⟨stored, hstored', hhas⟩ := htaken.owns other.id rfl
        rw [hstored, Except.ok.injEq] at hstored'
        exact ⟨model, new, e, other.id, hnew, he, hunique, fun hid => htaken.other (hid ▸ rfl), rfl,
          .inl ⟨other, hstored, hhas other hstored'.symm⟩⟩

-- A claim is left behind by a document that is deleted while its model does not call the field
-- unique. Once the model does so again, the value is kept from everybody else.
example :
    let claimed := View.ofMap (SortedMap.empty.insert (Key.claim "m" "val.n" (Bytes.ofString "1"))
      (Bytes.ofString "a"))
    let val : Value := .object [("n", .string "1")]
    Index.remove claimed (Model.bare "m") (Document.ofBody "m" "a" val) =
        .ok [(Key.entry "m" "val.n" (Bytes.ofString "1") "a", none)] ∧
      Index.add claimed ⟨"m", none, [("val.n", .unique)], []⟩ (Document.ofBody "m" "b" val) =
        .error (Index.takenError ⟨"val.n", Bytes.ofString "1", .text⟩ (Bytes.ofString "a")) := by
  constructor <;> cbv

end Store

end DocStore
