import DocStore.Proofs.Store.Answers

-- Which of the stored models can be used.
namespace DocStore

-- A change leaves a model only as a document that defines one.
def Entry.Defines (encoding : Encoding) (e : Entry) : Prop :=
  e.job.model = modelOfModels → ∀ new, e.change.new = some new →
    e.job.record new = Record.encode encoding new ∧
      ∃ declared, Model.ofDocument new = .ok declared

-- What a model is made of is in the id and the body of its document.
theorem Model.ofDocument_congr {a b : Document} (hid : a.id = b.id) (hval : a.val = b.val) :
    Model.ofDocument a = Model.ofDocument b := by
  rw [Model.ofDocument, Model.ofDocument, hid, hval]

-- Every model that is stored defines one.
def Defined (encoding : Encoding) (map : SortedMap Bytes Bytes) : Prop :=
  ∀ id record, map.get? (Key.document modelOfModels id) = some record →
    ∃ new declared, record = Record.encode encoding new ∧ Model.ofDocument new = .ok declared

theorem Defined.turn {encoding : Encoding} {e : Entry} {before after : SortedMap Bytes Bytes}
    (h : Defined encoding before) (ht : e.Turns before after) (he : e.Defines encoding) :
    Defined encoding after := by
  intro id record hrecord
  by_cases hown : modelOfModels = e.job.model ∧ id = e.job.id
  · obtain ⟨hmodel, rfl⟩ := hown
    rw [hmodel, show Key.document e.job.model e.job.id = e.job.key from rfl, ht.get?_own] at hrecord
    obtain ⟨new, hnew, rfl⟩ := Option.map_eq_some_iff.mp hrecord
    obtain ⟨hencoded, declared, hdeclared⟩ := he hmodel.symm new hnew
    exact ⟨new, declared, hencoded, hdeclared⟩
  · rw [ht.get?_other hown] at hrecord
    exact h id record hrecord

theorem defined_of_recorded {encoding : Encoding} {log : List Entry} {map : SortedMap Bytes Bytes}
    (h : Recorded log map) (hlog : ∀ e ∈ log, e.Defines encoding) : Defined encoding map := by
  induction h with
  | start =>
      intro id record hrecord
      simp [SortedMap.get?_empty] at hrecord
  | enter _ ht ih =>
      obtain ⟨hearlier, hlast⟩ := List.forall_mem_append.mp hlog
      exact (ih hearlier).turn ht (hlast _ (by simp))

namespace Store

variable {σ : Type} {store : Store σ}

-- A model that is put as a whole is stored as it was given, since no reactor has a say in it.
theorem defines_of_makes {encoding : Encoding} {ctx : Context} {model : Model} {doc : Document}
    {answer : Option (Option Document)} {change : Change} (haccepted : Accepted doc model)
    (hwhole : doc.model = modelOfModels → doc.mutations = none)
    (hmakes : (Job.put encoding ctx model doc).Makes answer change) :
    Entry.Defines encoding ⟨.put encoding ctx model doc, answer, change⟩ := by
  intro hmodel new hnew
  replace hmodel : doc.model = modelOfModels := hmodel
  refine ⟨rfl, ?_⟩
  obtain ⟨-, val, now, verdict, hval, hverdict, -, hmade⟩ := hmakes
  have hbare : model = Model.bare modelOfModels := haccepted.builtIn _ (by rw [hmodel]; rfl)
  obtain rfl : verdict = some (candidate doc change.old val now) := hverdict (by rw [hbare]; rfl)
  obtain rfl : doc.val = val := by
    rw [newBody, hwhole hmodel] at hval
    exact Except.ok.inj hval
  obtain rfl : new = candidate doc change.old doc.val now := by
    have hsame : change.new = some new := hnew
    rw [hmade] at hsame
    exact (Option.some.inj hsame).symm
  obtain ⟨declared, hdeclared⟩ := haccepted.defines hmodel
  exact ⟨declared, (Model.ofDocument_congr rfl rfl).trans hdeclared⟩

-- As long as models are put as a whole, each that is stored can be compiled.
theorem definitions_compile (hspares : store.host.Spares) (hrests : store.host.Rests)
    {config : Config} {bus : Option Bus} {now : Time} {s : σ} {w : World σ}
    (hstart : World.start config bus now s = .ok w) {requests : List Request}
    (hwhole : ∀ ctx doc, .put ctx doc ∈ requests → doc.model = modelOfModels →
      doc.mutations = none) {id : String} {record : Bytes}
    (hstored : (requests.foldl (fun w request => request.serve store w) w).site.kv.now.get
      (Key.document modelOfModels id) = .ok (some record)) :
    ∃ new declared, record = Record.encode store.config.encoding new ∧
      Model.ofDocument new = .ok declared := by
  obtain ⟨log, map, hholds, hlog⟩ := holds_of_keeps hspares hrests hstart
    (Entry.Defines store.config.encoding) requests (fun request hm => by
      cases request with
      | put ctx doc => exact fun _ _ _ haccepted => defines_of_makes haccepted (hwhole ctx doc hm)
      | delete ctx model id =>
          intro target answer old _ new hnew
          cases hnew
      | get | search => trivial)
  rw [hholds.get_now, Except.ok.injEq] at hstored
  exact defined_of_recorded hholds.recorded hlog id record hstored

-- A mutation may leave a body that defines no model: the document that carries it is compiled, and
-- what comes of it is not.
example :
    let stored := Document.ofBody "Model" "com.ex.Book"
      (.object [("schema", .object [("title", .string "string")])])
    let patched : Value := .object [("schema", .object [("title", .string "nope")])]
    let mutations : Fields := [("schema", .object [("set", .object [("title", .string "nope")])])]
    let doc : Document := ⟨"com.ex.Book", "Model", none, none, .null, none, some mutations⟩
    Model.ofDocument doc = .ok (Model.bare "com.ex.Book") ∧
      newBody (Model.bare "Model") doc (some stored) = .ok patched ∧
      Model.compileBody "com.ex.Book" patched =
        .error (.badSchema (.unknownType "/val/schema/title" "nope")) := by
  refine ⟨?_, ?_, ?_⟩ <;> cbv

end Store

end DocStore
