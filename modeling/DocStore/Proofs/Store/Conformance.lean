import Mathlib
import DocStore.Proofs.Schema
import DocStore.Proofs.Store.Answers

-- How the documents that are put fit the schemas of their models.
namespace DocStore

namespace World

variable {σ : Type}

-- The same reactors are running.
def SameReactors (w w' : World σ) : Prop := w'.registry.running = w.registry.running

theorem passing_sameReactors : Passing (SameReactors (σ := σ)) where
  refl _ := rfl
  trans h h' := h'.trans h
  time _ _ := rfl
  models _ _ := rfl
  reactors _ _ _ h := h
  reading _ := rfl

end World

namespace Store

section Bodies

variable {σ : Type} {host : Host σ} {registry : Registry} {ctx : Context} {model : Model}
  {doc : Document} {old : Option Document} {val : Value}

theorem checkBody_congr (model : Model) {a b : Value} (h : a.equals b = true) :
    checkBody model a = checkBody model b := by
  unfold checkBody
  split
  · rw [Schema.validate_congr _ h]
  · rfl

-- The new body fits, be it given or made of the stored one.
theorem checkBody_of_newBody (haccepted : Accepted doc model)
    (h : newBody model doc old = .ok val) : checkBody model val = .ok () := by
  unfold newBody at h
  split at h
  · next hmutations =>
    obtain rfl : doc.val = val := Except.ok.inj h
    exact haccepted.fits hmutations
  · obtain ⟨changed, -, h⟩ := bind_eq_ok_iff.mp h
    obtain ⟨_, hbody, h⟩ := bind_eq_ok_iff.mp h
    obtain rfl : changed = val := Except.ok.inj h
    exact hbody

-- A document fits its model, or it had the body that a put asks for, which does, and the reactors
-- have answered with another body.
def Vetted (host : Host σ) (registry : Registry) (ctx : Context) (model : Model)
    (doc answer : Document) : Prop :=
  checkBody model answer.val = .ok () ∨
    ∃ old val now replaced site, newBody model doc old = .ok val ∧ checkBody model val = .ok () ∧
      (registry.validate host ctx old model.reactors (some (candidate doc old val now)) site).1 =
        .ok (some replaced) ∧
      replaced.val ≠ val ∧ answer = { candidate doc old val now with val := replaced.val }

theorem Vetted.congr {registry' : Registry} {answer : Document}
    (h : Vetted host registry ctx model doc answer) (hsame : registry.running = registry'.running) :
    Vetted host registry' ctx model doc answer := by
  refine h.imp_right (fun ⟨old, val, now, replaced, site, hval, hfits, hverdict, hrest⟩ => ?_)
  rw [Registry.validate_congr hsame] at hverdict
  exact ⟨old, val, now, replaced, site, hval, hfits, hverdict, hrest⟩

theorem Comes.congr {registry' : Registry} {outcome : WriteOutcome}
    (h : Comes host registry ctx model doc old val outcome)
    (hsame : registry.running = registry'.running) :
    Comes host registry' ctx model doc old val outcome := by
  cases outcome with
  | unchanged stored => exact h
  | written before new =>
      obtain ⟨hold, now, site, verdict, hverdict, hnew⟩ := h
      rw [Registry.validate_congr hsame] at hverdict
      exact ⟨hold, now, site, verdict, hverdict, hnew⟩

theorem vetted_of_comes (haccepted : Accepted doc model) (hval : newBody model doc old = .ok val)
    {outcome : WriteOutcome} (h : Comes host registry ctx model doc old val outcome) :
    Vetted host registry ctx model doc outcome.document := by
  have hbody := checkBody_of_newBody haccepted hval
  cases outcome with
  | unchanged stored => exact .inl ((checkBody_congr model h.2).trans hbody)
  | written before new =>
      obtain ⟨-, now, site, verdict, hverdict, rfl⟩ := h
      cases verdict with
      | none => exact .inl hbody
      | some replaced =>
          by_cases hsame : replaced.val = val
          · exact .inl (hsame ▸ hbody)
          · exact .inr ⟨old, val, now, replaced, site, hval, hbody, hverdict, hsame, rfl⟩

end Bodies

section Runs

variable {σ α : Type} {store : Store σ} {ctx : Context} {doc : Document} {w w' : World σ}

theorem registry_transact {host : Host σ}
    {openKv : Kv → Signal → Error → Except Error Handle × Kv} {body : Attempt α}
    {changes : α → Bool} {result : Except Error α}
    (h : transact host ctx openKv body changes w = (result, w')) : w'.registry = w.registry := by
  rw [transact_eq_via] at h
  exact (keeps_transactVia World.elapsing_registry (fun _ _ => rfl) (fun _ _ _ _ _ => rfl)
    (fun _ _ => rfl)).of_eq h

-- What is written is what an attempt came to, by the reactors that were running before.
theorem comes_of_write {model : Model} {outcome : WriteOutcome}
    (h : write store ctx model doc w = (.ok outcome, w')) :
    ∃ old val, newBody model doc old = .ok val ∧
      Comes store.host w.registry ctx model doc old val outcome := by
  have hends := write_endsRun World.passing_sameReactors.toElapsing store ctx model doc
    (fun _ _ _ hrun => congrArg Registry.running (registry_transact hrun)) w
  rw [h] at hends
  obtain ⟨w₁, hsame, hrun⟩ := hends
  obtain ⟨stop, handle, kv, d, -, hwork, -⟩ := work_of_transact hrun
  obtain ⟨old, val, -, hval, hcomes⟩ := comes_of_putAttempt hwork
  exact ⟨old, val, hval, hcomes.congr hsame⟩

theorem vetted_of_write {model : Model} (haccepted : Accepted doc model) {outcome : WriteOutcome}
    (h : write store ctx model doc w = (.ok outcome, w')) :
    Vetted store.host w.registry ctx model doc outcome.document := by
  obtain ⟨old, val, hval, hcomes⟩ := comes_of_write h
  exact vetted_of_comes haccepted hval hcomes

-- What a put has written is the record of its answer. What it has found unchanged reads as that.
theorem record_of_put (hspares : store.host.Spares) (hrests : store.host.Rests) {log : List Entry}
    {map : SortedMap Bytes Bytes} (hw : w.site.kv.Holds log map) {answer : Document}
    (hput : put store ctx doc w = (.ok answer, w')) :
    ∃ record, w'.site.kv.now.get (Key.document doc.model doc.id) = .ok (some record) ∧
      (record = Record.encode store.config.encoding answer ∨
        Record.decode record = .ok answer) := by
  have hends := put_ends hspares hrests ctx doc hw
  rw [hput] at hends
  obtain ⟨model, outcome, -, rfl, ⟨writes, verdict, hputs⟩, hafter⟩ := hends.answered answer rfl
  cases outcome with
  | unchanged stored =>
      have hholds : w'.site.kv.Holds log map := hafter
      have hstored : stored? doc.model doc.id (View.ofMap map) = .ok (some stored) := hputs
      rw [stored?_ofMap] at hstored
      cases hrecord : map.get? (Key.document doc.model doc.id) with
      | none => simp [hrecord] at hstored
      | some record =>
          rw [hrecord] at hstored
          refine ⟨record, by rw [hholds.get_now, hrecord], .inr ?_⟩
          cases hdecode : Record.decode record with
          | error e => simp [hdecode, Except.map] at hstored
          | ok found =>
              simp only [hdecode, Except.map, Except.ok.injEq, Option.some.injEq] at hstored
              exact congrArg Except.ok hstored
  | written old new =>
      obtain ⟨reply, after, hturns, hholds⟩ := hafter
      refine ⟨Record.encode store.config.encoding new, ?_, .inl rfl⟩
      rw [hholds.get_now]
      exact congrArg Except.ok hturns.get?_own

-- A document that was put fits the model that the put has looked up, unless reactors have replaced
-- its body. It is this document that is stored.
theorem vetted_of_put {answer : Document} (hput : put store ctx doc w = (.ok answer, w')) :
    ∃ prepared model, (accept store ctx doc w).1 = .ok (prepared, model) ∧
      Vetted store.host w.registry ctx model doc answer ∧
      (store.host.Spares → store.host.Rests → ∀ log map, w.site.kv.Holds log map →
        ∃ record, w'.site.kv.now.get (Key.document doc.model doc.id) = .ok (some record) ∧
          (record = Record.encode store.config.encoding answer ∨
            Record.decode record = .ok answer)) := by
  obtain ⟨prepared, model, w₁, outcome, w₂, haccept, hwrite, rfl, -⟩ := phases_of_put hput
  have hsame := keeps_accept World.passing_sameReactors store ctx doc w
  rw [haccept] at hsame
  have haccepted := accepted_of_accept (congrArg Prod.fst haccept)
  exact ⟨prepared, model, congrArg Prod.fst haccept, (vetted_of_write haccepted hwrite).congr hsame,
    fun hspares hrests _ _ hw => record_of_put hspares hrests hw hput⟩

end Runs

namespace Retitling

-- Reactors that replace whatever they check.
def host : Host Unit :=
  { Host.none with
    validate := fun _ _ _ new site =>
      (.ok (new.map (fun d => { d with val := .object [("title", .int 3)] })), site) }

def store : Store Unit := ⟨{ Config.standard with encoding := .messagePack }, host⟩

def schema : Schema := ⟨[("title", .primitive .string false)]⟩

def model : Model := ⟨"com.ex.Book", some schema, [], ["com.ex.Title"]⟩

def reactor : Reactor := .started ⟨1, "probe", Document.ofBody "Reactor" "com.ex.Title"
  (.object [("runtime", .string "probe")])⟩

def world : World Unit where
  site := ⟨Kv.new .mvcc, 0, ()⟩
  models := (ModelCache.empty.insert model 0).2
  registry := { Registry.new with running := Registry.new.running.insert "com.ex.Title" reactor }
  queue := TaskQueue.new 0 0
  bus := none

def doc : Document := Document.ofBody "com.ex.Book" "a" (.object [("title", .string "x")])

def answer : Document :=
  ⟨"a", "com.ex.Book", some 1, some ⟨⟨0, 3⟩, ⟨0, 3⟩⟩, .object [("title", .int 3)], none, none⟩

theorem put_doc : (put store .background doc world).1 = .ok answer := by cbv

theorem accept_doc : (accept store .background doc world).1 = .ok (none, model) := by cbv

end Retitling

-- What a reactor has put in the place of a body is not checked any more.
theorem unfit_of_retitling :
    let done := put Retitling.store .background Retitling.doc Retitling.world
    (accept Retitling.store .background Retitling.doc Retitling.world).1 =
        .ok (none, Retitling.model) ∧
      Retitling.model.schema = some Retitling.schema ∧ done.1 = .ok Retitling.answer ∧
      done.2.site.kv.now.get (Key.document "com.ex.Book" "a") =
        .ok (some (Record.encode .messagePack Retitling.answer)) ∧
      Retitling.schema.validate Retitling.answer.val =
        .error (.mismatch "/val/title" "string" "Int") := by
  refine ⟨Retitling.accept_doc, rfl, Retitling.put_doc, ?_, ?_⟩ <;> cbv

theorem vetted_of_retitling :
    ∃ prepared model record,
      (accept Retitling.store .background Retitling.doc Retitling.world).1 =
        .ok (prepared, model) ∧
      Vetted Retitling.host Retitling.world.registry .background model Retitling.doc
        Retitling.answer ∧
      (put Retitling.store .background Retitling.doc Retitling.world).2.site.kv.now.get
        (Key.document "com.ex.Book" "a") = .ok (some record) := by
  obtain ⟨prepared, model, haccept, hvetted, hstored⟩ :=
    vetted_of_put (Prod.ext Retitling.put_doc rfl)
  obtain ⟨record, hrecord, -⟩ := hstored (fun _ _ _ _ _ => rfl) (fun _ _ _ _ _ => rfl) [] _
    (Kv.Holds.new .mvcc)
  exact ⟨prepared, model, record, haccept, hvetted, hrecord⟩

end Store

end DocStore
