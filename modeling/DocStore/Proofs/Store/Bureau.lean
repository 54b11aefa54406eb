import DocStore.Proofs.Store.Commits
import DocStore.Proofs.Store.Passing

-- Writers that look up the model of their documents before they open a transaction. The models are
-- kept in a cache, which gives up those that were changed.
namespace DocStore

-- How far a lookup has come.
inductive LookupStage where
  -- the cache had nothing
  | missed
  -- the generation is noted under which the model will be read
  | noted (generation : Nat)
  | compiled (generation : Nat) (model : Model)
  | found (model : Model)

-- A lookup of a model, and the changes of models that were over when it began.
structure Lookup where
  name : String
  past : List (String × Nat)
  stage : LookupStage

-- A store whose writers go by a cache of models.
structure Bureau where
  office : Office
  cache : ModelCache
  lookups : List Lookup
  -- what a writer has looked up, by the number of its handle
  grounds : SortedMap Nat Lookup
  -- the changes of models that are over, the cache having given up the model: its name, and the
  -- place of the change in the log
  past : List (String × Nat)

inductive Errand where
  -- somebody begins to look up a model
  | ask (name : String)
  | note (k : Nat)
  -- reads the stored model through a reader
  | consult (k : Nat) (signal : Signal)
  | keep (k : Nat)
  -- begins to write with the model that was found, for the first time or after a lost race
  | put (k : Nat) (encoding : Encoding) (ctx : Context) (doc : Document) (signal : Signal)
      (stop : Error)
  | delete (k : Nat) (ctx : Context) (model id : String) (signal : Signal) (stop : Error)
  -- the cache gives up a model, after a change of it was committed
  | invalidate (i : Nat)
  | work (n : Nat) (signal : Signal) (verdict : Except Error (Option Document)) (now : Timestamp)
  | commit (n : Nat) (signal : Signal)
  | leave (n : Nat)
  | look (call : Call)

namespace Bureau

def start (kind : BackendKind) : Bureau :=
  ⟨Office.start kind, ModelCache.empty, [], SortedMap.empty, []⟩

def commits (x : Bureau) : CommitLog := x.office.course.chronicle.log

-- A model may be built in, or in the cache.
def glance (x : Bureau) (name : String) : LookupStage :=
  match Model.builtIn? name with
  | some model => .found model
  | none =>
    match x.cache.get? name with
    | some model => .found model
    | none => .missed

def ask (x : Bureau) (name : String) : Bureau :=
  { x with lookups := x.lookups ++ [⟨name, x.past, x.glance name⟩] }

def advance (x : Bureau) (k : Nat) (stage : LookupStage) : Bureau :=
  { x with lookups := x.lookups.modify k ({ · with stage := stage }) }

def note (x : Bureau) (k : Nat) : Bureau :=
  match x.lookups[k]? with
  | some ⟨name, _, .missed⟩ => x.advance k (.noted (x.cache.generation name))
  | _ => x

-- Whatever others do meanwhile, a reader finds what was committed when it opened, so that it may
-- as well be done at once.
def consult (x : Bureau) (k : Nat) (signal : Signal) : Bureau :=
  match x.lookups[k]? with
  | some ⟨name, _, .noted generation⟩ =>
    let n := x.office.course.session.seats.length
    let reading := x.office.step (.look .read)
    let y := { x with office := reading.step (.leave n) }
    match Store.stored? modelOfModels name (reading.course.session.view n signal) with
    | .ok (some doc) =>
      match Model.ofDocument doc with
      | .ok model => y.advance k (.compiled generation model)
      | .error _ => y
    | _ => y
  | _ => x

def keep (x : Bureau) (k : Nat) : Bureau :=
  match x.lookups[k]? with
  | some ⟨_, _, .compiled generation model⟩ =>
    let (kept, cache) := x.cache.insert model generation
    { x with cache := cache }.advance k (.found kept)
  | _ => x

def enlist (x : Bureau) (l : Lookup) (job : Job) (signal : Signal) (stop : Error) : Bureau :=
  { x with
    office := x.office.take job signal stop
    grounds := x.grounds.insert x.office.course.session.seats.length l }

-- A writer begins whose document has a proper name. It goes by what was found of the model.
def take (x : Bureau) (k : Nat) (job : Model → Job) (signal : Signal) (stop : Error) : Bureau :=
  match x.lookups[k]? with
  | some ⟨name, past, .found model⟩ =>
    match Identifier.checkPath (job model).model (job model).id with
    | .ok () =>
      if (job model).model = name then x.enlist ⟨name, past, .found model⟩ (job model) signal stop
      else x
    | .error _ => x
  | _ => x

def invalidate (x : Bureau) (i : Nat) : Bureau :=
  match x.office.log[i]? with
  | some e =>
    if e.job.model = modelOfModels then
      { x with cache := x.cache.invalidate e.job.id, past := x.past ++ [(e.job.id, i)] }
    else x
  | none => x

def step (x : Bureau) : Errand → Bureau
  | .ask name => x.ask name
  | .note k => x.note k
  | .consult k signal => x.consult k signal
  | .keep k => x.keep k
  | .put k encoding ctx doc signal stop => x.take k (.put encoding ctx · doc) signal stop
  | .delete k ctx model id signal stop => x.take k (.delete ctx · model id) signal stop
  | .invalidate i => x.invalidate i
  | .work n signal verdict now => { x with office := x.office.work n signal verdict now }
  | .commit n signal => { x with office := x.office.commit n signal }
  | .leave n => { x with office := x.office.leave n }
  | .look call => { x with office := x.office.step (.look call) }

def run (kind : BackendKind) (errands : List Errand) : Bureau := errands.foldl step (start kind)

theorem run_append (kind : BackendKind) (errands : List Errand) (errand : Errand) :
    run kind (errands ++ [errand]) = (run kind errands).step errand := by simp [run]

end Bureau

-- What it takes to find a model that is not in the cache.
theorem Store.model_of_missed {σ : Type} {ctx : Context} {name : String} {w w' : World σ}
    {model : Model} (hbuiltIn : Model.builtIn? name = none) (hcached : w.models.get? name = none)
    (h : Store.model ctx name w = (.ok model, w')) :
    ∃ doc compiled, stored? modelOfModels name
        (w.site.kv.read.2.view w.site.kv.read.1 (w.signal ctx)) = .ok (some doc) ∧
      Model.ofDocument doc = .ok compiled ∧
      (model, w'.models) = w.models.insert compiled (w.models.generation name) ∧
      w'.site.kv = (w.site.kv.read.2.close w.site.kv.read.1).2 := by
  unfold Store.model at h
  simp only [hbuiltIn] at h
  obtain ⟨_, _, hget, h⟩ := Action.ok_of_bind h
  cases hget
  simp only [hcached] at h
  obtain ⟨_, _, hget, h⟩ := Action.ok_of_bind h
  cases hget
  obtain ⟨stored, w₁, hreading, h⟩ := Action.ok_of_bind h
  obtain ⟨hstored, hw₁⟩ := Prod.mk.inj hreading
  have hmodels : w₁.models = w.models := hw₁ ▸ rfl
  have hkv : w₁.site.kv = (w.site.kv.read.2.close w.site.kv.read.1).2 := hw₁ ▸ rfl
  cases stored with
  | none => cases h
  | some doc =>
      obtain ⟨compiled, _, hcompiled, h⟩ := Action.ok_of_bind h
      obtain rfl := (Prod.mk.inj hcompiled).2
      obtain ⟨_, _, hget, h⟩ := Action.ok_of_bind h
      cases hget
      rw [hmodels] at h
      cases h
      exact ⟨doc, compiled, hstored, congrArg Prod.fst hcompiled, rfl, hkv⟩

namespace Office

-- A reader that opens is shown what the store has, and closes without a trace of its own.
theorem view_read (x : Office) (signal : Signal) :
    (x.step (.look .read)).course.session.view x.course.session.seats.length signal =
      x.course.session.kv.read.2.view x.course.session.kv.read.1 signal := by
  simp only [Office.step, Call.isLook, if_true, Office.call, Course.step, Session.exec,
    Session.receive, Session.view, List.getElem?_concat_length]

theorem kv_read_leave (x : Office) :
    ((x.step (.look .read)).step (.leave x.course.session.seats.length)).course.session.kv =
      (x.course.session.kv.read.2.close x.course.session.kv.read.1).2 := by
  simp [Office.step, Call.isLook, Office.leave, Office.call, Course.step, Session.exec,
    Session.receive]

end Office

namespace Bureau

-- A lookup in one go, as when nobody comes in between.
def lookUp (x : Bureau) (name : String) (signal : Signal) : Bureau :=
  (((x.ask name).note x.lookups.length).consult x.lookups.length signal).keep x.lookups.length

theorem getElem?_advance (x : Bureau) {k : Nat} {stage : LookupStage} {l : Lookup}
    (hl : x.lookups[k]? = some l) :
    (x.advance k stage).lookups[k]? = some { l with stage := stage } := by
  simp [advance, hl]

variable {σ : Type} {ctx : Context} {name : String} {x : Bureau} {w w' : World σ}
  {model : Model} {signal : Signal}

theorem lookUp_of_found (h : x.glance name = .found model) (signal : Signal) :
    x.lookUp name signal = x.ask name := by
  have hk : (x.ask name).lookups[x.lookups.length]? = some ⟨name, x.past, .found model⟩ := by
    simp [ask, h]
  simp only [lookUp, note, consult, keep, hk]

theorem lookUp_of_missed (h : x.glance name = .missed) {doc : Document} {compiled : Model}
    (hstored : Store.stored? modelOfModels name
      (x.office.course.session.kv.read.2.view x.office.course.session.kv.read.1 signal) =
        .ok (some doc)) (hcompiled : Model.ofDocument doc = .ok compiled) :
    (x.lookUp name signal).lookups[x.lookups.length]? =
        some ⟨name, x.past, .found (x.cache.insert compiled (x.cache.generation name)).1⟩ ∧
      (x.lookUp name signal).cache = (x.cache.insert compiled (x.cache.generation name)).2 ∧
      (x.lookUp name signal).office.course.session.kv =
        (x.office.course.session.kv.read.2.close x.office.course.session.kv.read.1).2 := by
  let generation := x.cache.generation name
  let y := (x.ask name).advance x.lookups.length (.noted generation)
  let z := { y with
    office := (x.office.step (.look .read)).step (.leave x.office.course.session.seats.length) }
  have hasked : (x.ask name).lookups[x.lookups.length]? = some ⟨name, x.past, .missed⟩ := by
    simp [ask, h]
  have hnote : (x.ask name).note x.lookups.length = y := by
    simp only [note, hasked]
    rfl
  have hnoted : y.lookups[x.lookups.length]? = some ⟨name, x.past, .noted generation⟩ :=
    getElem?_advance _ hasked
  have hconsult : y.consult x.lookups.length signal =
      z.advance x.lookups.length (.compiled generation compiled) := by
    rw [← x.office.view_read signal] at hstored
    simp only [consult, hnoted]
    rw [show y.office = x.office from rfl, hstored]
    simp only [hcompiled]
    rfl
  have hconsulted : (z.advance x.lookups.length (.compiled generation compiled)).lookups[
      x.lookups.length]? = some ⟨name, x.past, .compiled generation compiled⟩ :=
    getElem?_advance _ hnoted
  rw [lookUp, hnote, hconsult, ← x.office.kv_read_leave]
  simp only [keep, hconsulted]
  exact ⟨getElem?_advance _ hconsulted, rfl, rfl⟩

-- The store does a lookup as anybody does it whom nobody disturbs.
theorem lookUp_of_model (hcache : x.cache = w.models)
    (hkv : x.office.course.session.kv = w.site.kv)
    (hmodel : Store.model ctx name w = (.ok model, w')) :
    (x.lookUp name (w.signal ctx)).lookups[x.lookups.length]? =
        some ⟨name, x.past, .found model⟩ ∧
      (x.lookUp name (w.signal ctx)).cache = w'.models ∧
      (x.lookUp name (w.signal ctx)).office.course.session.kv = w'.site.kv := by
  have hfound : x.glance name = .found model → w' = w →
      (x.lookUp name (w.signal ctx)).lookups[x.lookups.length]? =
          some ⟨name, x.past, .found model⟩ ∧
        (x.lookUp name (w.signal ctx)).cache = w'.models ∧
        (x.lookUp name (w.signal ctx)).office.course.session.kv = w'.site.kv := by
    rintro hglance rfl
    rw [lookUp_of_found hglance]
    exact ⟨by simp [ask, hglance], hcache, hkv⟩
  cases hbuiltIn : Model.builtIn? name with
  | some builtIn =>
      simp only [Store.model, hbuiltIn] at hmodel
      cases hmodel
      exact hfound (by simp only [glance, hbuiltIn]) rfl
  | none =>
      cases hcached : w.models.get? name with
      | some cached =>
          simp only [Store.model, hbuiltIn] at hmodel
          obtain ⟨_, _, hget, hmodel⟩ := Action.ok_of_bind hmodel
          cases hget
          simp only [hcached] at hmodel
          cases hmodel
          exact hfound (by simp only [glance, hbuiltIn, hcache, hcached]) rfl
      | none =>
          obtain ⟨doc, compiled, hstored, hcompiled, hinsert, hclosed⟩ :=
            Store.model_of_missed hbuiltIn hcached hmodel
          obtain ⟨rfl, hmodels⟩ := Prod.mk.inj hinsert
          have hglance : x.glance name = .missed := by
            simp only [glance, hbuiltIn, hcache, hcached]
          rw [← hkv] at hstored
          have hdone := lookUp_of_missed hglance hstored hcompiled
          rw [hcache, hkv] at hdone
          rw [hmodels, hclosed]
          exact hdone

end Bureau

end DocStore
