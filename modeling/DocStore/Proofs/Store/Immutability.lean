import DocStore.Proofs.Store.RunningReactors

-- What the built-in reactor does for the documents of a model that lists it.
namespace DocStore

-- A reactor that has something to say of every change of a document that it is asked about.
def Host.Answers {σ : Type} (host : Host σ) (inst : Instance) : Prop :=
  ∀ ctx old new site, (host.validate inst ctx (some old) (some new) site).1 ≠ .ok Option.none

namespace Registry

variable {σ : Type} {host : Host σ} {r r' : Registry} {reactors : List String}

-- The built-in reactor is listed, and gets to see whatever those before it are asked about.
def Guards (r : Registry) (host : Host σ) (reactors : List String) : Prop :=
  ∃ front rest, reactors = front ++ immutableId :: rest ∧
    ∀ id ∈ front, ∀ inst, r.get? id = some (.started inst) → host.Answers inst

theorem Guards.congr (h : r.Guards host reactors) (hsame : r.running = r'.running) :
    r'.Guards host reactors := by
  obtain ⟨front, rest, hlist, hanswers⟩ := h
  refine ⟨front, rest, hlist, fun id hid inst hinst => hanswers id hid inst ?_⟩
  rw [get?, hsame]
  exact hinst

-- No change of a document gets past it.
theorem Guards.refuses (h : r.Guards host reactors)
    (hbuiltIn : r.get? immutableId = some .immutable) (ctx : Context) (old new : Document)
    (site : Site σ) (verdict : Option Document) :
    (r.validate host ctx (some old) reactors (some new) site).1 ≠ .ok verdict := by
  obtain ⟨front, rest, rfl, hanswers⟩ := h
  induction front generalizing new site with
  | nil =>
      intro hok
      simp [validate, hbuiltIn, Host.validateWith] at hok
  | cons id front ih =>
      obtain ⟨hfirst, hothers⟩ := List.forall_mem_cons.mp hanswers
      intro hok
      simp only [List.cons_append, validate] at hok
      split at hok
      · exact ih new site hothers hok
      · next reactor hreactor =>
        cases reactor with
        | immutable => simp [Host.validateWith] at hok
        | started inst =>
            have hanswer := hfirst inst hreactor ctx old new site
            simp only [Host.validateWith] at hok
            generalize host.validate inst ctx (some old) (some new) site = outcome at hanswer hok
            obtain ⟨e | answer, site'⟩ := outcome
            · cases hok
            · cases answer with
              | none => exact hanswer rfl
              | some given => exact ih given site' hothers hok

theorem Mirrors.immutable {encoding : Encoding} {running : SortedMap String Reactor}
    {map : SortedMap Bytes Bytes} (h : Mirrors encoding running map) :
    running.get? immutableId = some .immutable := by
  have hmatches := h immutableId
  generalize running.get? immutableId = reactor, map.get? _ = record at hmatches
  cases hmatches with
  | absent hid => exact absurd rfl hid
  | builtIn => rfl
  | running _ _ _ hid => exact absurd rfl hid

end Registry

namespace Store

variable {σ : Type} {store : Store σ} {w : World σ} {model id : String} {record : Bytes}

-- A document may be put if the built-in reactor guards those of its model, and anything may be done
-- to other documents.
def Request.Leaves (store : Store σ) (model id : String) (w : World σ) : Request → Prop
  | put ctx doc => doc.model = model → ∀ prepared target,
    (accept store ctx doc w).1 = .ok (prepared, target) →
      w.registry.Guards store.host target.reactors
  | delete _ name other => ¬(name = model ∧ other = id)
  | get _ _ _ => True
  | search _ _ => True

-- What there is a record of is read as a document, if it can be read.
theorem exists_of_stored? {map : SortedMap Bytes Bytes} {old : Option Document}
    (hrecord : map.get? (Key.document model id) = some record)
    (h : stored? model id (View.ofMap map) = .ok old) : ∃ stored, old = some stored := by
  rw [stored?_ofMap, hrecord] at h
  cases hdecode : Record.decode record with
  | error fault => simp [hdecode, Except.map] at h
  | ok found => exact ⟨found, by simpa [hdecode, Except.map] using h.symm⟩

theorem kept_of_turns {e : Entry} {before after : SortedMap Bytes Bytes} {kv : Kv}
    {log : List Entry} (ht : e.Turns before after) (hafter : kv.Holds log after)
    (hother : ¬(model = e.job.model ∧ id = e.job.id))
    (hrecord : before.get? (Key.document model id) = some record) :
    kv.now.get (Key.document model id) = .ok (some record) := by
  rw [hafter.get_now, ht.get?_other hother, hrecord]

-- A put leaves a document as it is that the built-in reactor guards.
theorem kept_of_put (hspares : store.host.Spares) (hrests : store.host.Rests)
    (hw : w.Mirrored store.config.encoding)
    (hrecord : w.site.kv.now.get (Key.document model id) = .ok (some record)) {ctx : Context}
    {doc : Document} (hleaves : (Request.put ctx doc).Leaves store model id w) :
    (put store ctx doc w).2.site.kv.now.get (Key.document model id) = .ok (some record) := by
  obtain ⟨log, map, hholds, hmirrors⟩ := hw
  rw [hholds.get_now, Except.ok.injEq] at hrecord
  rcases hput : put store ctx doc w with ⟨e | d, w'⟩
  · have hends := put_ends hspares hrests ctx doc hholds
    rw [hput] at hends
    rw [(hends.refused e rfl).1.get_now, hrecord]
  · obtain ⟨prepared, target, w₁, outcome, w₂, haccept, hwrite, rfl, hconclude⟩ :=
      phases_of_put hput
    obtain ⟨hsame, hkeeps⟩ := keeps_accept World.passing_idles store ctx doc w
    rw [haccept] at hsame hkeeps
    have hends := write_ends hspares ctx target doc (hkeeps log map hholds)
    rw [hwrite] at hends
    have hkv := (answers_conclude hrests target prepared outcome w₂).2
    rw [hconclude] at hkv
    rw [hkv]
    cases outcome with
    | unchanged stored => rw [show w₂.site.kv.now.get _ = _ from hends.2.get_now _, hrecord]
    | written old new =>
        obtain ⟨-, answer, after, hturns, hafter⟩ := hends
        refine kept_of_turns hturns hafter ?_ hrecord
        -- what is written in the place of the document has been through its reactors
        rintro ⟨hmodel, hid⟩
        obtain rfl : model = doc.model := hmodel
        obtain rfl : id = doc.id := hid
        have hold : stored? doc.model doc.id (View.ofMap map) = .ok old := hturns.reads
        obtain ⟨stored, rfl⟩ := exists_of_stored? hrecord hold
        obtain ⟨_, val, -, rfl, now, site, verdict, hverdict, -⟩ := comes_of_write hwrite
        have hbuiltIn : w₁.registry.get? Registry.immutableId = some .immutable := by
          rw [Registry.get?, show w₁.registry.running = w.registry.running from hsame]
          exact hmirrors.immutable
        have hguards := (hleaves rfl prepared target (congrArg Prod.fst haccept)).congr hsame.symm
        exact hguards.refuses hbuiltIn ctx _ _ site verdict hverdict

-- The requests leave a document alone, each in the world that those before it have made.
def Undisturbed (store : Store σ) (model id : String) : World σ → List Request → Prop
  | _, [] => True
  | w, request :: rest =>
    request.Leaves store model id w ∧ Undisturbed store model id (request.serve store w) rest

theorem kept_of_request (hspares : store.host.Spares) (hrests : store.host.Rests)
    (hw : w.Mirrored store.config.encoding)
    (hrecord : w.site.kv.now.get (Key.document model id) = .ok (some record)) {request : Request}
    (hleaves : request.Leaves store model id w) :
    (request.serve store w).site.kv.now.get (Key.document model id) = .ok (some record) := by
  have hidles {w' : World σ} (h : w.Idles w') :
      w'.site.kv.now.get (Key.document model id) = .ok (some record) := by
    obtain ⟨log, map, hholds, -⟩ := hw
    rw [(h.2 log map hholds).get_now, ← hholds.get_now, hrecord]
  cases request with
  | put ctx doc => exact kept_of_put hspares hrests hw hrecord hleaves
  | get ctx name other => exact hidles (keeps_get World.passing_idles.toElapsing ctx name other w)
  | search ctx request =>
      exact hidles (keeps_search World.passing_idles.toElapsing store ctx request w)
  | delete ctx name other =>
      obtain ⟨log, map, hholds, -⟩ := hw
      rw [hholds.get_now, Except.ok.injEq] at hrecord
      have hends := delete_ends hspares hrests ctx name other hholds
      rcases hdelete : delete store ctx name other w with ⟨e | d, w'⟩
      · rw [hdelete] at hends
        rw [Request.serve, hdelete, (hends.refused e rfl).get_now, hrecord]
      · rw [hdelete] at hends
        obtain ⟨target, answer, after, hturns, hafter⟩ := hends.answered d rfl
        rw [Request.serve, hdelete]
        refine kept_of_turns hturns hafter (fun hsame => ?_) hrecord
        exact hleaves ⟨hsame.1.symm, hsame.2.symm⟩

-- A document that is stored stays as it is, byte for byte, whatever is put in its place, as long as
-- the model that is looked up for it lists the built-in reactor and no reactor before that one
-- leaves a changed document out.
theorem kept_of_requests (hspares : store.host.Spares) (hrests : store.host.Rests)
    (hw : w.Mirrored store.config.encoding)
    (hrecord : w.site.kv.now.get (Key.document model id) = .ok (some record))
    (requests : List Request) (hun : Undisturbed store model id w requests) :
    (requests.foldl (fun w request => request.serve store w) w).site.kv.now.get
      (Key.document model id) = .ok (some record) := by
  induction requests generalizing w with
  | nil => exact hrecord
  | cons request rest ih =>
      obtain ⟨hleaves, hrest⟩ := hun
      exact ih (mirrored_serve hspares hrests hw request)
        (kept_of_request hspares hrests hw hrecord hleaves) hrest

end Store

namespace Dropping

-- Reactors that leave out whatever they check.
def host : Host Unit := { Host.none with validate := fun _ _ _ _ site => (.ok none, site) }

def store : Store Unit := ⟨{ Config.standard with encoding := .messagePack }, host⟩

def reactor : Reactor := .started ⟨1, "probe", Document.ofBody modelOfReactors "com.ex.R"
  (.object [("runtime", .string "probe")])⟩

def world : World Unit where
  site := ⟨Kv.new .mvcc, 0, ()⟩
  models := (ModelCache.empty.insert
    ⟨"com.ex.Book", none, [], ["com.ex.R", Registry.immutableId]⟩ 0).2
  registry := { Registry.new with running := Registry.new.running.insert "com.ex.R" reactor }
  queue := TaskQueue.new 0 0
  bus := none

def doc (n : Int64) : Document := Document.ofBody "com.ex.Book" "a" (.object [("n", .int n)])

end Dropping

-- A change that a reactor leaves out looks like a deletion to the built-in reactor behind it. The
-- put then writes what was asked for.
example :
    let created := Dropping.store.put .background (Dropping.doc 1) Dropping.world
    let changed := Dropping.store.put .background (Dropping.doc 2) created.2
    created.1.map Document.val = .ok (.object [("n", .int 1)]) ∧
      changed.1.map Document.val = .ok (.object [("n", .int 2)]) := by
  constructor <;> cbv

end DocStore
