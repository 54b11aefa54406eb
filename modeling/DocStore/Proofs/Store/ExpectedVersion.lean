import DocStore.Proofs.Storage.Unopposed
import DocStore.Proofs.Store.Definitions
import DocStore.Proofs.Store.Faults
import DocStore.Proofs.Store.Idle
import DocStore.Proofs.Store.RunningReactors

-- A writer that names the stored version comes to the same as one that names none, as long as
-- nobody else is at work.
namespace DocStore

-- The same place, but for the keys that are reserved in its storage.
def Site.reserving {σ : Type} (table : IntentTable) (site : Site σ) : Site σ :=
  { site with kv := site.kv.reserving table }

def Draft.reserving {σ : Type} (keys : List Bytes) (table : IntentTable) (d : Draft σ) : Draft σ :=
  ⟨d.handle.reserving keys, { d.world with site := d.world.site.reserving table }⟩

-- A document that names the version that is to be stored.
def Document.expecting (doc : Document) (version : Nat) : Document :=
  { doc with version := some version }

namespace Document

variable (doc : Document) (version : Nat)

@[simp] theorem id_expecting : (doc.expecting version).id = doc.id := rfl

@[simp] theorem model_expecting : (doc.expecting version).model = doc.model := rfl

@[simp] theorem val_expecting : (doc.expecting version).val = doc.val := rfl

@[simp] theorem mutations_expecting : (doc.expecting version).mutations = doc.mutations := rfl

end Document

-- A reactor, as it is started from such a document.
def Instance.expecting (inst : Instance) (version : Nat) : Instance :=
  { inst with source := inst.source.expecting version }

namespace Host

variable {σ : Type}

-- Reactors that take no notice of reserved keys when they check a change.
def Heedless (host : Host σ) : Prop :=
  ∀ inst ctx old new site table, host.validate inst ctx old new (site.reserving table) =
    (host.validate inst ctx old new site).map id (Site.reserving table)

-- Reactors that start alike whatever version their document names.
def Steady (host : Host σ) : Prop :=
  ∀ (inst : Instance) version s, host.start (inst.expecting version) s = host.start inst s

end Host

section Reserving

variable {σ α : Type} {host : Host σ}

theorem Registry.validate_reserving (hheedless : host.Heedless) (r : Registry) (ctx : Context)
    (old : Option Document) (reactors : List String) (new : Option Document) (site : Site σ)
    (table : IntentTable) : r.validate host ctx old reactors new (site.reserving table) =
      (r.validate host ctx old reactors new site).map id (Site.reserving table) := by
  induction reactors generalizing new site with
  | nil => rfl
  | cons name rest ih =>
      simp only [validate]
      cases r.get? name with
      | none => exact ih new site
      | some reactor =>
          have hvalidate : host.validateWith reactor ctx old new (site.reserving table) =
              (host.validateWith reactor ctx old new site).map id (Site.reserving table) := by
            cases reactor with
            | immutable =>
                simp only [Host.validateWith]
                split <;> rfl
            | started inst => exact hheedless inst ctx old new site table
          simp only [hvalidate]
          rcases host.validateWith reactor ctx old new site with ⟨e | new, site⟩
          · rfl
          · exact ih new site

namespace Attempt

-- An attempt does the same work with and without reserved keys.
theorem perform_reserving (hheedless : host.Heedless) (a : Attempt α) (d : Draft σ)
    (keys : List Bytes) (table : IntentTable) :
    a.perform host (d.reserving keys table) =
      (a.perform host d).map id (Draft.reserving keys table) := by
  induction a generalizing d with
  | done result => rfl
  | reading ctx next ih =>
      have hview := d.world.site.kv.view_reserving table d.handle keys (d.world.signal ctx)
      refine Eq.trans ?_ (ih _ _)
      exact congrArg (fun view => (next view).perform host _) hview
  | writing writes next ih =>
      have hbuffer := Kv.bufferAll_reserving d.handle keys writes
      simp only [perform, Draft.reserving, hbuffer]
      cases Kv.bufferAll d.handle writes with
      | error e => rfl
      | ok h => exact ih { d with handle := h }
  | validating ctx reactors old new next ih =>
      have hvalidate := d.world.registry.validate_reserving hheedless ctx old reactors new
        d.world.site table
      simp only [perform, Draft.reserving, hvalidate]
      rcases d.world.registry.validate host ctx old reactors new d.world.site with ⟨e | verdict, site⟩
      · rfl
      · exact ih verdict { d with world := { d.world with site := site } }
  | timing next ih => exact ih _ d

theorem unopposed_perform (hspares : host.Spares) (a : Attempt α) {d : Draft σ}
    {keys : List Bytes} {table : IntentTable}
    (hd : Kv.Unopposed keys table d.world.site.kv d.handle) :
    Kv.Unopposed keys table (a.perform host d).2.world.site.kv (a.perform host d).2.handle := by
  induction a generalizing d with
  | done result => exact hd
  | reading ctx next ih => exact ih _ hd
  | writing writes next ih =>
      simp only [perform]
      split
      · next h hbuffer => exact ih (hd.bufferAll hbuffer)
      · exact hd
  | validating ctx reactors old new next ih =>
      have hkv := d.world.registry.kv_validate hspares ctx old reactors new d.world.site
      simp only [perform]
      split
      · next heq =>
        rw [heq] at hkv
        exact ih _ (hkv ▸ hd)
      · next heq =>
        rw [heq] at hkv
        exact hkv ▸ hd
  | timing next ih => exact ih _ hd

end Attempt

end Reserving

namespace Store

section Expectations

variable {σ α : Type} {store : Store σ} {ctx : Context} {w : World σ} {doc : Document}
  {model : Model}

section Transactions

variable {host : Host σ} {body : Attempt α} {changes : α → Bool}

-- As long as nobody else is at work, a transaction that reserves keys comes to the same as one that
-- reserves none.
theorem transact_exclusive (hspares : host.Spares) (hheedless : host.Heedless)
    (hclear : w.site.kv.Clear) (keys : List Bytes) :
    transact host ctx (fun kv signal stop => kv.writeExclusive signal stop keys) body changes w =
      transact host ctx Kv.write body changes w := by
  rw [transact_eq, transact_eq]
  rcases hclear.opens (w.signal ctx) (ctx.giveUp w.site.now).1 keys with
    ⟨e, -, hwrite, hexclusive⟩ | ⟨h, kv, taken, table, hwrite, hexclusive, hopened⟩
  · simp only [hwrite, hexclusive]
  · let d : Draft σ := ⟨h, (w.withKv kv).pass 0⟩
    have hreserving : d.reserving taken table =
        ⟨h.reserving taken, (w.withKv (kv.reserving table)).pass 0⟩ := rfl
    have hended := body.unopposed_perform hspares (d := d) hopened
    simp only [hwrite, hexclusive]
    rw [← hreserving, body.perform_reserving hheedless]
    generalize body.perform host d = outcome at hended
    obtain ⟨e | a, d'⟩ := outcome
    · exact congrArg (fun kv => (Except.error e, d'.world.withKv kv)) hended.close
    · cases hchanges : changes a with
      | false =>
          simp only [Prod.map, id, hchanges]
          exact congrArg (fun kv => (Except.ok a, d'.world.withKv kv)) hended.close
      | true =>
          obtain ⟨ended, ended', after, hplain, hreserved⟩ := hended.commit (d'.world.signal ctx)
          have hreserved' : (Draft.reserving taken table d').world.site.kv.commit
              (Draft.reserving taken table d').handle
              ((Draft.reserving taken table d').world.signal ctx) = _ := hreserved
          simp only [Prod.map, id, hchanges, ite_true, hplain, hreserved']
          cases (d'.world.signal ctx).check <;> rfl

-- It loses no race, and there is no reason to run it again.
theorem not_retryable_of_transact (hspares : host.Spares) (hclear : w.site.kv.Clear)
    (hbody : body.FailsWith Decisive) {e : Error}
    (h : (transact host ctx Kv.write body changes w).1 = .error e) : e.isRetryable = false := by
  have hsignal : ∀ {signal : Signal}, signal.check = .error e → e.isRetryable = false :=
    fun hcheck => (decisive_of_isConflict
      (Error.isConflict_of_isCancelled (Signal.isCancelled_of_check hcheck))).1
  rw [transact_eq] at h
  rcases hclear.opens (w.signal ctx) (ctx.giveUp w.site.now).1 [] with
    ⟨e', hcheck, hwrite, -⟩ | ⟨handle, kv, taken, table, hwrite, -, hopened⟩
  · rw [hwrite] at h
    cases h
    exact hsignal hcheck
  · have hfault := hbody.perform (fun _ => decisive_of_isConflict) host
      ⟨handle, (w.withKv kv).pass 0⟩
    have hended := body.unopposed_perform hspares (d := ⟨handle, (w.withKv kv).pass 0⟩) hopened
    simp only [hwrite] at h
    generalize body.perform host ⟨handle, (w.withKv kv).pass 0⟩ = outcome at h hfault hended
    obtain ⟨e' | a, d'⟩ := outcome
    · cases h
      exact (hfault _ rfl).1
    · obtain ⟨ended, _, after, hcommit, -⟩ := hended.commit (d'.world.signal ctx)
      simp only [hcommit] at h
      split at h
      · split at h
        · next heq =>
          cases h
          exact hsignal (congrArg Prod.fst heq)
        · cases h
      · cases h

theorem retrying_eq_self {config : RetryConfig} {run : Action σ α} {left : Nat}
    (h : ∀ e, (run w).1 = .error e → e.isRetryable = false) :
    retrying config ctx run left w = run w := by
  cases left <;>
  · rw [retrying, Action.tryCatch_eq]
    rcases hrun : run w with ⟨e | a, w'⟩
    · simp only [h e (by rw [hrun]), Bool.false_eq_true, ite_false]
      rfl
    · rfl

end Transactions

section Writing

-- The version that is stored, or zero where there is none.
def storedVersion (model id : String) (view : View) : Nat :=
  match stored? model id view with
  | .ok (some stored) => stored.currentVersion
  | _ => 0

theorem checkVersion_storedVersion {model id : String} {view : View} {old : Option Document}
    (h : stored? model id view = .ok old) :
    checkVersion (some (storedVersion model id view)) old = .ok () := by
  rw [storedVersion, h]
  cases old with
  | none => rfl
  | some stored => simp [checkVersion]

-- Who names the stored version passes the check of the version.
theorem putAttempt_storedVersion {host : Host σ} {encoding : Encoding} {view : View} {d : Draft σ}
    (hsees : ∀ key value, (d.world.site.kv.view d.handle (d.world.signal ctx)).get key = .ok value →
      view.get key = .ok value) :
    (putAttempt encoding ctx model doc (some (storedVersion doc.model doc.id view))).perform host d =
      (putAttempt encoding ctx model doc none).perform host d := by
  obtain ⟨rest, hattempt⟩ : ∃ rest : Option Document → Attempt WriteOutcome, ∀ expected,
      putAttempt encoding ctx model doc expected =
        (Attempt.read ctx (stored? doc.model doc.id)).bind (fun old =>
          (Attempt.done (checkVersion expected old)).bind (fun _ => rest old)) :=
    ⟨_, fun _ => rfl⟩
  rw [hattempt, hattempt, Attempt.perform_bind, Attempt.perform_bind, Attempt.perform_read]
  cases hold : stored? doc.model doc.id
      (d.world.site.kv.view d.handle (d.world.signal ctx)) with
  | error e => rfl
  | ok old =>
      simp only [checkVersion_storedVersion (stored?_of_view hsees hold)]
      rfl

theorem writeOnce_expecting (hspares : store.host.Spares) (hheedless : store.host.Heedless)
    (hclear : w.site.kv.Clear) (hdoc : doc.version = none) :
    writeOnce store ctx model (doc.expecting (storedVersion doc.model doc.id w.site.kv.now)) w =
      writeOnce store ctx model doc w := by
  unfold writeOnce
  rw [Job.openKv_put_none hdoc, hdoc]
  refine (transact_exclusive hspares hheedless hclear
    [Key.document doc.model doc.id]).trans ?_
  rw [transact_eq, transact_eq]
  rcases hwrite : w.site.kv.write (w.signal ctx) (ctx.giveUp w.site.now).1 with ⟨e | h, kv⟩
  · rfl
  · have hsees := (Kv.opened_of_write hwrite).sees (((w.withKv kv).pass 0).signal ctx)
    have hwork : (putAttempt store.config.encoding ctx model
        (doc.expecting (storedVersion doc.model doc.id w.site.kv.now))
        (doc.expecting (storedVersion doc.model doc.id w.site.kv.now)).version).perform store.host
          ⟨h, (w.withKv kv).pass 0⟩ =
      (putAttempt store.config.encoding ctx model doc none).perform store.host
        ⟨h, (w.withKv kv).pass 0⟩ := putAttempt_storedVersion hsees
    simp only [hwork]

-- A document is written alike, whether the stored version is named or none.
theorem write_expecting (hspares : store.host.Spares) (hheedless : store.host.Heedless)
    (hclear : w.site.kv.Clear) (hdoc : doc.version = none) :
    write store ctx model (doc.expecting (storedVersion doc.model doc.id w.site.kv.now)) w =
      write store ctx model doc w := by
  have hdecided : ∀ e, (writeOnce store ctx model doc w).1 = .error e → e.isRetryable = false := by
    intro e he
    rw [writeOnce, Job.openKv_put_none hdoc] at he
    exact not_retryable_of_transact hspares hclear (putAttempt_failsWith _ _ _ _ _) he
  have honce : writeOnce store ctx model
      (doc.expecting (storedVersion doc.model doc.id w.site.kv.now)) w =
    writeOnce store ctx model doc w := writeOnce_expecting hspares hheedless hclear hdoc
  rw [write_eq, write_eq, retrying_eq_self (honce ▸ hdecided), retrying_eq_self hdecided, honce]

end Writing

section Acceptance

variable {version : Nat}

theorem registry_prepare_expecting {host : Host σ} (hsteady : host.Steady) (r : Registry) (s : σ) :
    r.prepare host (doc.expecting version) s =
      (r.prepare host doc s).map (Except.map (·.expecting version)) id := by
  have hkind : Registry.kindOf (doc.expecting version) = Registry.kindOf doc := rfl
  unfold Registry.prepare
  rw [hkind]
  cases Registry.kindOf doc with
  | error fault => rfl
  | ok kind =>
      have hstart : host.start ⟨r.started + 1, kind, doc.expecting version⟩ s =
        host.start ⟨r.started + 1, kind, doc⟩ s := hsteady ⟨r.started + 1, kind, doc⟩ version s
      simp only
      split
      · rfl
      · rw [hstart]
        rcases host.start ⟨r.started + 1, kind, doc⟩ s with ⟨e | _, s⟩ <;> rfl

theorem onRegistry_map {β : Type} (f : α → β) (change : Registry → σ → α × Registry × σ) :
    Action.onRegistry (fun r s => (change r s).map f id) = f <$> Action.onRegistry change := by
  rw [map_eq_pure_bind]
  funext w
  rw [Action.bind_eq]
  rfl

theorem prepare_expecting (hsteady : store.host.Steady) :
    prepare store (doc.expecting version) =
      Option.map (·.expecting version) <$> prepare store doc := by
  unfold prepare
  have hmodel : Model.ofDocument (doc.expecting version) = Model.ofDocument doc :=
    Model.ofDocument_congr (doc.id_expecting version) (doc.val_expecting version)
  simp only [Document.model_expecting, hmodel, registry_prepare_expecting hsteady, onRegistry_map]
  split
  · simp only [map_bind, map_pure, Option.map_none]
  · split
    · simp only [map_bind, bind_map_left]
      congr 1
      funext prepared
      cases prepared <;> simp [Except.map]
    · rw [map_pure, Option.map_none]

-- What is done before a document is written is the same, but for the version that a reactor is
-- started from.
theorem accept_expecting (hsteady : store.host.Steady) :
    accept store ctx (doc.expecting version) =
      Prod.map (Option.map (·.expecting version)) id <$> accept store ctx doc := by
  unfold accept
  simp only [prepare_expecting hsteady, map_bind, bind_map_left, Document.id_expecting,
    Document.model_expecting, Document.val_expecting, Document.mutations_expecting]
  by_cases hnone : doc.mutations.isNone = true <;> simp [hnone]

end Acceptance

-- A document that sets up a reactor is no concern of other reactors.
theorem quiet_announce_of_reactor {prepared : Option Instance} {w' : World σ}
    (haccept : accept store ctx doc w = (.ok (prepared, model), w'))
    (hmodel : doc.model = modelOfReactors) (old new : Option Document) :
    (announce store model old new).Quiet := by
  have hbuiltIn : Model.builtIn? doc.model = some (Model.bare modelOfReactors) := by
    rw [hmodel]
    rfl
  rw [(accepted_of_accept (congrArg Prod.fst haccept)).builtIn _ hbuiltIn]
  exact Action.quiet_pure ()

-- In a storage that any clients have been at, and that nobody is at work on, a put that names no
-- version and a put that names the stored one have the same answer, be it a document or an error,
-- and leave the same storage.
theorem put_expecting (hspares : store.host.Spares) (hheedless : store.host.Heedless)
    (hsteady : store.host.Steady) (hreached : w.site.kv.Reached) (hidle : w.site.kv.Idle)
    (ctx : Context) (doc : Document) (hdoc : doc.version = none) :
    let named := put store ctx (doc.expecting (storedVersion doc.model doc.id w.site.kv.now)) w
    let unnamed := put store ctx doc w
    named.1 = unnamed.1 ∧ named.2.site.kv = unnamed.2.site.kv := by
  simp only
  rw [put_eq, put_eq, accept_expecting hsteady, bind_map_left, Action.bind_eq, Action.bind_eq]
  have hstill := keeps_accept World.passing_still store ctx doc w hreached.orderly
  rcases haccept : accept store ctx doc w with ⟨e | ⟨prepared, model⟩, w₁⟩
  · exact ⟨rfl, rfl⟩
  · rw [haccept] at hstill
    have hwrite : write store ctx model
        (doc.expecting (storedVersion doc.model doc.id w.site.kv.now)) w₁ =
      write store ctx model doc w₁ := by
      rw [← hstill.now_eq]
      exact write_expecting hspares hheedless (hstill.clear (hreached.clear hidle)) hdoc
    simp only [Prod.map, id]
    rcases sets_of_accept haccept with ⟨-, rfl⟩ | ⟨inst, hmodel, rfl, -⟩
    · simp only [Option.map_none, Action.bind_eq, Action.tryCatch_eq, hwrite, and_self]
    · have hannounce := quiet_announce_of_reactor haccept hmodel
      -- the reactors that were started differ, but neither the answer nor the storage shows it
      refine ⟨(answer_as_written ..).trans (.trans ?_ (answer_as_written ..).symm),
        (kv_as_written hannounce ..).trans (.trans ?_ (kv_as_written hannounce ..).symm)⟩
      · rw [hwrite]
      · rw [hwrite]

end Expectations

namespace Succession

def store : Store Unit := ⟨{ Config.standard with encoding := .messagePack }, Host.none⟩

def start : World Unit :=
  ⟨⟨Kv.new .mvcc, 0, ()⟩, ModelCache.empty, Registry.new, TaskQueue.new 2 4096, none⟩

def requests : List Request := [.put .background (Document.ofBody "Model" "com.ex.Book" .null)]

-- A model has been put.
def world : World Unit := requests.foldl (fun w request => request.serve store w) start

-- It is to be replaced by one with another body.
def doc : Document := Document.ofBody "Model" "com.ex.Book" (.object [])

end Succession

set_option maxRecDepth 2000 in
-- The second version of a model is put alike with and without the first one named.
theorem put_expecting_first :
    let named := put Succession.store .background (Succession.doc.expecting 1) Succession.world
    let unnamed := put Succession.store .background Succession.doc Succession.world
    (named.1 = unnamed.1 ∧ named.2.site.kv = unnamed.2.site.kv) ∧
      unnamed.1.map Document.version = .ok (some 2) := by
  have hspares : Succession.store.host.Spares := fun _ _ _ _ _ => rfl
  have hheedless : Succession.store.host.Heedless := fun _ _ _ _ _ _ => rfl
  have hsteady : Succession.store.host.Steady := by
    intro inst version s
    simp only [Succession.store, Host.none]
  have hrests : Succession.store.host.Rests := fun _ _ _ _ _ => rfl
  have hstart : World.start Succession.store.config none 0 () = .ok Succession.start := by cbv
  have hreached : Succession.world.site.kv.Reached :=
    reached_of_requests hspares hrests hstart Succession.requests
  have hidle : Succession.world.site.kv.Idle :=
    idle_of_requests hspares hrests hstart Succession.requests
  have hstored : storedVersion "Model" "com.ex.Book" Succession.world.site.kv.now = 1 := by cbv
  have hversion : (put Succession.store .background Succession.doc Succession.world).1.map
      Document.version = .ok (some 2) := by cbv
  have hput := put_expecting hspares hheedless hsteady hreached hidle .background Succession.doc rfl
  rw [show storedVersion Succession.doc.model Succession.doc.id Succession.world.site.kv.now = 1
    from hstored] at hput
  exact ⟨hput, hversion⟩

end Store

end DocStore
