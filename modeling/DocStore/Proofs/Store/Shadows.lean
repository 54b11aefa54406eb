import DocStore.Proofs.Store.Diary

-- That it is noted down which reactors are started and stopped makes no difference to anybody.
namespace DocStore

-- A world without the diary.
def World.bare {σ : Type} (w : World (σ × Diary)) : World σ :=
  ⟨w.site.bare, w.models, w.registry, w.queue, w.bus⟩

namespace Host

variable {σ : Type} (host : Host σ) (reactor : Reactor) (ctx : Context) (old new : Option Document)

theorem bare_validateWith (site : Site (σ × Diary)) :
    host.validateWith reactor ctx old new site.bare =
      ((host.recording.validateWith reactor ctx old new site).1,
        (host.recording.validateWith reactor ctx old new site).2.bare) := by
  cases reactor with
  | immutable =>
      simp only [validateWith]
      split <;> rfl
  | started inst => rfl

theorem bare_reconcileWith (site : Site (σ × Diary)) :
    host.reconcileWith reactor ctx old new site.bare =
      ((host.recording.reconcileWith reactor ctx old new site).1,
        (host.recording.reconcileWith reactor ctx old new site).2.bare) := by
  cases reactor <;> rfl

theorem bare_stopReactor (s : σ × Diary) :
    host.stopReactor reactor s.1 = (host.recording.stopReactor reactor s).1 := by
  cases reactor <;> rfl

end Host

namespace Registry

variable {σ : Type} (host : Host σ) (r : Registry)

theorem bare_prepare (doc : Document) (s : σ × Diary) : r.prepare host doc s.1 =
    ((r.prepare host.recording doc s).1, (r.prepare host.recording doc s).2.1,
      (r.prepare host.recording doc s).2.2.1) := by
  unfold prepare
  cases kindOf doc with
  | error fault => rfl
  | ok kind =>
      simp only
      split
      · rfl
      · simp only [Host.recording]
        rcases host.start ⟨r.started + 1, kind, doc⟩ s.1 with ⟨e | _, kept⟩ <;> rfl

theorem bare_install (id : String) (inst : Instance) (s : σ × Diary) : r.install host id inst s.1 =
    ((r.install host.recording id inst s).1, (r.install host.recording id inst s).2.1) := by
  unfold install
  cases r.get? id with
  | none => rfl
  | some previous => simp only [Host.bare_stopReactor]

theorem bare_remove (id : String) (s : σ × Diary) : r.remove host id s.1 =
    ((r.remove host.recording id s).1, (r.remove host.recording id s).2.1,
      (r.remove host.recording id s).2.2.1) := by
  unfold remove
  split
  · rfl
  · cases r.get? id with
    | none => rfl
    | some reactor => simp only [Host.bare_stopReactor]

theorem bare_stopAll (s : σ × Diary) : r.stopAll host s.1 =
    ((r.stopAll host.recording s).1, (r.stopAll host.recording s).2.1) := by
  have hstopped : ∀ (entries : List (String × Reactor)) (s : σ × Diary),
      entries.foldl (fun s e => host.stopReactor e.2 s) s.1 =
        (entries.foldl (fun s e => host.recording.stopReactor e.2 s) s).1 := by
    intro entries
    induction entries with
    | nil => exact fun _ => rfl
    | cons e rest ih =>
        intro s
        rw [List.foldl_cons, List.foldl_cons, Host.bare_stopReactor, ih]
  exact Prod.ext rfl (hstopped _ s)

theorem bare_validate (ctx : Context) (old : Option Document) (reactors : List String)
    (new : Option Document) (site : Site (σ × Diary)) :
    r.validate host ctx old reactors new site.bare =
      ((r.validate host.recording ctx old reactors new site).1,
        (r.validate host.recording ctx old reactors new site).2.bare) := by
  induction reactors generalizing new site with
  | nil => rfl
  | cons id rest ih =>
      simp only [validate]
      cases r.get? id with
      | none => exact ih new site
      | some reactor =>
          simp only [Host.bare_validateWith]
          rcases host.recording.validateWith reactor ctx old new site with ⟨e | verdict, seen⟩
          · rfl
          · exact ih verdict seen

theorem bare_bring (config : RetryConfig) (ctx : Context) (reactor : Reactor)
    (old new : Option Document) (left : Nat) (site : Site (σ × Diary)) :
    bring host config ctx reactor old new left site.bare =
      ((bring host.recording config ctx reactor old new left site).1,
        (bring host.recording config ctx reactor old new left site).2.bare) := by
  induction left generalizing site with
  | zero =>
      unfold bring
      rw [Host.bare_reconcileWith]
      rcases host.recording.reconcileWith reactor ctx old new site with ⟨_ | e | _, seen⟩ <;> rfl
  | succ left ih =>
      unfold bring
      rw [Host.bare_reconcileWith]
      rcases host.recording.reconcileWith reactor ctx old new site with ⟨_ | e | _, seen⟩
      · rfl
      · simp only
        split
        · rfl
        · have hnow : seen.bare.now = seen.now := rfl
          rw [hnow]
          generalize ctx.wait seen.now _ = waited
          obtain ⟨signal, now⟩ := waited
          simp only
          cases signal.check with
          | error e => rfl
          | ok _ => exact ih { seen with now := now }
      · rfl

theorem bare_reconcile (config : RetryConfig) (ctx : Context) (old new : Option Document)
    (reactors : List String) (outcome : Outcome) (site : Site (σ × Diary)) :
    r.reconcile host config ctx old new reactors outcome site.bare =
      ((r.reconcile host.recording config ctx old new reactors outcome site).1,
        (r.reconcile host.recording config ctx old new reactors outcome site).2.bare) := by
  induction reactors generalizing outcome site with
  | nil => rfl
  | cons id rest ih =>
      simp only [reconcile]
      cases r.get? id with
      | none => exact ih outcome site
      | some reactor =>
          simp only [bare_bring]
          rcases bring host.recording config ctx reactor old new config.maxRetries site with
            ⟨broken | _ | e, seen⟩
          · rfl
          · exact ih outcome seen
          · exact ih (.failed e) seen

end Registry

theorem ReconcileTask.bare_run {σ : Type} (host : Host σ) (task : ReconcileTask)
    (registry : Registry) (config : ReconcileConfig) (bus : Option Bus)
    (site : Site (σ × Diary)) : task.run registry host config bus site.bare =
      ((task.run registry host.recording config bus site).1,
        (task.run registry host.recording config bus site).2.bare) := by
  have hbring : ∀ ctx (site : Site (σ × Diary)), task.bring registry host config ctx site.bare =
      ((task.bring registry host.recording config ctx site).1,
        (task.bring registry host.recording config ctx site).2.bare) :=
    fun ctx site => registry.bare_reconcile host config.retry ctx task.old task.new task.reactors
      .done site
  have hnow : site.bare.now = site.now := rfl
  -- how the lock is got makes no difference
  obtain ⟨lock, hlock⟩ : ∃ lock, Bus.lock = lock := ⟨_, rfl⟩
  unfold run
  rw [hlock, hnow]
  cases task.subject? with
  | none => rfl
  | some subject =>
      cases bus with
      | none => simp only [hbring]
      | some bus =>
          simp only
          generalize lock bus _ site.now _ _ = locked
          obtain ⟨e | got, bus', now⟩ := locked
          · rfl
          · simp only
            rw [show ({ site.bare with now := now } : Site σ) =
              Site.bare { site with now := now } from rfl, hbring]
            rfl

def Draft.bare {σ : Type} (d : Draft (σ × Diary)) : Draft σ := ⟨d.handle, d.world.bare⟩

theorem Attempt.bare_perform {σ α : Type} (host : Host σ) (a : Attempt α)
    (d : Draft (σ × Diary)) : a.perform host d.bare =
      ((a.perform host.recording d).1, (a.perform host.recording d).2.bare) := by
  induction a generalizing d with
  | done result => rfl
  | reading ctx next ih => exact ih _ { d with world := d.world.pass 0 }
  | writing writes next ih =>
      simp only [perform, show d.bare.handle = d.handle from rfl]
      cases Kv.bufferAll d.handle writes with
      | ok h => exact ih { d with handle := h }
      | error e => rfl
  | validating ctx reactors old new next ih =>
      simp only [perform, show d.bare.world.registry = d.world.registry from rfl,
        show d.bare.world.site = d.world.site.bare from rfl, Registry.bare_validate]
      rcases d.world.registry.validate host.recording ctx old reactors new d.world.site with
        ⟨e | verdict, site⟩
      · rfl
      · exact ih verdict { d with world := { d.world with site := site } }
  | timing next ih => exact ih _ d

namespace Action

variable {σ α β : Type}

-- An operation that notes down what is done does what another does without a diary.
def Shadows (a : Action (σ × Diary) α) (b : Action σ α) : Prop :=
  ∀ w, b w.bare = ((a w).1, (a w).2.bare)

namespace Shadows

theorem pure (x : α) : Shadows (Pure.pure x : Action (σ × Diary) α) (Pure.pure x) := fun _ => rfl

theorem throw (e : Error) : Shadows (MonadExcept.throw e : Action (σ × Diary) α)
    (MonadExcept.throw e) := fun _ => rfl

theorem lift (r : Except Error α) : Shadows (liftM r : Action (σ × Diary) α) (liftM r) :=
  fun _ => rfl

theorem check (ctx : Context) : Shadows (Action.check ctx : Action (σ × Diary) Unit)
    (Action.check ctx) := fun _ => rfl

theorem reading (ctx : Context) (f : View → Except Error α) :
    Shadows (Action.reading ctx f : Action (σ × Diary) α) (Action.reading ctx f) := fun _ => rfl

theorem backoff (ctx : Context) (duration : Time) :
    Shadows (Action.backoff ctx duration : Action (σ × Diary) Unit) (Action.backoff ctx duration) :=
  fun _ => rfl

theorem bind {m : Action (σ × Diary) α} {n : Action σ α} {f : α → Action (σ × Diary) β}
    {g : α → Action σ β} (hm : m.Shadows n) (hf : ∀ x, (f x).Shadows (g x)) :
    Shadows (m >>= f) (n >>= g) := by
  intro w
  rw [bind_eq, bind_eq, hm w]
  rcases m w with ⟨e | x, w'⟩
  · rfl
  · exact hf x w'

theorem get_bind {f : World (σ × Diary) → Action (σ × Diary) β} {g : World σ → Action σ β}
    (hf : ∀ w, (f w).Shadows (g w.bare)) :
    Shadows (MonadState.get >>= f) (MonadState.get >>= g) := fun w => hf w w

theorem tryCatch {m : Action (σ × Diary) α} {n : Action σ α} {f : Error → Action (σ × Diary) α}
    {g : Error → Action σ α} (hm : m.Shadows n) (hf : ∀ e, (f e).Shadows (g e)) :
    Shadows (MonadExcept.tryCatch m f) (MonadExcept.tryCatch n g) := by
  intro w
  rw [tryCatch_eq, tryCatch_eq, hm w]
  rcases m w with ⟨e | x, w'⟩
  · exact hf e w'
  · rfl

theorem onRegistry {change : Registry → σ × Diary → α × Registry × σ × Diary}
    {changeBare : Registry → σ → α × Registry × σ}
    (h : ∀ registry s, changeBare registry s.1 = ((change registry s).1, (change registry s).2.1,
      (change registry s).2.2.1)) :
    Shadows (Action.onRegistry change) (Action.onRegistry changeBare) := by
  intro w
  have hchange := h w.registry w.site.host
  simp only [Action.onRegistry, Action.ofStep, ExceptT.mk,
    show w.bare.registry = w.registry from rfl, show w.bare.site.host = w.site.host.1 from rfl,
    hchange]
  rfl

end Shadows

end Action

namespace Store

variable {σ α : Type} (store : Store σ) (ctx : Context)

section Transactions

theorem shadows_transactVia {host : Host σ} (others : Kv → Kv)
    (openKv : Kv → Signal → Error → Except Error Handle × Kv) (body : Attempt α)
    (changes : α → Bool) :
    (transactVia (racing others ctx) host.recording ctx openKv body changes).Shadows
      (transactVia (racing others ctx) host ctx openKv body changes) := by
  have hopen : (openWriter ctx openKv : Action (σ × Diary) Handle).Shadows
      (openWriter ctx openKv) := by
    intro w
    simp only [openWriter, Action.ofStep, ExceptT.mk, show w.bare.site.kv = w.site.kv from rfl,
      show w.bare.signal ctx = w.signal ctx from rfl, show w.bare.site.now = w.site.now from rfl]
    rcases openKv w.site.kv (w.signal ctx) (ctx.giveUp w.site.now).1 with ⟨e | h, kv⟩ <;> rfl
  have hwork : ∀ h, (work host.recording h body).Shadows (work host h body) := by
    intro h w
    simp only [work, Action.ofStep, ExceptT.mk]
    rw [show (⟨h, w.bare⟩ : Draft σ) = Draft.bare ⟨h, w⟩ from rfl, Attempt.bare_perform]
    rfl
  have hcommit : ∀ h, (racing others ctx h : Action (σ × Diary) Unit).Shadows
      (racing others ctx h) := fun h w => rfl
  have hrollback : ∀ h, (rollback h : Action (σ × Diary) Unit).Shadows (rollback h) :=
    fun h w => rfl
  refine hopen.bind (fun h => (hwork h).bind ?_)
  rintro ⟨e | a, h⟩
  · exact (hrollback h).bind (fun _ => .throw e)
  · simp only
    split
    · exact (hcommit h).bind (fun _ => .pure a)
    · exact (hrollback h).bind (fun _ => .pure a)

theorem shadows_retrying {run : Action (σ × Diary) α} {runBare : Action σ α}
    (hrun : run.Shadows runBare) (config : RetryConfig) (left : Nat) :
    (retrying config ctx run left).Shadows (retrying config ctx runBare left) := by
  induction left with
  | zero => exact hrun.tryCatch (fun e => .throw _)
  | succ left ih =>
      refine hrun.tryCatch (fun e => ?_)
      split
      · exact (Action.Shadows.backoff ctx _).bind (fun _ => ih)
      · exact .throw e

end Transactions

section Reconciliation

theorem shadows_perform (task : ReconcileTask) :
    (perform store.recording task).Shadows (perform store task) := by
  intro w
  have hrun := task.bare_run store.host w.registry store.config.reconcile w.bus w.site
  simp only [perform, Action.ofStep, ExceptT.mk, show w.bare.registry = w.registry from rfl,
    show w.bare.bus = w.bus from rfl, show w.bare.site = w.site.bare from rfl, hrun]
  rfl

theorem shadows_announce (model : Model) (old new : Option Document) :
    (announce store.recording model old new).Shadows (announce store model old new) := by
  unfold announce
  split
  · exact .pure ()
  · refine .get_bind (fun w => ?_)
    simp only [show w.bare.queue = w.queue from rfl]
    split
    · exact fun _ => rfl
    · exact (shadows_perform store _).bind (fun _ _ => rfl)

theorem shadows_settle (fuel : Nat) :
    (settle store.recording fuel).Shadows (settle store fuel) := by
  induction fuel with
  | zero => exact .pure ()
  | succ fuel ih =>
      unfold settle
      refine .get_bind (fun w => ?_)
      simp only [show w.bare.queue = w.queue from rfl]
      split
      · exact .pure ()
      · refine .bind (fun _ => rfl) (fun _ => ?_)
        refine (shadows_perform store _).bind (fun _ => ?_)
        exact .bind (fun _ => rfl) (fun _ => ih)

theorem shadows_drain : (drain store.recording).Shadows (drain store) :=
  .get_bind (fun _ => shadows_settle store _)

theorem shadows_shutdown : (shutdown store.recording).Shadows (shutdown store) := by
  refine .bind (fun _ => rfl) (fun _ => (shadows_drain store).bind (fun _ => ?_))
  exact .onRegistry (fun r s => by rw [Registry.bare_stopAll]; rfl)

end Reconciliation

section Reading

theorem shadows_model (name : String) :
    (Store.model ctx name : Action (σ × Diary) Model).Shadows (Store.model ctx name) := by
  unfold Store.model
  cases Model.builtIn? name with
  | some builtIn => exact .pure builtIn
  | none =>
      refine .get_bind (fun w => ?_)
      simp only [show w.bare.models = w.models from rfl]
      cases w.models.get? name with
      | some cached => exact .pure cached
      | none =>
          refine .get_bind (fun w => ?_)
          refine .bind (.reading ctx _) (fun stored => ?_)
          cases stored with
          | none => exact .throw _
          | some doc =>
              refine .bind (.lift _) (fun compiled => ?_)
              refine .get_bind (fun w' => ?_)
              exact .bind (fun _ => rfl) (fun _ => .pure _)

theorem shadows_get (model id : String) :
    (Store.get ctx model id : Action (σ × Diary) Document).Shadows (Store.get ctx model id) := by
  refine .bind (.check ctx) (fun _ => .bind (.lift _) (fun _ => ?_))
  refine .bind (.reading ctx _) (fun found => ?_)
  cases found with
  | none => exact .throw _
  | some doc =>
      simp only
      split
      · exact .get_bind (fun _ => .pure _)
      · exact .pure doc

theorem shadows_search (request : SearchRequest) :
    (search store.recording ctx request).Shadows (search store ctx request) :=
  .bind (.check ctx) (fun _ => .reading ctx _)

end Reading

section Writing

theorem shadows_prepare (doc : Document) :
    (prepare store.recording doc).Shadows (prepare store doc) := by
  unfold prepare
  split
  · refine .bind (.lift _) (fun declared => .get_bind (fun w => ?_))
    exact .bind (.lift _) (fun _ => .pure none)
  · split
    · refine .bind (.onRegistry (fun r s => r.bare_prepare store.host doc s)) (fun prepared => ?_)
      cases prepared with
      | ok inst => exact .pure (some inst)
      | error fault => exact .throw _
    · exact .pure none

theorem shadows_accept (doc : Document) :
    (accept store.recording ctx doc).Shadows (accept store ctx doc) := by
  refine .bind (.check ctx) (fun _ => .bind (.lift _) (fun _ => ?_))
  refine (shadows_prepare store doc).bind (fun prepared => ?_)
  refine (shadows_model ctx doc.model).bind (fun model => ?_)
  split
  · exact .bind (.lift _) (fun _ => .pure _)
  · exact .pure _

theorem shadows_discard (prepared : Option Instance) :
    (discard store.recording prepared).Shadows (discard store prepared) := by
  cases prepared with
  | none => exact .pure ()
  | some inst => exact fun _ => rfl

theorem shadows_install (id : String) (prepared : Option Instance) :
    (install store.recording id prepared).Shadows (install store id prepared) := by
  cases prepared with
  | none => exact .pure ()
  | some inst =>
      simp only [install]
      exact .onRegistry (fun r s => by rw [Registry.bare_install]; rfl)

theorem shadows_conclude (model : Model) (prepared : Option Instance) (outcome : WriteOutcome) :
    (conclude store.recording model prepared outcome).Shadows
      (conclude store model prepared outcome) := by
  cases outcome with
  | unchanged stored =>
      refine .get_bind (fun w => ?_)
      simp only [show w.bare.registry = w.registry from rfl]
      split
      · exact (shadows_discard store prepared).bind (fun _ => .pure stored)
      · exact (shadows_install store stored.id prepared).bind (fun _ => .pure stored)
  | written old new =>
      have hannounced := fun _ : Unit =>
        (shadows_announce store model old (some new)).bind (fun _ => .pure new)
      simp only [conclude]
      split
      · exact .bind (fun _ => rfl) hannounced
      · split
        · exact (shadows_install store new.id prepared).bind hannounced
        · exact hannounced ()

theorem shadows_withdraw (target : Model) (model id : String) (old : Document) :
    (withdraw store.recording target model id old).Shadows
      (withdraw store target model id old) := by
  have hannounced := (shadows_announce store target (some old) none).bind (fun _ => .pure old)
  unfold withdraw
  simp only
  split
  · exact .bind (fun _ => rfl) (fun _ => hannounced)
  · split
    · exact .bind (.onRegistry (fun r s => r.bare_remove store.host id s)) (fun _ => hannounced)
    · exact hannounced

theorem shadows_putVia (others : Kv → Kv) (doc : Document) :
    (putVia (racing others ctx) store.recording ctx doc).Shadows
      (putVia (racing others ctx) store ctx doc) := by
  refine (shadows_accept store ctx doc).bind ?_
  rintro ⟨prepared, model⟩
  have hrun : (putOnceVia (racing others ctx) store.recording ctx model doc).Shadows
      (putOnceVia (racing others ctx) store ctx model doc) :=
    shadows_transactVia ctx others _ _ _
  refine .bind (.tryCatch (shadows_retrying ctx hrun _ _) (fun e => ?_))
    (shadows_conclude store model prepared)
  exact (shadows_discard store prepared).bind (fun _ => .throw e)

theorem shadows_deleteVia (others : Kv → Kv) (model id : String) :
    (deleteVia (racing others ctx) store.recording ctx model id).Shadows
      (deleteVia (racing others ctx) store ctx model id) := by
  have hlocate : (locate ctx model id : Action (σ × Diary) Model).Shadows (locate ctx model id) :=
    .bind (.check ctx) (fun _ => .bind (.lift _) (fun _ => shadows_model ctx model))
  have hrun : ∀ target, (deleteOnceVia (racing others ctx) store.recording ctx target model
      id).Shadows (deleteOnceVia (racing others ctx) store ctx target model id) :=
    fun target => shadows_transactVia ctx others _ _ _
  exact hlocate.bind (fun target => (shadows_retrying ctx (hrun target) _ _).bind
    (shadows_withdraw store target model id))

end Writing

end Store

end DocStore
