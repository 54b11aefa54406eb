import DocStore.Proofs.Store.Instances
import DocStore.Proofs.Store.Shadows

-- What comes to a store in its time, and what becomes of the reactors that are started.
namespace DocStore

namespace Action

variable {σ α β : Type} {before : World σ → Prop} {failed : World σ → Prop}

-- Where an operation leads from worlds of a kind, if it succeeds and if it fails.
def Leads (before : World σ → Prop) (a : Action σ α) (after : α → World σ → Prop)
    (failed : World σ → Prop) : Prop :=
  ∀ w, before w → match a w with
    | (.ok x, w') => after x w'
    | (.error _, w') => failed w'

namespace Leads

theorem pure {after : α → World σ → Prop} {x : α} (h : ∀ w, before w → after x w) :
    Leads before (Pure.pure x) after failed := h

theorem throw {after : α → World σ → Prop} (e : Error) :
    Leads before (MonadExcept.throw e : Action σ α) after before := fun _ h => h

theorem bind {m : Action σ α} {f : α → Action σ β} {between : α → World σ → Prop}
    {after : β → World σ → Prop} (hm : Leads before m between failed)
    (hf : ∀ x, Leads (between x) (f x) after failed) : Leads before (m >>= f) after failed := by
  intro w hw
  have hled := hm w hw
  rw [bind_eq]
  generalize m w = outcome at hled
  obtain ⟨e | x, w'⟩ := outcome
  · exact hled
  · exact hf x w' hled

-- A failure is seen to before it is told.
theorem tryCatch {m : Action σ α} {f : Error → Action σ α} {between : World σ → Prop}
    {after : α → World σ → Prop} (hm : Leads before m after between)
    (hf : ∀ e, Leads between (f e) after failed) :
    Leads before (MonadExcept.tryCatch m f) after failed := by
  intro w hw
  have hled := hm w hw
  rw [tryCatch_eq]
  generalize m w = outcome at hled
  obtain ⟨e | x, w'⟩ := outcome
  · exact hf e w' hled
  · exact hled

theorem world {after : World σ → Prop} {a : Action σ α}
    (h : Leads before a (fun _ => after) after) {w : World σ} (hw : before w) : after (a w).2 := by
  have hled := h w hw
  generalize a w = outcome at hled
  obtain ⟨e | x, w'⟩ := outcome <;> exact hled

-- What is kept lasts, whether an operation succeeds or not.
theorem of_keeps {R : World σ → World σ → Prop} (hlasts : ∀ w w', before w → R w w' → before w')
    {a : Action σ α} (h : Keeps R a) : Leads before a (fun _ => before) before := by
  intro w hw
  have hled := hlasts w (a w).2 hw (h w)
  generalize a w = outcome at hled
  obtain ⟨e | x, w'⟩ := outcome <;> exact hled

end Leads

end Action

namespace Store

variable {σ : Type} {store : Store σ} {ctx : Context} {doc : Document} {model : Model}
  {prepared : Option Instance}

section Operations

-- What has nothing to do with reactors.
theorem leads_of_sameBooks {α : Type} {a : Action (σ × Diary) α}
    (h : Action.Keeps World.SameBooks a) (inHand : Option Instance) :
    a.Leads (World.Balanced inHand) (fun _ => World.Balanced inHand) (World.Balanced inHand) :=
  .of_keeps (fun _ _ hw hsame => hw.sameBooks hsame) h

theorem leads_prepare (store : Store σ) (doc : Document) :
    (prepare store.recording doc).Leads (World.Balanced none)
      (fun prepared w => w.Balanced prepared ∧ Sets doc prepared) (World.Balanced none) := by
  have hE := World.elapsing_sameBooks (σ := σ)
  unfold prepare
  split
  · next hmodels =>
    have hother : doc.model ≠ modelOfReactors := by
      rw [show doc.model = modelOfModels by simpa using hmodels]
      decide
    refine .bind (leads_of_sameBooks (.lift hE _) none) (fun declared => ?_)
    refine .bind (leads_of_sameBooks (.get hE) none) (fun w => ?_)
    refine .bind (leads_of_sameBooks (.lift hE _) none) (fun _ => ?_)
    exact .pure (fun _ hw => ⟨hw, .inl ⟨hother, rfl⟩⟩)
  · split
    · next hreactors =>
      intro w hw
      rw [Action.bind_eq]
      simp only [Action.onRegistry, Action.ofStep, ExceptT.mk]
      rcases Registry.prepare_cases store.host w.registry doc w.site.host with
        ⟨fault, kept, heq⟩ | ⟨inst, kept, hnumber, heq⟩
      · rw [show store.recording.host = store.host.recording from rfl, heq]
        exact hw.sameBooks ⟨rfl, rfl⟩
      · rw [show store.recording.host = store.host.recording from rfl, heq]
        obtain ⟨hsource, hid⟩ := Registry.prepare_ok heq
        refine ⟨hw.prepared hnumber rfl rfl, .inr ⟨inst, ?_, rfl, hsource, hid⟩⟩
        simpa using hreactors
    · next hother =>
      exact .pure (fun _ hw => ⟨hw, .inl ⟨by simpa using hother, rfl⟩⟩)

theorem leads_accept (store : Store σ) (ctx : Context) (doc : Document) :
    (accept store.recording ctx doc).Leads (World.Balanced none)
      (fun accepted w => w.Balanced accepted.1 ∧ Sets doc accepted.1) (World.Balanced none) := by
  have hE := World.elapsing_sameBooks (σ := σ)
  refine .bind (leads_of_sameBooks (.check hE ctx) none) (fun _ => ?_)
  refine .bind (leads_of_sameBooks (.lift hE _) none) (fun _ => ?_)
  refine .bind (leads_prepare store doc) (fun prepared => ?_)
  rintro w ⟨hw, hsets⟩
  rcases hsets with ⟨hother, rfl⟩ | ⟨inst, hreactors, rfl, hsource, hid⟩
  · have hsets : Sets doc none := .inl ⟨hother, rfl⟩
    refine Action.Leads.bind (leads_of_sameBooks (keeps_model hE ctx doc.model) none)
      (fun model => ?_) w hw
    split
    · refine .bind (leads_of_sameBooks (.lift hE _) none) (fun _ => ?_)
      exact .pure (fun _ hw => ⟨hw, hsets⟩)
    · exact .pure (fun _ hw => ⟨hw, hsets⟩)
  -- the model of reactors is built in and takes any body: nothing fails after the start
  · have hsets : Sets doc (some inst) := .inr ⟨inst, hreactors, rfl, hsource, hid⟩
    have hmodel : (Store.model ctx doc.model : Action (σ × Diary) Model) =
        pure (Model.bare modelOfReactors) := by
      rw [hreactors]
      rfl
    simp only [hmodel, pure_bind]
    cases doc.mutations.isNone <;> exact ⟨hw, hsets⟩

theorem leads_discard (store : Store σ) (prepared : Option Instance) :
    (discard store.recording prepared).Leads (World.Balanced prepared)
      (fun _ => World.Balanced none) (World.Balanced none) := by
  cases prepared with
  | none => exact .pure (fun _ hw => hw)
  | some inst =>
      exact fun w hw => hw.settles (Registry.settles_discard w.registry inst w.diary) rfl

theorem leads_install (store : Store σ) {id : String} (hid : id ≠ Registry.immutableId)
    (prepared : Option Instance) : (install store.recording id prepared).Leads
      (World.Balanced prepared) (fun _ => World.Balanced none) (World.Balanced none) := by
  cases prepared with
  | none => exact .pure (fun _ hw => hw)
  | some inst =>
      exact fun w hw => hw.settles
        (Registry.settles_install store.host w.registry inst w.site.host hid) rfl

-- What is written has the name of what is given.
theorem named_of_putOnceVia {commit : Handle → Action σ Unit} {w w' : World σ}
    {old : Option Document} {new : Document}
    (h : putOnceVia commit store ctx model doc w = (.ok (.written old new), w')) :
    new.model = doc.model ∧ new.id = doc.id := by
  rcases transactVia_cases h with ⟨e, -, he⟩ | ⟨handle, w₁, -, hworked⟩
  · cases he
  · rcases hworked with ⟨e, -, he⟩ | ⟨outcome, d, hwork, hdone | ⟨e, -, he⟩⟩
    · cases he
    · cases hdone
      obtain ⟨_, _, -, -, -, now, site, verdict, -, rfl⟩ := comes_of_putAttempt hwork
      cases verdict <;> exact ⟨rfl, rfl⟩
    · cases he

theorem leads_write (others : Kv → Kv) (store : Store σ) (ctx : Context) (model : Model)
    (doc : Document) (prepared : Option Instance) :
    Action.Leads (World.Balanced prepared)
      (retrying (store.retries doc) ctx
        (putOnceVia (racing others ctx) store.recording ctx model doc)
        (store.retries doc).maxRetries)
      (fun outcome w => w.Balanced prepared ∧ ∀ old new, outcome = .written old new →
        new.model = doc.model ∧ new.id = doc.id)
      (World.Balanced prepared) := by
  intro w hw
  have hkeeps := sameBooks_putOnceVia store others ctx model doc
  have hends := retrying_endsRun World.elapsing_sameBooks
    (putOnceVia (racing others ctx) store.recording ctx model doc) (fun _ _ _ => hkeeps.of_eq)
    (store.retries doc) ctx (store.retries doc).maxRetries w
  generalize retrying (store.retries doc) ctx
    (putOnceVia (racing others ctx) store.recording ctx model doc)
    (store.retries doc).maxRetries w = ended at hends
  obtain ⟨e | outcome, w'⟩ := ended
  · exact hw.sameBooks hends
  · obtain ⟨w₁, hpassed, hlast⟩ := hends
    refine ⟨(hw.sameBooks hpassed).sameBooks (hkeeps.of_eq hlast), ?_⟩
    rintro old new rfl
    exact named_of_putOnceVia hlast

-- What follows an announcement is not for the diary.
theorem leads_announced (store : Store σ) (model : Model) (old new : Option Document)
    (answer : Document) : Action.Leads (World.Balanced none) (do
      announce store.recording model old new
      return answer) (fun _ => World.Balanced none) (World.Balanced none) :=
  .bind (leads_of_sameBooks (sameBooks_announce store model old new) none)
    (fun _ => .pure (fun _ hw => hw))

theorem leads_conclude (store : Store σ) (model : Model) (hsets : Sets doc prepared)
    {outcome : WriteOutcome} (hnamed : ∀ old new, outcome = .written old new →
      new.model = doc.model ∧ new.id = doc.id) :
    (conclude store.recording model prepared outcome).Leads (World.Balanced prepared)
      (fun _ => World.Balanced none) (World.Balanced none) := by
  cases outcome with
  | unchanged stored =>
      intro w hw
      have hdone : ∀ x : Unit, Action.Leads (World.Balanced none)
          (pure stored : Action (σ × Diary) Document) (fun _ => World.Balanced none)
          (World.Balanced none) := fun _ => .pure (fun _ hw => hw)
      have heq : conclude store.recording model prepared (.unchanged stored) w =
          (if w.registry.isRunning stored.id then do
            discard store.recording prepared
            return stored
          else do
            install store.recording stored.id prepared
            return stored : Action (σ × Diary) Document) w := rfl
      rw [heq]
      by_cases hrunning : w.registry.isRunning stored.id = true
      · rw [if_pos hrunning]
        exact (leads_discard store prepared).bind hdone w hw
      · rw [if_neg hrunning]
        have hid : stored.id ≠ Registry.immutableId := by
          rintro hid
          rw [hid, Registry.isRunning, hw.builtIn] at hrunning
          exact hrunning rfl
        exact (leads_install store hid prepared).bind hdone w hw
  | written old new =>
      obtain ⟨hmodel, hid⟩ := hnamed old new rfl
      have hannounced := fun _ : Unit => leads_announced store model old (some new) new
      -- only a document of a reactor has started one
      have hnone : new.model ≠ modelOfReactors → prepared = none := by
        rcases hsets with ⟨-, hnone⟩ | ⟨inst, hreactors, -⟩
        · exact fun _ => hnone
        · exact fun hother => absurd (hmodel.trans hreactors) hother
      simp only [conclude]
      split
      · next hmodels =>
        obtain rfl := hnone (by
          rw [show new.model = modelOfModels by simpa using hmodels]
          decide)
        exact .bind (leads_of_sameBooks (fun _ => ⟨rfl, rfl⟩) none) hannounced
      · split
        · rcases hsets with ⟨-, rfl⟩ | ⟨inst, -, rfl, -, hbuiltIn⟩
          · exact hannounced ()
          · exact (leads_install store (hid ▸ hbuiltIn) _).bind hannounced
        · next hother =>
          obtain rfl := hnone (by simpa using hother)
          exact hannounced ()

theorem leads_putVia (others : Kv → Kv) (store : Store σ) (ctx : Context) (doc : Document) :
    (putVia (racing others ctx) store.recording ctx doc).Leads (World.Balanced none)
      (fun _ => World.Balanced none) (World.Balanced none) := by
  refine .bind (leads_accept store ctx doc) ?_
  rintro ⟨prepared, model⟩ w ⟨hw, hsets⟩
  have hwrite := (leads_write others store ctx model doc prepared).tryCatch
    (fun e => (leads_discard store prepared).bind (fun _ => .throw e))
  refine hwrite.bind (fun outcome w hw => ?_) w hw
  exact leads_conclude store model hsets hw.2 w hw.1

theorem leads_withdraw (store : Store σ) (target : Model) (model id : String) (old : Document) :
    (withdraw store.recording target model id old).Leads (World.Balanced none)
      (fun _ => World.Balanced none) (World.Balanced none) := by
  have hannounced := leads_announced store target (some old) none old
  unfold withdraw
  simp only
  split
  · exact .bind (leads_of_sameBooks (fun _ => ⟨rfl, rfl⟩) none) (fun _ => hannounced)
  · split
    · have hremoved : Action.Leads (World.Balanced none)
          (Action.onRegistry (fun registry s => registry.remove store.recording.host id s))
          (fun _ => World.Balanced none) (World.Balanced none) := fun w hw =>
        hw.settles (Registry.settles_remove store.host w.registry w.site.host id) rfl
      exact hremoved.bind (fun _ => hannounced)
    · exact hannounced

theorem leads_deleteVia (others : Kv → Kv) (store : Store σ) (ctx : Context) (model id : String) :
    (deleteVia (racing others ctx) store.recording ctx model id).Leads (World.Balanced none)
      (fun _ => World.Balanced none) (World.Balanced none) := by
  have hE := World.elapsing_sameBooks (σ := σ)
  refine .bind (leads_of_sameBooks (keeps_locate hE ctx model id) none) (fun target => ?_)
  have herase := keeps_retrying hE (sameBooks_deleteOnceVia store others ctx target model id)
    store.config.retry ctx store.config.retry.maxRetries
  exact .bind (leads_of_sameBooks herase none) (leads_withdraw store target model id)

theorem instances_stopAll (r : Registry) (host : Host σ) (s : σ)
    (hbuiltIn : r.get? Registry.immutableId = some .immutable) (id : String) (inst : Instance) :
    (r.stopAll host s).1.get? id ≠ some (.started inst) := by
  have hget : (r.stopAll host s).1.get? id =
      if Registry.isBuiltIn id then r.get? id else none :=
    Assoc.get?_filter Registry.isBuiltIn id r.running.entries
  rw [hget]
  split
  · next hid =>
    rw [show id = Registry.immutableId by simpa [Registry.isBuiltIn] using hid, hbuiltIn]
    simp
  · simp

-- In the end no reactor that was started runs any more.
theorem leads_shutdown (store : Store σ) : (shutdown store.recording).Leads (World.Balanced none)
    (fun _ w => w.Balanced none ∧ ∀ id inst, w.registry.get? id ≠ some (.started inst))
    (World.Balanced none) := by
  refine .bind (leads_of_sameBooks (fun _ => ⟨rfl, rfl⟩) none) (fun _ => ?_)
  refine .bind (leads_of_sameBooks (sameBooks_drain store) none) (fun _ w hw => ?_)
  exact ⟨hw.settles (Registry.settles_stopAll store.host w.registry w.site.host) rfl,
    instances_stopAll w.registry store.recording.host w.site.host hw.builtIn⟩

end Operations

section Shutdown

theorem smooth_settle (store : Store σ) (fuel : Nat) : (settle store fuel).Smooth := by
  induction fuel with
  | zero => exact Action.smooth_pure ()
  | succ fuel ih =>
      unfold settle
      refine Action.Smooth.bind (fun w => ⟨w, rfl⟩) (fun w => ?_)
      split
      · exact Action.smooth_pure ()
      · refine (Action.smooth_modify _).bind (fun _ => ?_)
        refine Action.Smooth.bind (fun w => ⟨(), rfl⟩) (fun _ => ?_)
        exact (Action.smooth_modify _).bind (fun _ => ih)

theorem smooth_shutdown (store : Store σ) : (shutdown store).Smooth := by
  refine (Action.smooth_modify _).bind (fun _ => ?_)
  refine Action.Smooth.bind ?_ (fun _ => Action.smooth_onRegistry _)
  exact Action.Smooth.bind (fun w => ⟨w, rfl⟩) (fun _ => smooth_settle store _)

theorem balanced_shutdown (store : Store σ) {w : World (σ × Diary)} (h : w.Balanced none) :
    (shutdown store.recording w).2.Balanced none ∧
      ∀ id inst, (shutdown store.recording w).2.registry.get? id ≠ some (.started inst) := by
  have hled := leads_shutdown store w h
  obtain ⟨_, hok⟩ := smooth_shutdown store.recording w
  generalize shutdown store.recording w = outcome at hled hok
  obtain ⟨_, w'⟩ := outcome
  cases hok
  exact hled

end Shutdown

end Store

-- What comes to a store: requests, while others work on its storage, and what its workers do.
inductive Deed where
  -- others change the storage before every commit
  | put (others : Kv → Kv) (ctx : Context) (doc : Document)
  | delete (others : Kv → Kv) (ctx : Context) (model id : String)
  | get (ctx : Context) (model id : String)
  | search (ctx : Context) (request : SearchRequest)
  | drain
  | shutdown
  -- others change the storage between two operations
  | meanwhile (others : Kv → Kv)

namespace Deed

variable {σ : Type}

def effect (store : Store σ) : Deed → World σ → World σ
  | put others ctx doc, w => (store.putVia (Store.racing others ctx) ctx doc w).2
  | delete others ctx model id, w => (store.deleteVia (Store.racing others ctx) ctx model id w).2
  | get ctx model id, w => (Store.get ctx model id w).2
  | search ctx request, w => (store.search ctx request w).2
  | drain, w => (store.drain w).2
  | shutdown, w => (store.shutdown w).2
  | meanwhile others, w => w.withKv (others w.site.kv)

def run (store : Store σ) (deeds : List Deed) (w : World σ) : World σ :=
  deeds.foldl (fun w deed => deed.effect store w) w

-- Where nobody comes between, a put is the one that the store has, and a deletion too.
theorem effect_alone (store : Store σ) (ctx : Context) (doc : Document) (model id : String)
    (w : World σ) : (put (fun kv => kv) ctx doc).effect store w = (store.put ctx doc w).2 ∧
      (delete (fun kv => kv) ctx model id).effect store w = (store.delete ctx model id w).2 := by
  rw [Store.put_eq_via, Store.delete_eq_via]
  exact ⟨rfl, rfl⟩

variable (store : Store σ) {w : World (σ × Diary)}

theorem bare_effect (deed : Deed) (w : World (σ × Diary)) :
    (deed.effect store.recording w).bare = deed.effect store w.bare := by
  have hbare : ∀ {α : Type} {a : Action (σ × Diary) α} {b : Action σ α}, a.Shadows b →
      (a w).2.bare = (b w.bare).2 := fun h => (congrArg Prod.snd (h w)).symm
  cases deed with
  | put others ctx doc => exact hbare (Store.shadows_putVia store ctx others doc)
  | delete others ctx model id => exact hbare (Store.shadows_deleteVia store ctx others model id)
  | get ctx model id => exact hbare (Store.shadows_get ctx model id)
  | search ctx request => exact hbare (Store.shadows_search store ctx request)
  | drain => exact hbare (Store.shadows_drain store)
  | shutdown => exact hbare (Store.shadows_shutdown store)
  | meanwhile others => rfl

theorem balanced_effect (h : w.Balanced none) (deed : Deed) :
    (deed.effect store.recording w).Balanced none := by
  have hE := World.elapsing_sameBooks (σ := σ)
  cases deed with
  | put others ctx doc => exact (Store.leads_putVia others store ctx doc).world h
  | delete others ctx model id => exact (Store.leads_deleteVia others store ctx model id).world h
  | get ctx model id => exact h.sameBooks (Store.keeps_get hE ctx model id w)
  | search ctx request => exact h.sameBooks (Store.keeps_search hE store.recording ctx request w)
  | drain => exact h.sameBooks (Store.sameBooks_drain store w)
  | shutdown => exact (Store.balanced_shutdown store h).1
  | meanwhile others => exact h.sameBooks ⟨rfl, rfl⟩

theorem balanced_run (h : w.Balanced none) (deeds : List Deed) :
    (run store.recording deeds w).Balanced none := by
  induction deeds generalizing w with
  | nil => exact h
  | cons deed rest ih => exact ih (balanced_effect store h deed)

theorem bare_run (deeds : List Deed) (w : World (σ × Diary)) :
    (run store.recording deeds w).bare = run store deeds w.bare := by
  induction deeds generalizing w with
  | nil => rfl
  | cons deed rest ih => exact (ih _).trans (congrArg (run store rest) (bare_effect store deed w))

end Deed

-- Nothing was started in a new store.
theorem World.balanced_of_start {σ : Type} {config : Config} {bus : Option Bus} {now : Time} {s : σ}
    {w : World (σ × Diary)} (hstart : World.start config bus now (s, Diary.blank) = .ok w)
    (kinds : List String) :
    World.Balanced none { w with registry := kinds.foldl Registry.register w.registry } := by
  obtain ⟨-, hregistry, hhost⟩ := World.of_start hstart
  obtain ⟨known, hknown⟩ := Registry.new.foldl_register kinds
  have hdiary : w.diary = Diary.blank := congrArg Prod.snd hhost
  rw [hregistry, hknown]
  refine ⟨rfl, ?_, ?_⟩
  · show w.diary.started.map (·.number) = []
    rw [hdiary]
    rfl
  · show (↑w.diary.started : Multiset Instance) = 0 + Registry.stock _ w.diary
    rw [hdiary]
    rfl

-- Whatever comes to a new store, every reactor that was started runs under a single id and was
-- never stopped, or does not run and was stopped once. When the store is shut down in the end, none
-- of them runs any more. That all this is noted down has no effect on the store.
theorem Store.accounted_of_deeds {σ : Type} (store : Store σ) {config : Config} {bus : Option Bus}
    {now : Time} {s : σ} {w : World (σ × Diary)}
    (hstart : World.start config bus now (s, Diary.blank) = .ok w) (kinds : List String)
    (deeds : List Deed) :
    let opened := { w with registry := kinds.foldl Registry.register w.registry }
    let done := Deed.run store.recording deeds opened
    done.bare = Deed.run store deeds opened.bare ∧ done.Accounted ∧
      ∃ ended, shutdown store.recording done = (.ok (), ended) ∧ ended.Accounted ∧
        ∀ inst ∈ ended.diary.started,
          (∀ id, ended.registry.get? id ≠ some (.started inst)) ∧ ended.diary.stops inst = 1 := by
  intro opened done
  have hdone : done.Balanced none :=
    Deed.balanced_run store (World.balanced_of_start hstart kinds) deeds
  obtain ⟨hended, hidle⟩ := balanced_shutdown store hdone
  obtain ⟨_, hok⟩ := smooth_shutdown store.recording done
  refine ⟨Deed.bare_run store deeds opened, hdone.accounted, _, Prod.ext hok rfl, hended.accounted,
    fun inst hstarted => ?_⟩
  rcases hended.accounted.each inst hstarted with ⟨⟨id, hid, -⟩, -⟩ | hstopped
  · exact absurd hid (hidle id inst)
  · exact hstopped

namespace Probing

def store : Store Unit :=
  ⟨{ Config.standard with encoding := .messagePack, retry := .single }, Host.none⟩

def doc (id : String) (expected : Option Nat) : Document :=
  { Document.ofBody modelOfReactors id (.object [("runtime", .string "probe")]) with
    version := expected
    mutations := some [("delay", .object [("set", .int 3)])] }

def world {τ : Type} (kv : Kv) (s : τ) : World τ :=
  ⟨⟨kv, 0, s⟩, ModelCache.empty, Registry.new,
    TaskQueue.new Config.standard.reconcile.workers Config.standard.reconcile.maxQueueDepth, none⟩

def opened {τ : Type} (kv : Kv) (s : τ) : World τ :=
  { world kv s with registry := ["probe"].foldl Registry.register (world kv s).registry }

-- Another store on the same storage writes a document.
def rival (kv : Kv) : Kv :=
  (store.put .background (doc "com.ex.S" none) (opened kv ())).2.site.kv

-- The first put names a version that is not stored, and the last one loses a race.
def deeds : List Deed :=
  [.put (fun kv => kv) .background (doc "com.ex.R" (some 7)),
    .put (fun kv => kv) .background (doc "com.ex.R" none),
    .put rival .background (doc "com.ex.S" none)]

end Probing

-- Of three reactors that were started two were stopped again, and one runs.
theorem Store.accounted_of_probing :
    World.start Config.standard none 0 ((), Diary.blank) =
        .ok (Probing.world (Kv.new .mvcc) ((), Diary.blank)) ∧
      let done := Deed.run Probing.store.recording Probing.deeds
        (Probing.opened (Kv.new .mvcc) ((), Diary.blank))
      done.Accounted ∧ (done.diary.started.map (·.number), done.diary.stopped.map (·.number)) =
        ([1, 2, 3], [1, 3]) := by
  have hstart : World.start Config.standard none 0 ((), Diary.blank) =
      .ok (Probing.world (Kv.new .mvcc) ((), Diary.blank)) := rfl
  obtain ⟨-, haccounted, -⟩ := accounted_of_deeds Probing.store hstart ["probe"] Probing.deeds
  refine ⟨hstart, haccounted, ?_⟩
  cbv

end DocStore
