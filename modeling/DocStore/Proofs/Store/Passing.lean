import DocStore.Proofs.Store.Sequence

-- What lasts through the operations of a store, as relations between the worlds before and after.
namespace DocStore

-- Time goes by, models are kept, and somebody reads.
structure World.Elapsing {σ : Type} (R : World σ → World σ → Prop) : Prop where
  refl : ∀ w, R w w
  trans : ∀ {w w' w''}, R w w' → R w' w'' → R w w''
  time : ∀ w now, R w { w with site := { w.site with now := now } }
  models : ∀ w models, R w { w with models := models }
  reading : ∀ w, R w (w.withKv (w.site.kv.read.2.close w.site.kv.read.1).2)

-- Besides, reactors get ready.
structure World.Passing {σ : Type} (R : World σ → World σ → Prop) : Prop extends
    World.Elapsing R where
  reactors : ∀ (w : World σ) registry s, registry.running = w.registry.running →
    R w { w with registry := registry, site := { w.site with host := s } }

theorem World.elapsing_registry {σ : Type} :
    Elapsing (fun w w' : World σ => w'.registry = w.registry) where
  refl _ := rfl
  trans h h' := h'.trans h
  time _ _ := rfl
  models _ _ := rfl
  reading _ := rfl

theorem World.Passing.and {σ : Type} {R S : World σ → World σ → Prop} (hR : Passing R)
    (hS : Passing S) : Passing (fun w w' => R w w' ∧ S w w') where
  refl w := ⟨hR.refl w, hS.refl w⟩
  trans h h' := ⟨hR.trans h.1 h'.1, hS.trans h.2 h'.2⟩
  time w now := ⟨hR.time w now, hS.time w now⟩
  models w models := ⟨hR.models w models, hS.models w models⟩
  reactors w registry s h := ⟨hR.reactors w registry s h, hS.reactors w registry s h⟩
  reading w := ⟨hR.reading w, hS.reading w⟩

-- What is stored stays as it is.
def World.Preserves {σ : Type} (w w' : World σ) : Prop :=
  ∀ log map, w.site.kv.Holds log map → w'.site.kv.Holds log map

theorem World.passing_preserves {σ : Type} : Passing (Preserves (σ := σ)) where
  refl _ _ _ := id
  trans h h' log map := h' log map ∘ h log map
  time _ _ _ _ := id
  models _ _ _ _ := id
  reactors _ _ _ _ _ _ := id
  reading _ _ _ := Kv.Holds.read_close

namespace Action

variable {σ α β : Type} {R : World σ → World σ → Prop}

-- What has succeeded has succeeded in every step.
theorem ok_of_bind {m : Action σ α} {f : α → Action σ β} {w w' : World σ} {b : β}
    (h : (m >>= f) w = (.ok b, w')) : ∃ a w₁, m w = (.ok a, w₁) ∧ f a w₁ = (.ok b, w') := by
  rw [bind_eq] at h
  rcases hm : m w with ⟨e | a, w₁⟩
  · rw [hm] at h
    cases h
  · rw [hm] at h
    exact ⟨a, w₁, rfl, h⟩

theorem error_of_bind {m : Action σ α} {f : α → Action σ β} {w w' : World σ} {e : Error}
    (h : (m >>= f) w = (.error e, w')) :
    m w = (.error e, w') ∨ ∃ a w₁, m w = (.ok a, w₁) ∧ f a w₁ = (.error e, w') := by
  rw [bind_eq] at h
  rcases hm : m w with ⟨e' | a, w₁⟩
  · rw [hm] at h
    cases h
    exact .inl rfl
  · rw [hm] at h
    exact .inr ⟨a, w₁, rfl, h⟩

-- Nothing else comes to pass in an operation, whether it succeeds or not.
def Keeps (R : World σ → World σ → Prop) (a : Action σ α) : Prop := ∀ w, R w (a w).2

namespace Keeps

theorem of_eq {a : Action σ α} (h : Keeps R a) {w w' : World σ} {result : Except Error α}
    (heq : a w = (result, w')) : R w w' := by
  have hkept := h w
  rw [heq] at hkept
  exact hkept

theorem pure (hR : World.Elapsing R) (x : α) : Keeps R (Pure.pure x : Action σ α) := hR.refl

theorem throw (hR : World.Elapsing R) (e : Error) : Keeps R (MonadExcept.throw e : Action σ α) :=
  hR.refl

theorem lift (hR : World.Elapsing R) (r : Except Error α) : Keeps R (liftM r : Action σ α) :=
  hR.refl

theorem get (hR : World.Elapsing R) : Keeps R (MonadState.get : Action σ (World σ)) := hR.refl

theorem bind (hR : World.Elapsing R) {m : Action σ α} {f : α → Action σ β} (hm : Keeps R m)
    (hf : ∀ x, Keeps R (f x)) : Keeps R (m >>= f) := by
  intro w
  have hpassed := hm w
  rw [bind_eq]
  generalize m w = outcome at hpassed
  obtain ⟨e | x, w'⟩ := outcome
  · exact hpassed
  · exact hR.trans hpassed (hf x w')

-- What has failed has failed after a while.
theorem error_of_bind (hR : World.Elapsing R) {m : Action σ α} {f : α → Action σ β}
    (hm : Keeps R m) {w w' : World σ} {e : Error} (h : (m >>= f) w = (.error e, w'))
    (hrest : ∀ a w₁, f a w₁ = (.error e, w') → R w₁ w') : R w w' := by
  have hpassed := hm w
  rcases Action.error_of_bind h with hfailed | ⟨a, w₁, hdone, hlast⟩
  · rw [hfailed] at hpassed
    exact hpassed
  · rw [hdone] at hpassed
    exact hR.trans hpassed (hrest a w₁ hlast)

theorem check (hR : World.Elapsing R) (ctx : Context) : Keeps R (check ctx : Action σ Unit) :=
  fun w => hR.time w _

theorem reading (hR : World.Elapsing R) (ctx : Context) (f : View → Except Error α) :
    Keeps R (reading ctx f : Action σ α) :=
  fun w => hR.trans (hR.reading w) (hR.time _ _)

theorem keepModel (hR : World.Elapsing R) (models : ModelCache) :
    Keeps R (modify ({ · with models := models }) : Action σ Unit) := fun w => hR.models w models

theorem onRegistry (hR : World.Passing R) {change : Registry → σ → α × Registry × σ}
    (h : ∀ registry s, (change registry s).2.1.running = registry.running) :
    Keeps R (onRegistry change) := fun w => hR.reactors w _ _ (h w.registry w.site.host)

end Keeps

end Action

-- What reactors keep that check changes is kept by the work of a transaction.
theorem Attempt.keeps_perform {σ α : Type} {R : World σ → World σ → Prop} (hR : World.Elapsing R)
    {host : Host σ} (hvalidate : ∀ (w : World σ) ctx old reactors new,
      R w { w with site := (w.registry.validate host ctx old reactors new w.site).2 })
    (a : Attempt α) (d : Draft σ) : R d.world (a.perform host d).2.world := by
  induction a generalizing d with
  | done result => exact hR.refl _
  | reading ctx next ih =>
      exact hR.trans (hR.time d.world _) (ih _ { d with world := d.world.pass 0 })
  | writing writes next ih =>
      simp only [perform]
      split
      · next h _ => exact ih { d with handle := h }
      · exact hR.refl _
  | validating ctx reactors old new next ih =>
      have hchecked := hvalidate d.world ctx old reactors new
      simp only [perform]
      split
      · next verdict site heq =>
        rw [heq] at hchecked
        exact hR.trans hchecked (ih verdict { d with world := { d.world with site := site } })
      · next heq =>
        rw [heq] at hchecked
        exact hchecked
  | timing next ih => exact ih _ _

namespace Store

variable {σ α : Type} {R : World σ → World σ → Prop} {store : Store σ}

theorem running_prepare (registry : Registry) (host : Host σ) (doc : Document) (s : σ) :
    (registry.prepare host doc s).2.1.running = registry.running := by
  unfold Registry.prepare
  split
  · rfl
  · split
    · rfl
    · simp only
      split <;> rfl

theorem keeps_prepare (hR : World.Passing R) (doc : Document) :
    Action.Keeps R (prepare store doc) := by
  have hE := hR.toElapsing
  unfold prepare
  split
  · refine .bind hE (.lift hE _) (fun declared => ?_)
    refine .bind hE (.get hE) (fun w => ?_)
    exact .bind hE (.lift hE _) (fun _ => .pure hE none)
  · split
    · refine .bind hE (.onRegistry hR (fun registry s => ?_)) (fun prepared => ?_)
      · exact running_prepare registry store.host doc s
      · cases prepared with
        | ok inst => exact .pure hE (some inst)
        | error fault => exact .throw hE _
    · exact .pure hE none

theorem keeps_model (hR : World.Elapsing R) (ctx : Context) (name : String) :
    Action.Keeps R (model ctx name) := by
  unfold model
  cases Model.builtIn? name with
  | some builtIn => exact .pure hR builtIn
  | none =>
      refine .bind hR (.get hR) (fun w => ?_)
      cases w.models.get? name with
      | some cached => exact .pure hR cached
      | none =>
          refine .bind hR (.get hR) (fun w => ?_)
          refine .bind hR (.reading hR ctx _) (fun stored => ?_)
          cases stored with
          | none => exact .throw hR _
          | some doc =>
              refine .bind hR (.lift hR _) (fun compiled => ?_)
              refine .bind hR (.get hR) (fun w' => ?_)
              rcases w'.models.insert compiled (w.models.generation name) with ⟨kept, models⟩
              exact .bind hR (.keepModel hR models) (fun _ => .pure hR kept)

theorem keeps_discard (hR : World.Passing R) (prepared : Option Instance) :
    Action.Keeps R (discard store prepared) := by
  cases prepared with
  | none => exact .pure hR.toElapsing ()
  | some inst => exact .onRegistry hR (fun _ _ => rfl)

theorem keeps_get (hR : World.Elapsing R) (ctx : Context) (model id : String) :
    Action.Keeps R (get ctx model id) := by
  refine .bind hR (.check hR ctx) (fun _ => ?_)
  refine .bind hR (.lift hR _) (fun _ => ?_)
  refine .bind hR (.reading hR ctx _) (fun found => ?_)
  cases found with
  | none => exact .throw hR _
  | some doc =>
      simp only
      split
      · exact .bind hR (.get hR) (fun _ => .pure hR _)
      · exact .pure hR doc

theorem keeps_search (hR : World.Elapsing R) (store : Store σ) (ctx : Context)
    (request : SearchRequest) : Action.Keeps R (search store ctx request) :=
  .bind hR (.check hR ctx) (fun _ => .reading hR ctx _)

section Transactions

-- A transaction in which the commit may come out as it likes, and do anything to the world.
def transactVia (commit : Handle → Action σ Unit) (host : Host σ) (ctx : Context)
    (openKv : Kv → Signal → Error → Except Error Handle × Kv) (body : Attempt α)
    (changes : α → Bool) : Action σ α := do
  let h ← openWriter ctx openKv
  let (result, h) ← work host h body
  match result with
  | .error e =>
    rollback h
    throw e
  | .ok a =>
    if changes a then commit h else rollback h
    return a

theorem transact_eq_via (host : Host σ) (ctx : Context)
    (openKv : Kv → Signal → Error → Except Error Handle × Kv) (body : Attempt α)
    (changes : α → Bool) : transact host ctx openKv body changes =
      transactVia (commit ctx) host ctx openKv body changes := rfl

variable {commit : Handle → Action σ Unit} {host : Host σ} {ctx : Context}
  {openKv : Kv → Signal → Error → Except Error Handle × Kv} {body : Attempt α}
  {changes : α → Bool}

-- What storage, reactors and commits keep is kept by the transaction.
theorem keeps_transactVia (hR : World.Elapsing R) (hkv : ∀ w kv, R w (w.withKv kv))
    (hvalidate : ∀ (w : World σ) ctx old reactors new,
      R w { w with site := (w.registry.validate host ctx old reactors new w.site).2 })
    (hcommit : ∀ h, Action.Keeps R (commit h)) :
    Action.Keeps R (transactVia commit host ctx openKv body changes) := by
  have hrollback : ∀ h, Action.Keeps R (rollback h) := fun h w => hkv w _
  unfold transactVia
  refine .bind hR (fun w => ?_) (fun h => ?_)
  · simp only [openWriter, Action.ofStep, ExceptT.mk]
    split <;> exact hR.trans (hkv w _) (hR.time _ _)
  · refine .bind hR (fun w => body.keeps_perform hR hvalidate ⟨h, w⟩) ?_
    rintro ⟨e | a, h⟩
    · exact .bind hR (hrollback h) (fun _ => .throw hR e)
    · simp only
      split
      · exact .bind hR (hcommit h) (fun _ => .pure hR a)
      · exact .bind hR (hrollback h) (fun _ => .pure hR a)

end Transactions

section Reconciliation

variable (hR : World.Elapsing R) (hqueue : ∀ w queue, R w { w with queue := queue })
  (hperform : ∀ task, Action.Keeps R (perform store task))

include hR hqueue hperform

-- What a task keeps is kept by those who bring it to the queue, and by those who work it off.
theorem keeps_announce (model : Model) (old new : Option Document) :
    Action.Keeps R (announce store model old new) := by
  unfold announce
  split
  · exact .pure hR ()
  · refine .bind hR (.get hR) (fun w => ?_)
    split
    · exact fun w => hqueue w _
    · exact .bind hR (hperform _) (fun _ w => hqueue w _)

theorem keeps_settle (fuel : Nat) : Action.Keeps R (settle store fuel) := by
  induction fuel with
  | zero => exact .pure hR ()
  | succ fuel ih =>
      unfold settle
      refine .bind hR (.get hR) (fun w => ?_)
      split
      · exact .pure hR ()
      · refine .bind hR (fun w => hqueue w _) (fun _ => ?_)
        refine .bind hR (hperform _) (fun _ => ?_)
        exact .bind hR (fun w => hqueue w _) (fun _ => ih)

theorem keeps_drain : Action.Keeps R (drain store) :=
  .bind hR (.get hR) (fun _ => keeps_settle hR hqueue hperform _)

end Reconciliation

-- How a run ends: in failure, or in a success that came after some time.
def EndsRun (R : World σ → World σ → Prop) (run : Action σ α) (w : World σ) :
    Except Error α × World σ → Prop
  | (.error _, w') => R w w'
  | (.ok a, w') => ∃ w₁, R w w₁ ∧ run w₁ = (.ok a, w')

theorem EndsRun.after (hR : World.Elapsing R) {run : Action σ α} {w w' : World σ} (hpassed : R w w')
    {outcome : Except Error α × World σ} (h : EndsRun R run w' outcome) :
    EndsRun R run w outcome := by
  obtain ⟨e | a, w''⟩ := outcome
  · exact hR.trans hpassed h
  · obtain ⟨w₁, hrest, hlast⟩ := h
    exact ⟨w₁, hR.trans hpassed hrest, hlast⟩

-- Before the attempt that succeeds, others have failed.
theorem retrying_endsRun (hR : World.Elapsing R) (run : Action σ α)
    (hfail : ∀ w e w', run w = (.error e, w') → R w w') (config : RetryConfig) (ctx : Context)
    (left : Nat) (w : World σ) : EndsRun R run w (retrying config ctx run left w) := by
  induction left generalizing w with
  | zero =>
      rw [retrying, Action.tryCatch_eq]
      rcases hrun : run w with ⟨e | a, w'⟩
      · exact hfail w e w' hrun
      · exact ⟨w, hR.refl w, hrun⟩
  | succ left ih =>
      rw [retrying, Action.tryCatch_eq]
      rcases hrun : run w with ⟨e | a, w'⟩
      · have hfailed := hfail w e w' hrun
        simp only
        split
        · simp only [Action.bind_eq, Action.backoff, Action.ofStep, ExceptT.mk]
          generalize ctx.wait w'.site.now
            (Time.ofMillis (config.longestDelay (config.maxRetries - (left + 1)))) = waited
          have hwaited := hR.trans hfailed (hR.time w' waited.2)
          cases waited.1.check with
          | error e' => exact hwaited
          | ok _ => exact (ih _).after hR hwaited
        · exact hfailed
      · exact ⟨w, hR.refl w, hrun⟩

-- What a single run keeps is kept by all of them.
theorem keeps_retrying (hR : World.Elapsing R) {run : Action σ α} (hrun : Action.Keeps R run)
    (config : RetryConfig) (ctx : Context) (left : Nat) :
    Action.Keeps R (retrying config ctx run left) := by
  intro w
  have hends := retrying_endsRun hR run (fun _ _ _ => hrun.of_eq) config ctx left w
  generalize retrying config ctx run left w = outcome at hends
  obtain ⟨e | a, w'⟩ := outcome
  · exact hends
  · obtain ⟨w₁, hpassed, hlast⟩ := hends
    exact hR.trans hpassed (hrun.of_eq hlast)

theorem write_endsRun (hR : World.Elapsing R) (store : Store σ) (ctx : Context) (model : Model)
    (doc : Document)
    (hfail : ∀ w e w', writeOnce store ctx model doc w = (.error e, w') → R w w') (w : World σ) :
    EndsRun R (writeOnce store ctx model doc) w (write store ctx model doc w) := by
  rw [write_eq]
  exact retrying_endsRun hR _ hfail ..

end Store

end DocStore
