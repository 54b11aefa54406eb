import DocStore.Proofs.Store.Action
import DocStore.Proofs.Store.Passing

-- The phases of a put, and what has been found out in each of them when it succeeds.
namespace DocStore

namespace Attempt

variable {σ α β : Type} {host : Host σ}

-- What has succeeded has succeeded in every step.
theorem ok_of_bind {a : Attempt α} {f : α → Attempt β} {d d' : Draft σ} {b : β}
    (h : (a >>= f).perform host d = (.ok b, d')) :
    ∃ x d₁, a.perform host d = (.ok x, d₁) ∧ (f x).perform host d₁ = (.ok b, d') := by
  replace h : (a.bind f).perform host d = (.ok b, d') := h
  rw [perform_bind] at h
  rcases ha : a.perform host d with ⟨e | x, d₁⟩
  · rw [ha] at h
    cases h
  · rw [ha] at h
    exact ⟨x, d₁, rfl, h⟩

variable (ctx : Context) (host : Host σ) (d : Draft σ)

theorem perform_read (f : View → Except Error α) : (read ctx f).perform host d =
    (f (d.world.site.kv.view d.handle (d.world.signal ctx)), { d with world := d.world.pass 0 }) :=
  rfl

theorem perform_lift (r : Except Error α) : (liftM r : Attempt α).perform host d = (r, d) := rfl

-- An attempt is made by the reactors that are there, and leaves them as they are.
theorem registry_perform (a : Attempt α) :
    (a.perform host d).2.world.registry = d.world.registry :=
  a.keeps_perform World.elapsing_registry (fun _ _ _ _ _ => rfl) d

end Attempt

-- Only the running reactors check changes.
theorem Registry.validate_congr {σ : Type} {r r' : Registry} (h : r.running = r'.running)
    (host : Host σ) (ctx : Context) (old : Option Document) (reactors : List String)
    (new : Option Document) (site : Site σ) :
    r.validate host ctx old reactors new site = r'.validate host ctx old reactors new site := by
  induction reactors generalizing new site with
  | nil => rfl
  | cons id rest ih => simp only [validate, get?, h, ih]

-- The document that a put answers with.
def WriteOutcome.document : WriteOutcome → Document
  | .unchanged stored => stored
  | .written _ new => new

namespace Store

variable {σ α : Type}

-- What is done for a put before the document is written.
def accept (store : Store σ) (ctx : Context) (doc : Document) :
    Action σ (Option Instance × Model) := do
  Action.check ctx
  Identifier.checkPath doc.model doc.id
  let prepared ← prepare store doc
  let model ← model ctx doc.model
  if doc.mutations.isNone then checkBody model doc.val
  return (prepared, model)

-- What is done for it afterwards.
def conclude (store : Store σ) (model : Model) (prepared : Option Instance) :
    WriteOutcome → Action σ Document
  | .unchanged stored => do
    if (← MonadState.get).registry.isRunning stored.id then discard store prepared
    else install store stored.id prepared
    return stored
  | .written old new => do
    if new.model == modelOfModels then
      modify (fun w => { w with models := w.models.invalidate new.id })
    else if new.model == modelOfReactors then install store new.id prepared
    announce store model old (some new)
    return new

theorem put_eq (store : Store σ) (ctx : Context) (doc : Document) : put store ctx doc = (do
    let (prepared, model) ← accept store ctx doc
    let outcome ← tryCatch (write store ctx model doc) (fun e => do
      discard store prepared
      throw e)
    conclude store model prepared outcome) := by
  unfold put accept
  simp only [bind_assoc]
  congr! 9
  split
  · simp only [bind_assoc, pure_bind]
    rfl
  · simp only [pure_bind]
    rfl

-- What is done for a deletion before the document is deleted, and the transaction that deletes it.
def locate (ctx : Context) (model id : String) : Action σ Model := do
  Action.check ctx
  Identifier.checkPath model id
  Store.model ctx model

def erase (store : Store σ) (ctx : Context) (target : Model) (model id : String) :
    Action σ Document :=
  retrying store.config.retry ctx
    (transact store.host ctx Kv.write (deleteAttempt ctx target model id) (fun _ => true))
    store.config.retry.maxRetries

-- What is done for it afterwards.
def withdraw (store : Store σ) (target : Model) (model id : String) (old : Document) :
    Action σ Document := do
  if model == modelOfModels then
    modify (fun w => { w with models := w.models.invalidate id })
  else if model == modelOfReactors then
    let _ ← Action.onRegistry (fun registry s => registry.remove store.host id s)
  announce store target (some old) none
  return old

theorem delete_eq (store : Store σ) (ctx : Context) (model id : String) :
    delete store ctx model id = (do
      let target ← locate ctx model id
      let old ← erase store ctx target model id
      withdraw store target model id old) := by
  unfold delete locate
  simp only [bind_assoc]
  rfl

variable {R : World σ → World σ → Prop} {store : Store σ} {ctx : Context} {doc : Document}
  {model : Model} {w w' : World σ}

section Acceptance

-- What is known of a document that may be written, and of the model that it is to follow.
structure Accepted (doc : Document) (model : Model) : Prop where
  named : Identifier.checkPath doc.model doc.id = .ok ()
  builtIn : ∀ known, Model.builtIn? doc.model = some known → model = known
  defines : doc.model = modelOfModels → ∃ declared, Model.ofDocument doc = .ok declared
  fits : doc.mutations = none → checkBody model doc.val = .ok ()

theorem ok_of_lift {r : Except Error α} {a : α} (h : (liftM r : Action σ α) w = (.ok a, w')) :
    r = .ok a := congrArg Prod.fst h

theorem accepted_of_accept {prepared : Option Instance}
    (h : (accept store ctx doc w).1 = .ok (prepared, model)) : Accepted doc model := by
  replace h : accept store ctx doc w = (.ok (prepared, model), (accept store ctx doc w).2) :=
    Prod.ext h rfl
  obtain ⟨_, _, -, h⟩ := Action.ok_of_bind h
  obtain ⟨_, _, hnamed, h⟩ := Action.ok_of_bind h
  obtain ⟨prepared', _, hprepared, h⟩ := Action.ok_of_bind h
  obtain ⟨model', _, hmodel, h⟩ := Action.ok_of_bind h
  have hfits : model = model' ∧ (doc.mutations = none → checkBody model doc.val = .ok ()) := by
    split at h
    · obtain ⟨_, _, hbody, h⟩ := Action.ok_of_bind h
      cases h
      exact ⟨rfl, fun _ => ok_of_lift hbody⟩
    · next hmutations =>
      cases h
      exact ⟨rfl, fun hnone => absurd (hnone ▸ rfl) hmutations⟩
  obtain ⟨rfl, hfits⟩ := hfits
  refine ⟨ok_of_lift hnamed, fun known hknown => ?_, fun hdefines => ?_, hfits⟩
  · unfold Store.model at hmodel
    rw [hknown] at hmodel
    cases hmodel
    rfl
  · unfold prepare at hprepared
    rw [if_pos (by simpa using hdefines)] at hprepared
    obtain ⟨declared, _, hdeclared, -⟩ := Action.ok_of_bind hprepared
    exact ⟨declared, ok_of_lift hdeclared⟩

theorem keeps_accept (hR : World.Passing R) (store : Store σ) (ctx : Context) (doc : Document) :
    Action.Keeps R (accept store ctx doc) := by
  have hE := hR.toElapsing
  refine .bind hE (.check hE ctx) (fun _ => ?_)
  refine .bind hE (.lift hE _) (fun _ => ?_)
  refine .bind hE (keeps_prepare hR doc) (fun prepared => ?_)
  refine .bind hE (keeps_model hE ctx doc.model) (fun model => ?_)
  split
  · exact .bind hE (.lift hE _) (fun _ => .pure hE (prepared, model))
  · exact .pure hE (prepared, model)

theorem keeps_locate (hR : World.Elapsing R) (ctx : Context) (model id : String) :
    Action.Keeps R (locate ctx model id) :=
  .bind hR (.check hR ctx) (fun _ => .bind hR (.lift hR _) (fun _ => keeps_model hR ctx model))

end Acceptance

theorem smooth_announce (old new : Option Document) : (announce store model old new).Smooth := by
  unfold announce
  split
  · exact Action.smooth_pure ()
  · refine Action.Smooth.bind (fun w => ⟨w, rfl⟩) (fun w => ?_)
    split
    · exact Action.smooth_modify _
    · exact Action.Smooth.bind (fun w => ⟨(), rfl⟩) (fun _ => Action.smooth_modify _)

theorem smooth_install (id : String) (prepared : Option Instance) :
    (install store id prepared).Smooth := by
  cases prepared with
  | none => exact Action.smooth_pure ()
  | some inst => exact Action.smooth_onRegistry _

theorem smooth_discard (prepared : Option Instance) : (discard store prepared).Smooth := by
  cases prepared with
  | none => exact Action.smooth_pure ()
  | some inst => exact Action.smooth_onRegistry _

-- Once a document is written nothing can fail.
theorem returns_conclude (prepared : Option Instance) (outcome : WriteOutcome) :
    (conclude store model prepared outcome).Returns outcome.document := by
  cases outcome with
  | unchanged stored =>
      have hdone : Action.Returns (pure stored : Action σ Document) stored :=
        Action.returns_pure stored
      refine Action.Smooth.returns (fun w => ⟨w, rfl⟩) (fun w => ?_)
      simp only
      split
      · exact (smooth_discard prepared).returns (fun _ => hdone)
      · exact (smooth_install stored.id prepared).returns (fun _ => hdone)
  | written old new =>
      have hannounced : Action.Returns (do
          announce store model old (some new)
          return new) new := (smooth_announce old (some new)).returns (fun _ =>
        Action.returns_pure new)
      simp only [conclude]
      split
      · exact (Action.smooth_modify _).returns (fun _ => hannounced)
      · split
        · exact (smooth_install new.id prepared).returns (fun _ => hannounced)
        · exact hannounced

theorem returns_withdraw (target : Model) (model id : String) (old : Document) :
    (withdraw store target model id old).Returns old := by
  have hannounced : Action.Returns (do
      announce store target (some old) none
      return old) old :=
    (smooth_announce (some old) none).returns (fun _ => Action.returns_pure old)
  unfold withdraw
  simp only
  split
  · exact (Action.smooth_modify _).returns (fun _ => hannounced)
  · split
    · exact (Action.smooth_onRegistry _).returns (fun _ => hannounced)
    · exact hannounced

-- A put that succeeds is accepted, written, and concluded.
theorem phases_of_put {d : Document} (h : put store ctx doc w = (.ok d, w')) :
    ∃ prepared model w₁ outcome w₂, accept store ctx doc w = (.ok (prepared, model), w₁) ∧
      write store ctx model doc w₁ = (.ok outcome, w₂) ∧ d = outcome.document ∧
      conclude store model prepared outcome w₂ = (.ok d, w') := by
  rw [put_eq] at h
  obtain ⟨⟨prepared, model⟩, w₁, haccept, h⟩ := Action.ok_of_bind h
  obtain ⟨outcome, w₂, hwrite, hconclude⟩ := Action.ok_of_bind h
  have hanswer := (returns_conclude prepared outcome).eq_of_ok hconclude
  refine ⟨prepared, model, w₁, outcome, w₂, haccept, ?_, hanswer, hconclude⟩
  rw [Action.tryCatch_eq] at hwrite
  rcases hrun : write store ctx model doc w₁ with ⟨e | outcome', w₃⟩
  · simp only [hrun] at hwrite
    obtain ⟨_, _, -, hthrow⟩ := Action.ok_of_bind hwrite
    cases hthrow
  · simp only [hrun] at hwrite
    exact hwrite

-- One that fails has failed before it was concluded.
theorem put_failed (hR : World.Passing R) {e : Error}
    (hwrite : ∀ model w e w', write store ctx model doc w = (.error e, w') → R w w')
    (h : put store ctx doc w = (.error e, w')) : R w w' := by
  rw [put_eq] at h
  refine (keeps_accept hR store ctx doc).error_of_bind hR.toElapsing h ?_
  rintro ⟨prepared, model⟩ w₁ h
  rcases Action.error_of_bind h with hfailed | ⟨outcome, w₂, -, hconclude⟩
  · rw [Action.tryCatch_eq] at hfailed
    rcases hrun : write store ctx model doc w₁ with ⟨e' | outcome, w₂⟩
    · rw [hrun] at hfailed
      refine hR.trans (hwrite model w₁ e' w₂ hrun) ?_
      refine (keeps_discard hR prepared).error_of_bind hR.toElapsing hfailed
        (fun _ w₃ hthrow => ?_)
      cases hthrow
      exact hR.refl w'
    · rw [hrun] at hfailed
      cases hfailed
  · exact absurd hconclude (returns_conclude prepared outcome).ne_error

theorem phases_of_delete {model id : String} {d : Document}
    (h : delete store ctx model id w = (.ok d, w')) :
    ∃ target w₁ w₂, locate ctx model id w = (.ok target, w₁) ∧
      erase store ctx target model id w₁ = (.ok d, w₂) ∧
      withdraw store target model id d w₂ = (.ok d, w') := by
  rw [delete_eq] at h
  obtain ⟨target, w₁, hlocate, h⟩ := Action.ok_of_bind h
  obtain ⟨old, w₂, herase, hwithdraw⟩ := Action.ok_of_bind h
  obtain rfl := (returns_withdraw target model id old).eq_of_ok hwithdraw
  exact ⟨target, w₁, w₂, hlocate, herase, hwithdraw⟩

theorem delete_failed (hR : World.Elapsing R) {model id : String} {e : Error}
    (hrun : ∀ target w e w', transact store.host ctx Kv.write (deleteAttempt ctx target model id)
      (fun _ => true) w = (.error e, w') → R w w')
    (h : delete store ctx model id w = (.error e, w')) : R w w' := by
  rw [delete_eq] at h
  refine (keeps_locate hR ctx model id).error_of_bind hR h (fun target w₁ h => ?_)
  rcases Action.error_of_bind h with hfailed | ⟨old, w₂, -, hwithdraw⟩
  · have hends := retrying_endsRun hR _ (hrun target) store.config.retry ctx
      store.config.retry.maxRetries w₁
    rw [← erase, hfailed] at hends
    exact hends
  · exact absurd hwithdraw (returns_withdraw target model id old).ne_error

section Attempts

-- A transaction that succeeds has done its work. If that changes nothing, it was closed.
theorem work_of_transact {host : Host σ}
    {openKv : Kv → Signal → Error → Except Error Handle × Kv} {body : Attempt α}
    {changes : α → Bool} {a : α} (h : transact host ctx openKv body changes w = (.ok a, w')) :
    ∃ stop handle kv d, openKv w.site.kv (w.signal ctx) stop = (.ok handle, kv) ∧
      body.perform host ⟨handle, (w.withKv kv).pass 0⟩ = (.ok a, d) ∧
      (changes a = false → w' = d.world.withKv (d.world.site.kv.close d.handle).2) := by
  rw [transact_eq] at h
  rcases hopen : openKv w.site.kv (w.signal ctx) (ctx.giveUp w.site.now).1 with ⟨e | handle, kv⟩
  · rw [hopen] at h
    cases h
  · rw [hopen] at h
    rcases hwork : body.perform host ⟨handle, (w.withKv kv).pass 0⟩ with ⟨e | a', d⟩
    · simp only [hwork] at h
      cases h
    · simp only [hwork] at h
      refine ⟨_, handle, kv, d, hopen, ?_⟩
      cases hchanges : changes a' with
      | false =>
          simp only [hchanges] at h
          cases h
          exact ⟨hwork, fun _ => rfl⟩
      | true =>
          simp only [hchanges, ite_true] at h
          split at h <;> cases h
          exact ⟨hwork, fun hsame => by simp [hchanges] at hsame⟩

-- What a put makes of the document that it has found, once it knows the new body. The reactors that
-- run have the last word.
def Comes (host : Host σ) (registry : Registry) (ctx : Context) (model : Model) (doc : Document)
    (old : Option Document) (val : Value) : WriteOutcome → Prop
  | .unchanged stored => old = some stored ∧ stored.val.equals val = true
  | .written before new => before = old ∧ ∃ now site verdict,
    (registry.validate host ctx old model.reactors (some (candidate doc old val now)) site).1 =
      .ok verdict ∧ new = reviewed (candidate doc old val now) verdict

-- What is done once the old document is out of the index.
theorem comes_of_review {host : Host σ} {registry : Registry} (encoding : Encoding)
    {old : Option Document} {val : Value} {outcome : WriteOutcome} (d : Draft σ) {d' : Draft σ}
    (hregistry : d.world.registry = registry) (h : (do
      let fresh := candidate doc old val (← Attempt.calendar)
      let new := reviewed fresh (← Attempt.validate ctx model.reactors old (some fresh))
      place encoding ctx model new
      return WriteOutcome.written old new : Attempt WriteOutcome).perform host d =
        (.ok outcome, d')) : Comes host registry ctx model doc old val outcome := by
  obtain ⟨now, d₁, hnow, h⟩ := Attempt.ok_of_bind h
  obtain ⟨verdict, d₂, hverdict, h⟩ := Attempt.ok_of_bind h
  obtain ⟨_, d₃, -, h⟩ := Attempt.ok_of_bind h
  obtain ⟨hdone, -⟩ := Prod.mk.inj h
  obtain rfl : WriteOutcome.written old _ = outcome := Except.ok.inj hdone
  obtain ⟨-, rfl⟩ := Prod.mk.inj hnow
  refine ⟨rfl, now, d.world.site, verdict, ?_, rfl⟩
  rw [← hregistry]
  simp only [Attempt.validate, Attempt.perform] at hverdict
  split at hverdict
  · next heq =>
    obtain ⟨hsame, -⟩ := Prod.mk.inj hverdict
    rw [heq]
    exact hsame
  · cases hverdict

theorem comes_of_putAttempt {host : Host σ} {encoding : Encoding} {expected : Option Nat}
    {outcome : WriteOutcome} {d d' : Draft σ}
    (h : (putAttempt encoding ctx model doc expected).perform host d = (.ok outcome, d')) :
    ∃ old val, stored? doc.model doc.id (d.world.site.kv.view d.handle (d.world.signal ctx)) =
        .ok old ∧ newBody model doc old = .ok val ∧
      Comes host d.world.registry ctx model doc old val outcome := by
  obtain ⟨old, d₁, hread, h⟩ := Attempt.ok_of_bind h
  obtain ⟨_, d₂, hversion, h⟩ := Attempt.ok_of_bind h
  obtain ⟨val, d₃, hval, h⟩ := Attempt.ok_of_bind h
  rw [Attempt.perform_read] at hread
  rw [Attempt.perform_lift] at hversion hval
  obtain ⟨hold, rfl⟩ := Prod.mk.inj hread
  obtain ⟨-, rfl⟩ := Prod.mk.inj hversion
  obtain ⟨hnew, rfl⟩ := Prod.mk.inj hval
  refine ⟨old, val, hold, hnew, ?_⟩
  cases old with
  | none => exact comes_of_review encoding { d with world := d.world.pass 0 } rfl h
  | some stored =>
      simp only at h
      split at h
      · next hequal =>
        obtain ⟨hdone, -⟩ := Prod.mk.inj h
        obtain rfl : WriteOutcome.unchanged stored = outcome := Except.ok.inj hdone
        exact ⟨rfl, hequal⟩
      · obtain ⟨removed, d₂, hremoved, h⟩ := Attempt.ok_of_bind h
        obtain ⟨_, d₃, hwritten, h⟩ := Attempt.ok_of_bind h
        refine comes_of_review encoding d₃ ?_ h
        have hsame := (Attempt.write removed).registry_perform host d₂
        rw [hwritten] at hsame
        rw [Attempt.perform_read] at hremoved
        obtain ⟨-, rfl⟩ := Prod.mk.inj hremoved
        exact hsame

end Attempts

end Store

end DocStore
