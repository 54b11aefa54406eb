import DocStore.Proofs.Store.Refusals

-- Requests to a store, one after the other.
namespace DocStore

section Reconciliation

variable {σ γ : Type} {host : Host σ} {view : Site σ → γ}

-- What reactors leave alone when a change is brought to them is left alone by the whole
-- reconciliation, unless it is the time.
theorem Registry.view_bring
    (hview : ∀ inst ctx old new site, view (host.reconcile inst ctx old new site).2 = view site)
    (htime : ∀ (site : Site σ) now, view { site with now := now } = view site)
    (config : RetryConfig) (ctx : Context) (reactor : Reactor) (old new : Option Document)
    (left : Nat) (site : Site σ) :
    view (bring host config ctx reactor old new left site).2 = view site := by
  have hreconcile : ∀ site : Site σ,
      view (host.reconcileWith reactor ctx old new site).2 = view site := by
    intro site
    cases reactor with
    | immutable => rfl
    | started inst => exact hview inst ctx old new site
  induction left generalizing site with
  | zero =>
      have hleft := hreconcile site
      unfold bring
      split <;> next heq => rw [heq] at hleft; exact hleft
  | succ left ih =>
      have hleft := hreconcile site
      unfold bring
      split
      · next heq =>
        rw [heq] at hleft
        exact hleft
      · next heq =>
        rw [heq] at hleft
        exact hleft
      · next heq =>
        rw [heq] at hleft
        simp only
        split
        · exact hleft
        · split
          · exact (ih _).trans ((htime _ _).trans hleft)
          · exact (htime _ _).trans hleft

theorem Registry.view_reconcile
    (hview : ∀ inst ctx old new site, view (host.reconcile inst ctx old new site).2 = view site)
    (htime : ∀ (site : Site σ) now, view { site with now := now } = view site) (r : Registry)
    (config : RetryConfig) (ctx : Context) (old new : Option Document) (reactors : List String)
    (outcome : Outcome) (site : Site σ) :
    view (r.reconcile host config ctx old new reactors outcome site).2 = view site := by
  induction reactors generalizing outcome site with
  | nil => rfl
  | cons id rest ih =>
      simp only [reconcile]
      split
      · exact ih outcome site
      · next reactor _ =>
        have hleft := view_bring hview htime config ctx reactor old new config.maxRetries site
        split <;> next heq => rw [heq] at hleft; first | exact hleft | exact (ih _ _).trans hleft

theorem ReconcileTask.view_run
    (hview : ∀ inst ctx old new site, view (host.reconcile inst ctx old new site).2 = view site)
    (htime : ∀ (site : Site σ) now, view { site with now := now } = view site)
    (task : ReconcileTask) (registry : Registry) (config : ReconcileConfig) (bus : Option Bus)
    (site : Site σ) : view (task.run registry host config bus site).2 = view site := by
  have hbring : ∀ (ctx : Context) (site : Site σ),
      view (task.bring registry host config ctx site).2 = view site :=
    fun ctx site => registry.view_reconcile hview htime config.retry ctx task.old task.new
      task.reactors .done site
  -- how the lock is got makes no difference
  obtain ⟨lock, hlock⟩ : ∃ lock, Bus.lock = lock := ⟨_, rfl⟩
  unfold run
  rw [hlock]
  split
  · rfl
  · simp only
    split
    · exact hbring _ site
    · split
      · exact htime _ _
      · exact (hbring _ _).trans (htime _ _)

-- Reactors that leave the storage alone when a change is brought to them.
def Host.Rests (host : Host σ) : Prop :=
  ∀ inst ctx old new site, (host.reconcile inst ctx old new site).2.kv = site.kv

theorem ReconcileTask.kv_run (hrests : host.Rests) (task : ReconcileTask) (registry : Registry)
    (config : ReconcileConfig) (bus : Option Bus) (site : Site σ) :
    (task.run registry host config bus site).2.kv = site.kv :=
  task.view_run hrests (fun _ _ => rfl) registry config bus site

end Reconciliation

namespace Store

variable {σ : Type} {store : Store σ}

theorem quiet_perform (hrests : store.host.Rests) (task : ReconcileTask) :
    (perform store task).Quiet :=
  fun w => ⟨⟨(), rfl⟩,
    task.kv_run hrests w.registry store.config.reconcile w.bus w.site⟩

theorem quiet_announce (hrests : store.host.Rests) (model : Model) (old new : Option Document) :
    (announce store model old new).Quiet := by
  unfold announce
  split
  · exact Action.quiet_pure ()
  · refine Action.quiet_get.bind (fun w => ?_)
    split
    · exact Action.quiet_modify (fun _ => rfl)
    · exact (quiet_perform hrests _).bind (fun _ => Action.quiet_modify (fun _ => rfl))

theorem quiet_discard (prepared : Option Instance) : (discard store prepared).Quiet := by
  cases prepared with
  | none => exact Action.quiet_pure ()
  | some inst => exact Action.quiet_onRegistry _

theorem quiet_install (id : String) (prepared : Option Instance) :
    (install store id prepared).Quiet := by
  cases prepared with
  | none => exact Action.quiet_pure ()
  | some inst => exact Action.quiet_onRegistry _

theorem answers_withdraw (hrests : store.host.Rests) (target : Model) (model id : String)
    (old : Document) : (withdraw store target model id old).Answers old := by
  have hannounce : Action.Answers (do
      announce store target (some old) none
      return old) old :=
    (quiet_announce hrests target (some old) none).answers (fun _ => Action.answers_pure old)
  unfold withdraw
  simp only
  split
  · refine (Action.quiet_modify ?_).answers (fun _ => hannounce)
    exact fun _ => rfl
  · split
    · exact (Action.quiet_onRegistry _).answers (fun _ => hannounce)
    · exact hannounce

theorem quiet_conclude_unchanged (store : Store σ) (model : Model) (prepared : Option Instance)
    (stored : Document) :
    (conclude store model prepared (.unchanged stored)).Answers stored := by
  refine Action.quiet_get.answers (fun w => ?_)
  simp only
  split
  · exact (quiet_discard prepared).answers (fun _ => Action.answers_pure stored)
  · exact (quiet_install stored.id prepared).answers (fun _ => Action.answers_pure stored)

theorem answers_conclude_of_quiet {model : Model}
    (hannounce : ∀ old new, (announce store model old new).Quiet) (prepared : Option Instance)
    (outcome : WriteOutcome) :
    (conclude store model prepared outcome).Answers outcome.document := by
  cases outcome with
  | unchanged stored => exact quiet_conclude_unchanged store model prepared stored
  | written old new =>
      have hannounced : Action.Answers (do
          announce store model old (some new)
          return new) new :=
        (hannounce old (some new)).answers (fun _ => Action.answers_pure new)
      simp only [conclude]
      split
      · refine (Action.quiet_modify ?_).answers (fun _ => hannounced)
        exact fun _ => rfl
      · split
        · exact (quiet_install new.id prepared).answers (fun _ => hannounced)
        · exact hannounced

-- Once a document is accepted, it is the writing that a put comes to.
theorem answer_as_written (store : Store σ) (run : Action σ WriteOutcome) (model : Model)
    (prepared : Option Instance) (w : World σ) : ((do
      let outcome ← tryCatch run (fun e => do
        discard store prepared
        throw e)
      conclude store model prepared outcome : Action σ Document) w).1 =
    (run w).1.map WriteOutcome.document := by
  rw [Action.bind_eq, Action.tryCatch_eq]
  rcases run w with ⟨e | outcome, w₁⟩
  · obtain ⟨_, _, -, heq⟩ := (quiet_discard prepared : (discard store prepared).Quiet).bind_eq
      (fun _ => (throw e : Action σ WriteOutcome)) w₁
    simp only [heq]
    rfl
  · exact returns_conclude prepared outcome w₁

theorem kv_as_written {model : Model} (hannounce : ∀ old new, (announce store model old new).Quiet)
    (run : Action σ WriteOutcome) (prepared : Option Instance) (w : World σ) : ((do
      let outcome ← tryCatch run (fun e => do
        discard store prepared
        throw e)
      conclude store model prepared outcome : Action σ Document) w).2.site.kv =
    (run w).2.site.kv := by
  rw [Action.bind_eq, Action.tryCatch_eq]
  rcases run w with ⟨e | outcome, w₁⟩
  · obtain ⟨_, _, hkv, heq⟩ := (quiet_discard prepared : (discard store prepared).Quiet).bind_eq
      (fun _ => (throw e : Action σ WriteOutcome)) w₁
    simp only [heq]
    exact hkv
  · exact (answers_conclude_of_quiet hannounce prepared outcome w₁).2

theorem answers_conclude (hrests : store.host.Rests) (model : Model) (prepared : Option Instance)
    (outcome : WriteOutcome) :
    (conclude store model prepared outcome).Answers outcome.document :=
  answers_conclude_of_quiet (quiet_announce hrests model) prepared outcome

variable {log : List Entry} {map : SortedMap Bytes Bytes}

-- How a put ends: it is refused and changes nothing, or it answers with the document that is stored
-- then.
structure PutEnds (store : Store σ) (ctx : Context) (doc : Document) (log : List Entry)
    (map : SortedMap Bytes Bytes) (outcome : Except Error Document × World σ) : Prop where
  refused : ∀ e, outcome.1 = .error e → outcome.2.site.kv.Holds log map ∧
    (e = preempted ∨ ∃ model, Refuses map model doc e)
  answered : ∀ d, outcome.1 = .ok d → ∃ model result, Accepted doc model ∧
    d = WriteOutcome.document result ∧
    (∃ writes verdict, Puts store.config.encoding ctx model doc map writes verdict result) ∧
    outcome.2.site.kv.HoldsAfter log map (.put store.config.encoding ctx model doc)
      (Job.changeOfPut result)

theorem put_ends (hspares : store.host.Spares) (hrests : store.host.Rests) (ctx : Context)
    (doc : Document) {w : World σ} (hw : w.site.kv.Holds log map) :
    PutEnds store ctx doc log map (put store ctx doc w) := by
  have hfail : ∀ e (w' : World σ), w'.site.kv.Holds log map → e.isConflict = false →
      PutEnds store ctx doc log map (.error e, w') := by
    intro e w' hw' hmild
    refine ⟨?_, fun d hd => (nomatch hd)⟩
    · intro e' he
      obtain rfl : e = e' := Except.error.inj he
      exact ⟨hw', .inr ⟨Model.bare doc.model, refuses_of_isConflict hmild⟩⟩
  rw [put_eq]
  refine (peaceful_accept ctx doc).bind_cases (keeps_accept World.passing_preserves store ctx doc) hw
    hfail (fun accepted w₁ haccept hw => ?_)
  obtain ⟨prepared, model⟩ := accepted
  have haccepted := accepted_of_accept haccept
  have hwrite := write_ends hspares ctx model doc hw
  have hanswer := answer_as_written store (write store ctx model doc) model prepared w₁
  have hkv := kv_as_written (quiet_announce hrests model) (write store ctx model doc) prepared w₁
  rcases hrun : write store ctx model doc w₁ with ⟨e | outcome, w₂⟩ <;>
    rw [hrun] at hwrite hanswer hkv
  · obtain ⟨hrefuses, hholds⟩ := hwrite
    refine ⟨fun e' he => ?_, fun d hd => ?_⟩
    · cases he.symm.trans hanswer
      exact ⟨hkv ▸ hholds, hrefuses.symm.imp_right (fun h => ⟨model, h⟩)⟩
    · cases hd.symm.trans hanswer
  · obtain ⟨hputs, hafter⟩ := hwrite
    refine ⟨fun e he => ?_, fun d hd => ?_⟩
    · cases he.symm.trans hanswer
    · cases hd.symm.trans hanswer
      exact ⟨model, outcome, haccepted, rfl, hputs, hkv ▸ hafter⟩

variable {keeps : Entry → Prop}

theorem lasting_put (hspares : store.host.Spares) (hrests : store.host.Rests) (ctx : Context)
    (doc : Document)
    (hkeeps : ∀ model answer change, Accepted doc model →
      (Job.put store.config.encoding ctx model doc).Makes answer change →
        keeps ⟨.put store.config.encoding ctx model doc, answer, change⟩) :
    (put store ctx doc).Lasting keeps := by
  rintro w ⟨log, map, hw, hlog⟩
  have hends := put_ends hspares hrests ctx doc hw
  generalize put store ctx doc w = outcome at hends
  obtain ⟨e | d, w'⟩ := outcome
  · exact ⟨log, map, (hends.refused e rfl).1, hlog⟩
  · obtain ⟨model, result, haccepted, -, -, hafter⟩ := hends.answered d rfl
    cases result with
    | unchanged stored => exact ⟨log, map, hafter, hlog⟩
    | written old new =>
        obtain ⟨answer, after, hturns, hholds⟩ := hafter
        refine ⟨_, after, hholds, List.forall_mem_append.mpr ⟨hlog, ?_⟩⟩
        rw [List.forall_mem_singleton]
        obtain ⟨base, writes, hprepares, -⟩ := hturns
        exact hkeeps model answer _ haccepted hprepares.makes

-- How a deletion ends: it is refused and changes nothing, or it answers with the document that was
-- stored.
structure DeleteEnds (ctx : Context) (model id : String) (log : List Entry)
    (map : SortedMap Bytes Bytes) (outcome : Except Error Document × World σ) : Prop where
  refused : ∀ e, outcome.1 = .error e → outcome.2.site.kv.Holds log map
  answered : ∀ d, outcome.1 = .ok d → ∃ target,
    outcome.2.site.kv.HoldsAfter log map (.delete ctx target model id) (some ⟨some d, none⟩)

theorem delete_ends (hspares : store.host.Spares) (hrests : store.host.Rests) (ctx : Context)
    (model id : String) {w : World σ} (hw : w.site.kv.Holds log map) :
    DeleteEnds ctx model id log map (delete store ctx model id w) := by
  have hfail : ∀ e (w' : World σ), w'.site.kv.Holds log map → e.isConflict = false →
      DeleteEnds ctx model id log map (.error e, w') :=
    fun e w' hw' _ => ⟨fun _ _ => hw', fun d hd => (nomatch hd)⟩
  rw [delete_eq]
  refine (peaceful_locate ctx model id).bind_cases
    (keeps_locate World.passing_preserves.toElapsing ctx model id) hw hfail
    (fun target w₁ _ hw => ?_)
  have herase : Ends log map (.delete ctx target model id) (fun old => some ⟨some old, none⟩)
      (fun _ => True) (fun e => True ∨ e = preempted) (erase store ctx target model id w₁) := by
    refine retrying_ends (fun w hw => ?_) (fun _ _ => trivial) _ ctx _ hw
    exact (transact_ends hspares ctx (Job.attempt_delete ctx target model id)
      (deleteAttempt_ensures ctx target model id) (fun _ _ => trivial) hw).imp
        (fun _ _ => trivial) (fun _ h => h)
  rw [Action.bind_eq]
  generalize erase store ctx target model id w₁ = outcome at herase
  obtain ⟨e | old, w₂⟩ := outcome
  · exact ⟨fun _ _ => herase.2, fun d hd => (nomatch hd)⟩
  · obtain ⟨hok, hkv⟩ := answers_withdraw hrests target model id old w₂
    refine ⟨fun e he => ?_, fun d hd => ?_⟩
    · rw [hok] at he
      cases he
    · rw [hok] at hd
      cases hd
      exact ⟨target, hkv ▸ herase.2⟩

theorem lasting_delete (hspares : store.host.Spares) (hrests : store.host.Rests) (ctx : Context)
    (model id : String)
    (hkeeps : ∀ target answer old, keeps ⟨.delete ctx target model id, answer, ⟨some old, none⟩⟩) :
    (delete store ctx model id).Lasting keeps := by
  rintro w ⟨log, map, hw, hlog⟩
  have hends := delete_ends hspares hrests ctx model id hw
  generalize delete store ctx model id w = outcome at hends
  obtain ⟨e | old, w'⟩ := outcome
  · exact ⟨log, map, hends.refused e rfl, hlog⟩
  · obtain ⟨target, answer, after, -, hholds⟩ := hends.answered old rfl
    refine ⟨_, after, hholds, List.forall_mem_append.mpr ⟨hlog, ?_⟩⟩
    rw [List.forall_mem_singleton]
    exact hkeeps target answer old

end Store

end DocStore
