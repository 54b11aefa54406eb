import Mathlib
import DocStore.Proofs.Store.Faults
import DocStore.Proofs.Store.Unmoved

-- Writers that lose races to commit have further attempts, a limited number of them, whatever comes
-- of the commits.
namespace DocStore

theorem Job.opened_of_openKv {job : Job} {kv kv' : Kv} {signal : Signal} {stop : Error} {h : Handle}
    (hopen : job.openKv kv signal stop = (.ok h, kv')) : kv.Opened h kv' := by
  cases job with
  | delete ctx target model id => exact Kv.opened_of_write hopen
  | put encoding ctx model doc =>
      simp only [openKv] at hopen
      split at hopen
      · exact Kv.opened_of_writeExclusive hopen
      · exact Kv.opened_of_write hopen

-- The stored document that a put has found.
def WriteOutcome.found : WriteOutcome → Option Document
  | .unchanged stored => some stored
  | .written old _ => old

namespace Store

variable {σ α β : Type}

section Attempts

-- A commit that fails has lost a race, or fails for a reason that is no conflict.
def Commits (commit : Handle → Action σ Unit) : Prop :=
  ∀ h w e, (commit h w).1 = .error e → e.isRetryable = true ∨ e.isConflict = false

theorem commits_commit (ctx : Context) : Commits (commit ctx : Handle → Action σ Unit) :=
  fun _ _ _ he => Kv.isConflict_of_commit he

-- The stored document has been read through a transaction that was just opened: it has nothing of
-- its own, and finds what is committed at that time.
structure Reads (ctx : Context) (job : Job) (w : World σ) (old : Option Document) : Prop where
  opened : ∃ h w₁, openWriter ctx job.openKv w = (.ok h, w₁) ∧
    Kv.bufferedWrites h = SortedMap.empty ∧
    stored? job.model job.id (w₁.site.kv.view h (w₁.signal ctx)) = .ok old
  committed : stored? job.model job.id w.site.kv.now = .ok old

-- Attempts that answer, and attempts that lose a race, have read the stored document anew.
def Anew (ctx : Context) (job : Job) (found : α → Option Document) (run : Action σ α) : Prop :=
  ∀ w, (∀ a w', run w = (.ok a, w') → Reads ctx job w (found a)) ∧
    ∀ key w', run w = (.error (.writeConflict key), w') → ∃ old, Reads ctx job w old

section Transaction

variable {commit : Handle → Action σ Unit} {host : Host σ} {ctx : Context}
  {openKv : Kv → Signal → Error → Except Error Handle × Kv} {body : Attempt α}
  {changes : α → Bool} {job : Job} {w w' : World σ}

-- A transaction that has come to an end has failed in itself, or it has done its work. Then only the
-- commit may fail.
theorem transactVia_cases {result : Except Error α}
    (h : transactVia commit host ctx openKv body changes w = (result, w')) :
    (∃ e, openWriter ctx openKv w = (.error e, w') ∧ result = .error e) ∨
      ∃ handle w₁, openWriter ctx openKv w = (.ok handle, w₁) ∧
        ((∃ e, (body.perform host ⟨handle, w₁⟩).1 = .error e ∧ result = .error e) ∨
          ∃ a d, body.perform host ⟨handle, w₁⟩ = (.ok a, d) ∧
            (result = .ok a ∨ ∃ e, (commit d.handle d.world).1 = .error e ∧ result = .error e)) := by
  rw [transactVia, Action.bind_eq] at h
  rcases hopen : openWriter ctx openKv w with ⟨e | handle, w₁⟩
  · rw [hopen] at h
    cases h
    exact .inl ⟨e, rfl, rfl⟩
  · simp only [hopen, Action.bind_eq, work, Action.ofStep, ExceptT.mk] at h
    refine .inr ⟨handle, w₁, rfl, ?_⟩
    rcases hwork : body.perform host ⟨handle, w₁⟩ with ⟨e | a, d⟩
    · simp only [hwork] at h
      cases h
      exact .inl ⟨e, rfl, rfl⟩
    · simp only [hwork] at h
      refine .inr ⟨a, d, rfl, ?_⟩
      cases hchanges : changes a with
      | false =>
          simp only [hchanges] at h
          cases h
          exact .inl rfl
      | true =>
          simp only [hchanges, ite_true, Action.bind_eq] at h
          rcases hcommit : commit d.handle d.world with ⟨e | _, w₂⟩
          · rw [hcommit] at h
            cases h
            exact .inr ⟨e, rfl, rfl⟩
          · rw [hcommit] at h
            cases h
            exact .inl rfl

theorem openKv_of_openWriter {opened : Except Error Handle}
    (h : openWriter ctx openKv w = (opened, w')) :
    (openKv w.site.kv (w.signal ctx) (ctx.giveUp w.site.now).1).1 = opened ∧
      w'.site.kv = (openKv w.site.kv (w.signal ctx) (ctx.giveUp w.site.now).1).2 := by
  simp only [openWriter, Action.ofStep, ExceptT.mk] at h
  split at h
  all_goals
    next heq =>
    cases h
    rw [heq]
    exact ⟨rfl, rfl⟩

theorem isCancelled_of_openWriter {e : Error}
    (h : openWriter ctx job.openKv w = (.error e, w')) : e.isCancelled = true :=
  Job.isCancelled_of_openKv (ctx.isCancelled_giveUp _)
    (Prod.ext (openKv_of_openWriter h).1 rfl)

theorem opened_of_openWriter {handle : Handle}
    (h : openWriter ctx job.openKv w = (.ok handle, w')) :
    w.site.kv.Opened handle w'.site.kv := by
  obtain ⟨hopen, hkv⟩ := openKv_of_openWriter h
  rw [hkv]
  exact Job.opened_of_openKv (Prod.ext hopen rfl)

-- A transaction never says that a writer has lost too many races.
theorem transactVia_not_preempted (hcommit : Commits commit) (hbody : body.FailsWith Decisive) :
    (transactVia commit host ctx job.openKv body changes w).1 ≠ .error preempted := by
  intro hlost
  rcases transactVia_cases (Prod.ext hlost rfl) with ⟨e, hopen, he⟩ | ⟨handle, w₁, -, hworked⟩
  · cases he
    cases isCancelled_of_openWriter hopen
  · rcases hworked with ⟨e, hfailed, he⟩ | ⟨a, d, -, hdone | ⟨e, hfailed, he⟩⟩
    · cases he
      exact (hbody.perform (fun _ => decisive_of_isConflict) _ _ _ hfailed).2 rfl
    · cases hdone
    · cases he
      rcases hcommit _ _ _ hfailed with hretry | hmild
      · cases hretry
      · cases hmild

-- An attempt whose work starts with reading the stored document.
theorem anew_transactVia (hbody : body.FailsWith Decisive) {found : α → Option Document}
    (hfound : ∀ d a d', body.perform host d = (.ok a, d') →
      stored? job.model job.id (d.world.site.kv.view d.handle (d.world.signal ctx)) =
        .ok (found a)) :
    Anew ctx job found (transactVia commit host ctx job.openKv body changes) := by
  have hreads : ∀ {w : World σ} {handle w₁ a d}, openWriter ctx job.openKv w = (.ok handle, w₁) →
      body.perform host ⟨handle, w₁⟩ = (.ok a, d) → Reads ctx job w (found a) := by
    intro w handle w₁ a d hopen hwork
    have hopened := opened_of_openWriter hopen
    have hread := hfound _ _ _ hwork
    exact ⟨⟨handle, w₁, hopen, hopened.blank, hread⟩, stored?_of_view (hopened.sees _) hread⟩
  intro w
  refine ⟨fun a w' h => ?_, fun key w' h => ?_⟩
  · rcases transactVia_cases h with ⟨e, -, he⟩ | ⟨handle, w₁, hopen, hworked⟩
    · cases he
    · rcases hworked with ⟨e, -, he⟩ | ⟨a', d, hwork, hdone | ⟨e, -, he⟩⟩
      · cases he
      · cases hdone
        exact hreads hopen hwork
      · cases he
  · rcases transactVia_cases h with ⟨e, hopen, he⟩ | ⟨handle, w₁, hopen, hworked⟩
    · cases he
      cases isCancelled_of_openWriter hopen
    · rcases hworked with ⟨e, hfailed, he⟩ | ⟨a, d, hwork, -⟩
      · cases he
        cases (hbody.perform (fun _ => decisive_of_isConflict) _ _ _ hfailed).1
      · exact ⟨found a, hreads hopen hwork⟩

end Transaction

end Attempts

section Races

variable {config : RetryConfig} {ctx : Context} {run : Action σ α} {w w₁ : World σ} {n : Nat}

-- A number of attempts have lost their races, one after the other, each followed by a wait.
inductive Loses (config : RetryConfig) (ctx : Context) (run : Action σ α) (w : World σ) :
    Nat → World σ → Prop where
  | none : Loses config ctx run w 0 w
  | again {n : Nat} {key : Bytes} {w₁ w₂ w₃ : World σ} : Loses config ctx run w n w₁ →
    run w₁ = (.error (.writeConflict key), w₂) →
    Action.backoff ctx (Time.ofMillis (config.longestDelay n)) w₂ = (.ok (), w₃) →
    Loses config ctx run w (n + 1) w₃

-- All the attempts that there may be have lost their races.
def LosesAll (config : RetryConfig) (ctx : Context) (run : Action σ α) (w : World σ) : Prop :=
  ∃ w₁ key w₂, Loses config ctx run w config.maxRetries w₁ ∧
    run w₁ = (.error (.writeConflict key), w₂)

-- The outcome that a number of attempts come to.
inductive Tries (config : RetryConfig) (ctx : Context) (run : Action σ α) (w : World σ) :
    Nat → Except Error α × World σ → Prop where
  -- the first attempt that loses no race
  | settled {n : Nat} {w₁ : World σ} {outcome : Except Error α × World σ} : n ≤ config.maxRetries →
    Loses config ctx run w n w₁ → run w₁ = outcome →
    (∀ key, outcome.1 ≠ .error (.writeConflict key)) → Tries config ctx run w (n + 1) outcome
  | exhausted {key : Bytes} {w₁ w₂ : World σ} : Loses config ctx run w config.maxRetries w₁ →
    run w₁ = (.error (.writeConflict key), w₂) →
    Tries config ctx run w (config.maxRetries + 1) (.error preempted, w₂)
  -- the context is over before the next attempt
  | stopped {n : Nat} {key : Bytes} {e : Error} {w₁ w₂ w₃ : World σ} : n < config.maxRetries →
    Loses config ctx run w n w₁ → run w₁ = (.error (.writeConflict key), w₂) →
    Action.backoff ctx (Time.ofMillis (config.longestDelay n)) w₂ = (.error e, w₃) →
    e.isCancelled = true → Tries config ctx run w (n + 1) (.error e, w₃)

theorem Tries.le {outcome : Except Error α × World σ} (h : Tries config ctx run w n outcome) :
    n ≤ config.maxRetries + 1 := by
  cases h with
  | settled hle => exact Nat.succ_le_succ hle
  | exhausted => exact Nat.le_refl _
  | stopped hlt => exact Nat.succ_le_succ (Nat.le_of_lt hlt)

theorem Tries.not_writeConflict {outcome : Except Error α × World σ}
    (h : Tries config ctx run w n outcome) (key : Bytes) :
    outcome.1 ≠ .error (.writeConflict key) := by
  cases h with
  | settled _ _ _ hother => exact hother key
  | exhausted =>
      intro heq
      cases heq
  | stopped _ _ _ _ hcancelled =>
      intro heq
      cases heq
      cases hcancelled

-- A writer is told that it lost only after it has lost as often as it may.
theorem Tries.losesAll (hrun : ∀ w, (run w).1 ≠ .error preempted)
    {outcome : Except Error α × World σ} (h : Tries config ctx run w n outcome)
    (hlost : outcome.1 = .error preempted) :
    n = config.maxRetries + 1 ∧ LosesAll config ctx run w := by
  cases h with
  | settled _ _ heq => exact absurd hlost (heq ▸ hrun _)
  | exhausted hloses hlast => exact ⟨rfl, _, _, _, hloses, hlast⟩
  | stopped _ _ _ _ hcancelled =>
      cases hlost
      cases hcancelled

-- A run that has lost some races goes on with the attempts that are left.
theorem tries_of_retrying {left : Nat} (hleft : n + left = config.maxRetries)
    (h : Loses config ctx run w n w₁) :
    ∃ m, Tries config ctx run w m (retrying config ctx run left w₁) := by
  induction left generalizing n w₁ with
  | zero =>
      obtain rfl : n = config.maxRetries := hleft
      rw [retrying, Action.tryCatch_eq]
      rcases hrun : run w₁ with ⟨e | a, w₂⟩
      · simp only
        split
        · next hretry =>
          cases e with
          | writeConflict key => exact ⟨_, .exhausted h hrun⟩
          | _ => cases hretry
        · next hretry =>
          refine ⟨_, .settled (Nat.le_refl _) h hrun fun key hkey => ?_⟩
          cases hkey
          exact hretry rfl
      · exact ⟨_, .settled (Nat.le_refl _) h hrun fun _ hkey => by cases hkey⟩
  | succ left ih =>
      have hattempt : config.maxRetries - (left + 1) = n := by omega
      have hlt : n < config.maxRetries := by omega
      rw [retrying, Action.tryCatch_eq]
      rcases hrun : run w₁ with ⟨e | a, w₂⟩
      · simp only [hattempt]
        split
        · next hretry =>
          cases e with
          | writeConflict key =>
              rw [Action.bind_eq]
              rcases hwait : Action.backoff ctx (Time.ofMillis (config.longestDelay n)) w₂ with
                ⟨e | _, w₃⟩
              · exact ⟨_, .stopped hlt h hrun hwait
                  (Signal.isCancelled_of_check (congrArg Prod.fst hwait))⟩
              · exact ih (by omega) (.again h hrun hwait)
          | _ => cases hretry
        · next hretry =>
          refine ⟨_, .settled (Nat.le_of_lt hlt) h hrun fun key hkey => ?_⟩
          cases hkey
          exact hretry rfl
      · exact ⟨_, .settled (Nat.le_of_lt hlt) h hrun fun _ hkey => by cases hkey⟩

-- How an operation comes to its answer: it is refused before there is any attempt, or a number of
-- attempts come to it.
inductive Told (prepare : Action σ β) (config : RetryConfig) (ctx : Context)
    (run : β → Action σ α) (answer : α → Document) (w : World σ) :
    Nat → Except Error Document → Prop where
  | refused {e : Error} {w₁ : World σ} : prepare w = (.error e, w₁) → e.isConflict = false →
    Told prepare config ctx run answer w 0 (.error e)
  | attempted {b : β} {w₁ : World σ} {n : Nat} {outcome : Except Error α × World σ} :
    prepare w = (.ok b, w₁) → Tries config ctx (run b) w₁ n outcome →
    Told prepare config ctx run answer w n (outcome.1.map answer)

-- An operation has as many attempts as it may have at most, is told that it has lost only after it
-- has lost all of them, and never hears of a single race that it has lost.
structure Bounded (prepare : Action σ β) (config : RetryConfig) (ctx : Context)
    (run : β → Action σ α) (answer : α → Document) (w : World σ) (result : Except Error Document) :
    Prop where
  told : ∃ n ≤ config.maxRetries + 1, Told prepare config ctx run answer w n result
  exhausted : result = .error preempted →
    ∃ b w₁, prepare w = (.ok b, w₁) ∧ LosesAll config ctx (run b) w₁
  unleaked : ∀ key, result ≠ .error (.writeConflict key)

theorem bounded_of_retrying {prepare : Action σ β} {run : β → Action σ α} {answer : α → Document}
    {finish : β → Action σ Document} (hprepare : prepare.Peaceful)
    (hrun : ∀ b w, (run b w).1 ≠ .error preempted)
    (hfinish : ∀ b w, (finish b w).1 =
      (retrying config ctx (run b) config.maxRetries w).1.map answer) :
    Bounded prepare config ctx run answer w ((prepare >>= finish) w).1 := by
  have hrefuses := hprepare w
  rw [Action.bind_eq]
  rcases hprepared : prepare w with ⟨e | b, w₁⟩
  · rw [hprepared] at hrefuses
    have hmild := hrefuses e rfl
    refine ⟨⟨0, Nat.zero_le _, .refused hprepared hmild⟩, fun hlost => ?_, fun key hkey => ?_⟩
    · cases hlost
      cases hmild
    · cases hkey
      cases hmild
  · obtain ⟨n, htries⟩ : ∃ n, Tries config ctx (run b) w₁ n
        (retrying config ctx (run b) config.maxRetries w₁) :=
      tries_of_retrying (Nat.zero_add _) .none
    simp only [hfinish]
    refine ⟨⟨n, htries.le, .attempted hprepared htries⟩, fun hlost => ?_, fun key hkey => ?_⟩
    · exact ⟨b, w₁, hprepared, (htries.losesAll (hrun b) (error_of_map hlost)).2⟩
    · exact htries.not_writeConflict key (error_of_map hkey)

end Races

section Writers

variable (commit : Handle → Action σ Unit) (store : Store σ) (ctx : Context)

-- One attempt to write a document, or to delete one.
def putOnceVia (model : Model) (doc : Document) : Action σ WriteOutcome :=
  transactVia commit store.host ctx (Job.put store.config.encoding ctx model doc).openKv
    (putAttempt store.config.encoding ctx model doc doc.version)
    (fun outcome => (Job.changeOfPut outcome).isSome)

def deleteOnceVia (target : Model) (model id : String) : Action σ Document :=
  transactVia commit store.host ctx (Job.delete ctx target model id).openKv
    (deleteAttempt ctx target model id) (fun _ => true)

-- A writer that names a version has one attempt only.
def retries (doc : Document) : RetryConfig :=
  if doc.version.isSome then .single else store.config.retry

def putVia (doc : Document) : Action σ Document := do
  let (prepared, model) ← accept store ctx doc
  let outcome ← tryCatch (retrying (store.retries doc) ctx (putOnceVia commit store ctx model doc)
    (store.retries doc).maxRetries) (fun e => do
      discard store prepared
      throw e)
  conclude store model prepared outcome

def deleteVia (model id : String) : Action σ Document := do
  let target ← locate ctx model id
  let old ← retrying store.config.retry ctx (deleteOnceVia commit store ctx target model id)
    store.config.retry.maxRetries
  withdraw store target model id old

theorem put_eq_via (doc : Document) :
    put store ctx doc = putVia (Store.commit ctx) store ctx doc := by
  have hwrite : ∀ model, write store ctx model doc = retrying (store.retries doc) ctx
      (putOnceVia (Store.commit ctx) store ctx model doc) (store.retries doc).maxRetries := by
    intro model
    rw [write_eq, retries]
    split <;> rfl
  simp only [put_eq, hwrite]
  rfl

theorem delete_eq_via (model id : String) :
    delete store ctx model id = deleteVia (Store.commit ctx) store ctx model id :=
  delete_eq store ctx model id

variable {commit store ctx}

theorem bounded_put (hcommit : Commits commit) (doc : Document) (w : World σ) :
    Bounded (accept store ctx doc) (store.retries doc) ctx
      (fun b => putOnceVia commit store ctx b.2 doc) WriteOutcome.document w
      (putVia commit store ctx doc w).1 := by
  refine bounded_of_retrying (peaceful_accept ctx doc)
    (fun b w => transactVia_not_preempted hcommit (putAttempt_failsWith _ _ _ _ _)) (fun b w => ?_)
  exact answer_as_written store _ b.2 b.1 w

theorem bounded_delete (hcommit : Commits commit) (model id : String) (w : World σ) :
    Bounded (locate ctx model id) store.config.retry ctx
      (fun target => deleteOnceVia commit store ctx target model id) (fun old => old) w
      (deleteVia commit store ctx model id w).1 := by
  refine bounded_of_retrying (peaceful_locate ctx model id)
    (fun b w => transactVia_not_preempted hcommit (deleteAttempt_failsWith _ _ _ _)) (fun b w => ?_)
  rw [Action.bind_eq]
  generalize retrying store.config.retry ctx (deleteOnceVia commit store ctx b model id)
    store.config.retry.maxRetries w = outcome
  obtain ⟨e | old, w₁⟩ := outcome
  · rfl
  · exact returns_withdraw b model id old w₁

theorem anew_put (model : Model) (doc : Document) :
    Anew ctx (.put store.config.encoding ctx model doc) WriteOutcome.found
      (putOnceVia commit store ctx model doc) := by
  refine anew_transactVia (putAttempt_failsWith _ _ _ _ _) (fun d outcome d' h => ?_)
  obtain ⟨old, val, hread, -, hcomes⟩ := comes_of_putAttempt h
  refine hread.trans (congrArg Except.ok ?_)
  cases outcome with
  | unchanged stored => exact hcomes.1
  | written before new => exact hcomes.1.symm

theorem anew_delete (target : Model) (model id : String) :
    Anew ctx (.delete ctx target model id) some
      (deleteOnceVia commit store ctx target model id) := by
  refine anew_transactVia (deleteAttempt_failsWith _ _ _ _) (fun d old d' h => ?_)
  obtain ⟨stored, d₁, hread, h⟩ := Attempt.ok_of_bind h
  rw [Attempt.perform_read] at hread
  refine (Prod.mk.inj hread).1.trans (congrArg Except.ok ?_)
  cases stored with
  | none => cases h
  | some stored =>
      have hrest : ∀ d₁, Attempt.perform store.host (do
          let _ ← Attempt.validate ctx target.reactors (some stored) none
          Attempt.write (← Attempt.read ctx (fun view => Index.remove view target stored))
          Attempt.write [(Key.document model id, none)]
          return stored) d₁ = (.ok old, d') → some stored = some old := by
        intro d₁ h
        obtain ⟨_, _, -, h⟩ := Attempt.ok_of_bind h
        obtain ⟨_, _, -, h⟩ := Attempt.ok_of_bind h
        obtain ⟨_, _, -, h⟩ := Attempt.ok_of_bind h
        obtain ⟨_, _, -, h⟩ := Attempt.ok_of_bind h
        cases h
        rfl
      simp only at h
      split at h
      · obtain ⟨_, d₂, -, h⟩ := Attempt.ok_of_bind h
        exact hrest d₂ h
      · exact hrest d₁ h

-- Whatever comes of the commits, writers have a limited number of attempts, each of them reads the
-- stored document in a transaction of its own, and nobody who asks the store for anything is told
-- of a write conflict.
theorem retries_bounded (hcommit : Commits commit) (store : Store σ) (ctx : Context) (w : World σ) :
    (∀ doc, put store ctx doc = putVia (Store.commit ctx) store ctx doc ∧
        Bounded (accept store ctx doc) (store.retries doc) ctx
          (fun b => putOnceVia commit store ctx b.2 doc) WriteOutcome.document w
          (putVia commit store ctx doc w).1) ∧
      (∀ model id, delete store ctx model id = deleteVia (Store.commit ctx) store ctx model id ∧
        Bounded (locate ctx model id) store.config.retry ctx
          (fun target => deleteOnceVia commit store ctx target model id) (fun old => old) w
          (deleteVia commit store ctx model id w).1) ∧
      (∀ model doc, Anew ctx (.put store.config.encoding ctx model doc) WriteOutcome.found
        (putOnceVia commit store ctx model doc)) ∧
      (∀ target model id, Anew ctx (.delete ctx target model id) some
        (deleteOnceVia commit store ctx target model id)) ∧
      ∀ key, (∀ model id, (get ctx model id w).1 ≠ .error (.writeConflict key)) ∧
        (∀ request, (search store ctx request w).1 ≠ .error (.writeConflict key)) ∧
        ∀ text params, (query store ctx text params w).1 ≠ .error (.writeConflict key) := by
  have hpeaceful : ∀ {γ : Type} {a : Action σ γ}, a.Peaceful → ∀ key,
      (a w).1 ≠ .error (.writeConflict key) := by
    intro γ a ha key h
    cases ha w _ h
  refine ⟨fun doc => ⟨put_eq_via store ctx doc, bounded_put hcommit doc w⟩,
    fun model id => ⟨delete_eq_via store ctx model id, bounded_delete hcommit model id w⟩,
    anew_put, anew_delete, fun key => ⟨fun model id => ?_, fun request => ?_, fun text params => ?_⟩⟩
  · exact hpeaceful (peaceful_get ctx model id) key
  · exact hpeaceful (peaceful_search ctx request) key
  · exact hpeaceful (peaceful_query ctx text params) key

end Writers

namespace Rivalry

-- Somebody else is always faster.
def rival (h : Handle) : Action Unit Unit := do
  rollback h
  throw (.writeConflict (Key.document "Model" "com.ex.Book"))

end Rivalry

-- A stored model cannot be deleted where somebody else is always faster.
theorem preempted_of_rivalry :
    Commits Rivalry.rival ∧
      (deleteVia Rivalry.rival Reservation.store .background "Model" "com.ex.Book"
        Reservation.world).1 = .error preempted ∧
      ∃ target w, locate .background "Model" "com.ex.Book" Reservation.world = (.ok target, w) ∧
        LosesAll .single .background
          (deleteOnceVia Rivalry.rival Reservation.store .background target "Model" "com.ex.Book")
          w := by
  have hcommit : Commits Rivalry.rival := by
    intro h w e he
    obtain rfl : Error.writeConflict (Key.document "Model" "com.ex.Book") = e :=
      Except.error.inj he
    exact .inl rfl
  have hlost : (deleteVia Rivalry.rival Reservation.store .background "Model" "com.ex.Book"
      Reservation.world).1 = .error preempted := by cbv
  obtain ⟨-, hdelete, -⟩ := retries_bounded hcommit Reservation.store .background Reservation.world
  exact ⟨hcommit, hlost, (hdelete "Model" "com.ex.Book").2.exhausted hlost⟩

end Store

end DocStore
