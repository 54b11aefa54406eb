import DocStore.Proofs.Store.Alone
import DocStore.Proofs.Store.Documents
import DocStore.Store

-- Transactions of a store, one after the other. Each leaves what is stored as it was, or makes one
-- change.
namespace DocStore

namespace Office

variable {kind : BackendKind} {x y : Office}

theorem Leads.sound (h : Leads x y) (hx : x.Sound kind) : y.Sound kind := by
  obtain ⟨events, rfl⟩ := h
  induction events using List.reverseRecOn with
  | nil => exact hx
  | append_singleton events event ih =>
      rw [List.foldl_append]
      exact ih.step event

theorem Leads.commits (h : Leads x y) : x.course.chronicle.log <+: y.course.chronicle.log := by
  obtain ⟨events, rfl⟩ := h
  induction events using List.reverseRecOn with
  | nil => exact List.prefix_rfl
  | append_singleton events event ih =>
      rw [List.foldl_append]
      exact ih.trans (commits_step _ event)

-- Without a new change, the same is committed.
theorem Leads.current_eq (h : Leads x y) (hx : x.Sound kind) (hlog : y.log = x.log) :
    y.current = x.current := by
  have hy := (h.sound hx).booked.length_eq
  rw [hlog, hx.booked.length_eq] at hy
  rw [current, current, h.commits.eq_of_length hy]

theorem Leads.turns (h : Leads x y) (hx : x.Sound kind) {e : Entry} (hlog : y.log = x.log ++ [e]) :
    e.Turns x.current y.current :=
  hx.booked.turns_last h.commits (hlog ▸ (h.sound hx).booked)

end Office

-- The changes that a store has been through, and what they have left. Other writers may be at work
-- on it.
def Kv.Holds (kv : Kv) (log : List Entry) (map : SortedMap Bytes Bytes) : Prop :=
  ∃ kind x, Office.Sound kind x ∧ x.course.session.kv = kv ∧ x.log = log ∧ x.current = map

-- A transaction has left a change, or everything as it was.
def Kv.HoldsAfter (kv : Kv) (log : List Entry) (map : SortedMap Bytes Bytes) (job : Job) :
    Option Change → Prop
  | none => kv.Holds log map
  | some change => ∃ answer after, Entry.Turns ⟨job, answer, change⟩ map after ∧
    kv.Holds (log ++ [⟨job, answer, change⟩]) after

namespace Kv.Holds

variable {kv : Kv} {log : List Entry} {map : SortedMap Bytes Bytes}

theorem new (kind : BackendKind) : (Kv.new kind).Holds [] SortedMap.empty :=
  ⟨kind, Office.start kind, .start, rfl, rfl, rfl⟩

theorem recorded (h : kv.Holds log map) : Recorded log map := by
  obtain ⟨kind, x, hx, -, rfl, rfl⟩ := h
  exact hx.recorded

-- A reader that opens sees what the store holds.
theorem reads (h : kv.Holds log map) : kv.read.2.Sees kv.read.1 map SortedMap.empty := by
  obtain ⟨kind, x, hx, rfl, rfl, rfl⟩ := h
  exact hx.faithful.reads

theorem get_now (h : kv.Holds log map) (key : Bytes) : kv.now.get key = .ok (map.get? key) := by
  rw [Kv.now, Kv.view]
  exact h.reads.get .go key

-- It makes no difference that somebody has read.
theorem read_close (h : kv.Holds log map) : (kv.read.2.close kv.read.1).2.Holds log map := by
  obtain ⟨kind, x, hx, rfl, rfl, rfl⟩ := h
  let n := x.course.session.seats.length
  have hleads : x.Leads ((x.call .read).leave n) :=
    ((Office.Leads.refl x).step (.look .read)).step (.leave n)
  refine ⟨kind, _, hleads.sound hx, ?_, rfl, hleads.current_eq hx rfl⟩
  simp [n, Office.leave, Office.call, Course.step, Session.exec, Session.receive]

end Kv.Holds

namespace Kv.Sees

variable {kv : Kv} {h h' : Handle} {below : SortedMap Bytes Bytes}
  {writes : SortedMap Bytes (Option Bytes)}

theorem buffer (hs : kv.Sees h below writes) (hw : h.Writes) {key : Bytes} {value : Option Bytes}
    (hbuffer : Kv.buffer h key value = .ok h') : kv.Sees h' below (writes.insert key value) := by
  obtain ⟨husable, rfl, hbelow, hscan⟩ := hs
  cases h with
  | multiRead | singleRead => cases hw
  | multiWrite txn finished =>
      have hactive : txn.isActive = true := hw
      simp only [Kv.buffer, Txn.write, Txn.ensureActive, hactive, ite_true] at hbuffer
      cases hbuffer
      refine ⟨husable, rfl, fun key => ?_, fun range limit => ?_⟩
      · rw [← hbelow key]
        cases kv <;> rfl
      · rw [← hscan range limit]
        cases kv <;> rfl
  | singleWrite buffered isOpen =>
      obtain rfl : isOpen = true := hw
      cases hbuffer
      refine ⟨husable, rfl, fun key => ?_, fun range limit => ?_⟩
      · rw [← hbelow key]
        cases kv <;> rfl
      · rw [← hscan range limit]
        cases kv <;> rfl

theorem bufferAll (hs : kv.Sees h below writes) (hw : h.Writes) (batch : List Write) :
    ∃ h', Kv.bufferAll h batch = .ok h' ∧ h'.Writes ∧
      kv.Sees h' below (writes.insertAll batch) := by
  induction batch generalizing h writes with
  | nil => exact ⟨h, rfl, hw, hs⟩
  | cons w rest ih =>
      obtain ⟨next, hbuffer, hnext⟩ := Kv.buffer_of_writes hw w.1 w.2
      obtain ⟨last, hall, hlast, hsees⟩ := ih (hs.buffer hw hbuffer) hnext
      refine ⟨last, ?_, hlast, hsees⟩
      simp only [Kv.bufferAll, List.foldlM_cons, hbuffer]
      exact hall

end Kv.Sees

-- What reactors have against a change is no conflict.
theorem Registry.isConflict_of_validate {σ : Type} (host : Host σ) (r : Registry) (ctx : Context)
    (old : Option Document) (reactors : List String) (new : Option Document) (site : Site σ) :
    ∀ e, (r.validate host ctx old reactors new site).1 = .error e → e.isConflict = false := by
  induction reactors generalizing new site with
  | nil => exact fun e h => by cases h
  | cons id rest ih =>
      intro e h
      simp only [validate] at h
      split at h
      · exact ih new site e h
      · split at h
        · exact ih _ _ e h
        · next error _ _ =>
          obtain rfl : rejection id error = e := Except.error.inj h
          unfold rejection
          split
          · next hcancelled => exact Error.isConflict_of_isCancelled hcancelled
          · rfl

namespace Attempt.Ensures

variable {σ α : Type} {host : Host σ} {a : Attempt α} {base : SortedMap Bytes Bytes}
  {writes : SortedMap Bytes (Option Bytes)} {verdict : Option (Option Document)}
  {post : SortedMap Bytes (Option Bytes) → Option (Option Document) → α → Prop}
  {fault : Error → Prop} {d : Draft σ}

-- What an attempt ensures comes true when the store does it in one go.
theorem perform (hspares : host.Spares) (h : a.Ensures base post fault writes verdict)
    (hs : d.world.site.kv.Sees d.handle base writes) (hw : d.handle.Writes)
    (hmild : ∀ e, e.isConflict = false → fault e) :
    (∀ x, (a.perform host d).1 = .ok x → ∃ writes verdict, post writes verdict x) ∧
      ∀ e, (a.perform host d).1 = .error e → fault e := by
  induction a generalizing writes verdict d with
  | done result =>
      obtain ⟨hgood, hbad⟩ := (ensures_done result).mp h
      exact ⟨fun x hx => ⟨writes, verdict, hgood x hx⟩, hbad⟩
  | reading ctx next ih => exact ih _ (h _ (hs.shows _)) hs hw
  | writing batch next ih =>
      obtain ⟨handle, hall, hwrites, hsees⟩ := hs.bufferAll hw batch
      simp only [Attempt.perform, hall]
      exact ih h hsees hwrites
  | validating ctx reactors old new next ih =>
      have hkv := d.world.registry.kv_validate hspares ctx old reactors new d.world.site
      have hreject :=
        d.world.registry.isConflict_of_validate host ctx old reactors new d.world.site
      -- without reactors there is nobody to say anything else
      have hnone : reactors = [] →
          (d.world.registry.validate host ctx old reactors new d.world.site).1 = .ok new := by
        rintro rfl
        rfl
      simp only [Attempt.perform]
      generalize d.world.registry.validate host ctx old reactors new d.world.site = outcome
        at hkv hreject hnone
      obtain ⟨answer | answer, site⟩ := outcome
      · refine ⟨fun x hx => ?_, fun e he => ?_⟩
        · cases hx
        · cases he
          exact hmild _ (hreject _ rfl)
      · refine ih answer (h answer (fun hnil => ?_)) ?_ hw
        · exact Except.ok.inj (hnone hnil)
        · rw [show site.kv = d.world.site.kv from hkv]
          exact hs
  | timing next ih => exact ih _ (h _) hs hw

end Attempt.Ensures

theorem Context.isCancelled_giveUp (ctx : Context) (now : Time) :
    (ctx.giveUp now).1.isCancelled = true := by
  unfold giveUp
  split
  · simp only
    split <;> rfl
  · rfl

theorem Action.tryCatch_eq {σ α : Type} (m : Action σ α) (handle : Error → Action σ α)
    (w : World σ) : (tryCatch m handle) w = match m w with
      | (.ok a, w) => (.ok a, w)
      | (.error e, w) => handle e w := by
  show ExceptT.tryCatch m handle w = _
  simp only [ExceptT.tryCatch, ExceptT.mk, bind, StateT.bind]
  split
  · next result w' heq =>
    rw [heq]
    cases result <;> rfl

-- A writer that cannot open has waited in vain, or its context is over.
theorem Job.isCancelled_of_openKv {job : Job} {kv kv' : Kv} {signal : Signal} {stop e : Error}
    (hstop : stop.isCancelled = true) (h : job.openKv kv signal stop = (.error e, kv')) :
    e.isCancelled = true := by
  have hwrite : ∀ kv : Kv, kv.write signal stop = (.error e, kv') → e.isCancelled = true := by
    intro kv h
    unfold Kv.write at h
    split at h
    · next hcheck =>
      cases h
      exact Signal.isCancelled_of_check hcheck
    · cases kv with
      | multi kv => cases h
      | single kv =>
          simp only at h
          split at h <;> cases h
          exact hstop
  have hexclusive : ∀ keys, kv.writeExclusive signal stop keys = (.error e, kv') →
      e.isCancelled = true := by
    intro keys h
    cases kv with
    | single kv => exact hwrite (.single kv) h
    | multi kv =>
        simp only [Kv.writeExclusive, TxnManager.beginExclusive] at h
        split at h
        · cases h
        · next heq =>
          split at heq
          · next hcheck =>
            cases heq
            cases h
            exact Signal.isCancelled_of_check hcheck
          · split at heq <;> cases heq
            cases h
            exact hstop
  cases job with
  | delete ctx target model id => exact hwrite kv h
  | put encoding ctx model doc =>
      simp only [openKv] at h
      split at h
      · exact hexclusive _ h
      · exact hwrite kv h

-- A commit that fails has lost a race, or had no chance to succeed.
theorem Kv.isConflict_of_commit {kv : Kv} {h : Handle} {signal : Signal} {e : Error}
    (he : (kv.commit h signal).1 = .error e) : e.isRetryable = true ∨ e.isConflict = false := by
  have hsignal : ∀ {e : Error}, signal.check = .error e → e.isConflict = false :=
    fun hcheck => Error.isConflict_of_isCancelled (Signal.isCancelled_of_check hcheck)
  cases kv with
  | single kv =>
      cases h with
      | multiRead | multiWrite | singleRead =>
          cases he
          exact .inr rfl
      | singleWrite writes isOpen =>
          simp only [commit] at he
          split at he
          · cases he
            exact .inr rfl
          · split at he
            · next hcheck =>
              cases he
              exact .inr (hsignal hcheck)
            · cases he
  | multi kv =>
      cases h with
      | multiRead | singleRead | singleWrite =>
          cases he
          exact .inr rfl
      | multiWrite txn finished =>
          simp only [commit] at he
          split at he
          · next hcheck =>
            cases he
            exact .inr (hsignal hcheck)
          · split at he
            · next failure _ =>
              obtain rfl : failure.toError = e := Except.error.inj he
              cases failure with
              | notActive detail => exact .inr rfl
              | conflicts found =>
                  cases found with
                  | nil => exact .inr rfl
                  | cons first rest => exact .inl rfl
            · cases he
            · cases he

namespace Store

variable {σ α : Type} {log : List Entry} {map : SortedMap Bytes Bytes} {job : Job}
  {changeOf : α → Option Change} {good : α → Prop} {bad : Error → Prop}

-- How it ends when a store has done some work on a job: with a change at most if it succeeds, and
-- with none if it fails.
def Ends (log : List Entry) (map : SortedMap Bytes Bytes) (job : Job)
    (changeOf : α → Option Change) (good : α → Prop) (bad : Error → Prop) :
    Except Error α × World σ → Prop
  | (.ok a, w) => good a ∧ w.site.kv.HoldsAfter log map job (changeOf a)
  | (.error e, w) => bad e ∧ w.site.kv.Holds log map

theorem transact_ends {host : Host σ} (hspares : host.Spares) (ctx : Context) {body : Attempt α}
    (hbody : job.attempt = body.bind (fun a => .done (.ok (changeOf a))))
    {post : SortedMap Bytes (Option Bytes) → Option (Option Document) → α → Prop}
    (hensures : body.Ensures map post bad SortedMap.empty none)
    (hmild : ∀ e, e.isConflict = false → bad e) {w : World σ} (hw : w.site.kv.Holds log map) :
    Ends log map job changeOf (fun a => ∃ writes verdict, post writes verdict a)
      (fun e => bad e ∨ e.isRetryable = true)
      (transact host ctx job.openKv body (fun a => (changeOf a).isSome) w) := by
  obtain ⟨kind, x, hx, hkv, rfl, rfl⟩ := hw
  have hresult : (∀ a, (transact host ctx job.openKv body (fun a => (changeOf a).isSome) w).1 =
        .ok a → ∃ writes verdict, post writes verdict a) ∧
      ∀ e, (transact host ctx job.openKv body (fun a => (changeOf a).isSome) w).1 = .error e →
        bad e ∨ e.isRetryable = true := by
    rw [transact_eq]
    rcases hopen : job.openKv w.site.kv (w.signal ctx) (ctx.giveUp w.site.now).1 with ⟨e | h, kv⟩
    · refine ⟨fun a ha => ?_, fun e he => ?_⟩
      · cases ha
      · cases he
        have hover := Job.isCancelled_of_openKv (ctx.isCancelled_giveUp _) hopen
        exact .inl (hmild _ (Error.isConflict_of_isCancelled hover))
    · have hsees : kv.Sees h x.current SortedMap.empty :=
        hx.opened (by rw [job.exec_opening, hkv, hopen])
      obtain ⟨hgood, hbad⟩ := Attempt.Ensures.perform (d := ⟨h, (w.withKv kv).pass 0⟩) hspares
        hensures hsees (Job.writes_of_open hopen) hmild
      simp only
      generalize body.perform host ⟨h, (w.withKv kv).pass 0⟩ = outcome at hgood hbad
      obtain ⟨e | a, d⟩ := outcome
      · exact ⟨fun a ha => (nomatch ha), fun e' he => .inl (hbad e' he)⟩
      · simp only
        split
        · rcases hcommit : d.world.site.kv.commit d.handle (d.world.signal ctx) with ⟨e | _, _, kv⟩
          · refine ⟨fun a ha => (nomatch ha), fun e' he => ?_⟩
            cases he
            exact (Kv.isConflict_of_commit (congrArg Prod.fst hcommit)).symm.imp_left (hmild _)
          · exact ⟨hgood, fun e he => nomatch he⟩
        · exact ⟨hgood, fun e he => nomatch he⟩
  obtain ⟨y, answer, hleads, hykv, hlog⟩ := Office.transact_alone hspares ctx hbody w hkv
  have hy := hleads.sound hx
  generalize transact host ctx job.openKv body (fun a => (changeOf a).isSome) w = outcome
    at hresult hykv hlog
  obtain ⟨e | a, w'⟩ := outcome
  · have hsame : y.log = x.log := by simpa using hlog
    exact ⟨hresult.2 e rfl, kind, y, hy, hykv, hsame, hleads.current_eq hx hsame⟩
  · refine ⟨hresult.1 a rfl, ?_⟩
    cases hchange : changeOf a with
    | none =>
        have hsame : y.log = x.log := by simpa [hchange] using hlog
        exact ⟨kind, y, hy, hykv, hsame, hleads.current_eq hx hsame⟩
    | some change =>
        have hadded : y.log = x.log ++ [⟨job, answer, change⟩] := by simpa [hchange] using hlog
        exact ⟨answer, y.current, hleads.turns hx hadded, kind, y, hy, hykv, hadded, rfl⟩

theorem Ends.imp {weaker : α → Prop} {worse : Error → Prop} {outcome : Except Error α × World σ}
    (h : Ends log map job changeOf good bad outcome) (hgood : ∀ a, good a → weaker a)
    (hbad : ∀ e, bad e → worse e) : Ends log map job changeOf weaker worse outcome := by
  obtain ⟨e | a, w⟩ := outcome
  · exact ⟨hbad e h.1, h.2⟩
  · exact ⟨hgood a h.1, h.2⟩

-- A writer that lost all its races is told so.
theorem retrying_ends {run : Action σ α}
    (hrun : ∀ w, w.site.kv.Holds log map →
      Ends log map job changeOf good (fun e => bad e ∨ e.isRetryable = true) (run w))
    (hmild : ∀ e, e.isConflict = false → bad e) (config : RetryConfig) (ctx : Context)
    (left : Nat) {w : World σ} (hw : w.site.kv.Holds log map) :
    Ends log map job changeOf good (fun e => bad e ∨ e = preempted)
      (retrying config ctx run left w) := by
  -- what is no lost race is left as it is
  have hother : ∀ {e : Error}, bad e ∨ e.isRetryable = true → e.isRetryable = false → bad e := by
    rintro e (hbad | hretry) hnot
    · exact hbad
    · rw [hretry] at hnot
      cases hnot
  induction left generalizing w with
  | zero =>
      have hends := hrun w hw
      rw [retrying, Action.tryCatch_eq]
      generalize run w = outcome at hends
      obtain ⟨e | a, w'⟩ := outcome
      · refine ⟨?_, hends.2⟩
        cases hretry : e.isRetryable with
        | true => exact .inr rfl
        | false => exact .inl (hother hends.1 hretry)
      · exact hends
  | succ left ih =>
      have hends := hrun w hw
      rw [retrying, Action.tryCatch_eq]
      generalize run w = outcome at hends
      obtain ⟨e | a, w'⟩ := outcome
      · simp only
        cases hretry : e.isRetryable with
        | true =>
            simp only [ite_true, Action.bind_eq, Action.backoff, Action.ofStep, ExceptT.mk]
            cases hcheck : (ctx.wait w'.site.now
                (Time.ofMillis (config.longestDelay (config.maxRetries - (left + 1))))).1.check with
            | error e' =>
                have hover := Signal.isCancelled_of_check hcheck
                exact ⟨.inl (hmild e' (Error.isConflict_of_isCancelled hover)), hends.2⟩
            | ok _ => exact ih hends.2
        | false => exact ⟨.inl (hother hends.1 hretry), hends.2⟩
      · exact hends

-- The transaction that writes a document.
def writeOnce (store : Store σ) (ctx : Context) (model : Model) (doc : Document) :
    Action σ WriteOutcome :=
  transact store.host ctx (Job.put store.config.encoding ctx model doc).openKv
    (putAttempt store.config.encoding ctx model doc doc.version)
    (fun outcome => (Job.changeOfPut outcome).isSome)

-- It may be run again if no version is named.
theorem write_eq (store : Store σ) (ctx : Context) (model : Model) (doc : Document) :
    write store ctx model doc = retrying store.config.retry ctx (writeOnce store ctx model doc)
      (if doc.version.isSome then 0 else store.config.retry.maxRetries) := by
  unfold write writeOnce
  cases hversion : doc.version with
  | some expected =>
      simp only [Job.openKv_put_some hversion, Option.isSome_some, ite_true, retrying]
      congr 2
      funext outcome
      cases outcome <;> rfl
  | none =>
      simp only [Job.openKv_put_none hversion, Option.isSome_none, Bool.false_eq_true, ite_false]
      congr 2
      funext outcome
      cases outcome <;> rfl

-- What it comes to when a document is written. A writer may be told that others were in its way.
theorem write_ends {store : Store σ} (hspares : store.host.Spares) (ctx : Context) (model : Model)
    (doc : Document) {w : World σ} (hw : w.site.kv.Holds log map) :
    Ends log map (.put store.config.encoding ctx model doc) Job.changeOfPut
      (fun outcome => ∃ writes verdict,
        Puts store.config.encoding ctx model doc map writes verdict outcome)
      (fun e => Refuses map model doc e ∨ e = preempted) (write store ctx model doc w) := by
  rw [write_eq]
  refine retrying_ends (fun w hw => ?_) (fun _ => refuses_of_isConflict) _ ctx _ hw
  exact transact_ends hspares ctx (Job.attempt_put store.config.encoding ctx model doc)
    (putAttempt_ensures store.config.encoding ctx model doc) (fun _ => refuses_of_isConflict) hw

end Store

end DocStore
