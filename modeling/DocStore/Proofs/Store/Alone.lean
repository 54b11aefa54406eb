import DocStore.Proofs.Store.Office

-- What the store does in one transaction is what a writer does in whose way nobody comes.
namespace DocStore

-- What reactors leave alone when they check a change is left alone by all who are asked.
theorem Registry.view_validate {σ γ : Type} {host : Host σ} {view : Site σ → γ}
    (hview : ∀ inst ctx old new site, view (host.validate inst ctx old new site).2 = view site)
    (r : Registry) (ctx : Context) (old : Option Document) (reactors : List String)
    (new : Option Document) (site : Site σ) :
    view (r.validate host ctx old reactors new site).2 = view site := by
  induction reactors generalizing new site with
  | nil => rfl
  | cons id rest ih =>
      simp only [validate]
      cases r.get? id with
      | none => exact ih new site
      | some reactor =>
          have hleft : view (host.validateWith reactor ctx old new site).2 = view site := by
            cases reactor with
            | immutable =>
                simp only [Host.validateWith]
                split <;> rfl
            | started inst => exact hview inst ctx old new site
          simp only
          split
          · next heq =>
            rw [heq] at hleft
            exact (ih _ _).trans hleft
          · next heq =>
            rw [heq] at hleft
            exact hleft

-- Reactors that leave the storage alone when they check a change.
def Host.Spares {σ : Type} (host : Host σ) : Prop :=
  ∀ inst ctx old new site, (host.validate inst ctx old new site).2.kv = site.kv

theorem Registry.kv_validate {σ : Type} {host : Host σ} (hspares : host.Spares) (r : Registry)
    (ctx : Context) (old : Option Document) (reactors : List String) (new : Option Document)
    (site : Site σ) : (r.validate host ctx old reactors new site).2.kv = site.kv :=
  r.view_validate hspares ctx old reactors new site

def Handle.Writes : Handle → Prop
  | .multiWrite txn _ => txn.isActive = true
  | .singleWrite _ isOpen => isOpen = true
  | _ => False

theorem Kv.buffer_of_writes {h : Handle} (hw : h.Writes) (key : Bytes) (value : Option Bytes) :
    ∃ h', Kv.buffer h key value = .ok h' ∧ h'.Writes := by
  cases h with
  | multiRead version closed => cases hw
  | singleRead closed => cases hw
  | multiWrite txn finished =>
      have hactive : txn.isActive = true := hw
      refine ⟨.multiWrite { txn with writes := txn.writes.insert key value } finished, ?_, hactive⟩
      simp [Kv.buffer, Txn.write, Txn.ensureActive, hactive]
  | singleWrite writes isOpen =>
      obtain rfl : isOpen = true := hw
      exact ⟨_, rfl, rfl⟩

theorem Kv.writes_of_write {kv kv' : Kv} {signal : Signal} {stop : Error} {h : Handle}
    (hopen : kv.write signal stop = (.ok h, kv')) : h.Writes := by
  unfold Kv.write at hopen
  split at hopen
  · simp at hopen
  · cases kv with
    | multi kv =>
        simp only [Prod.mk.injEq, Except.ok.injEq] at hopen
        rw [← hopen.1]
        rfl
    | single kv =>
        simp only at hopen
        split at hopen
        · simp at hopen
        · simp only [Prod.mk.injEq, Except.ok.injEq] at hopen
          rw [← hopen.1]
          rfl

theorem Kv.writes_of_writeExclusive {kv kv' : Kv} {signal : Signal} {stop : Error}
    {keys : List Bytes} {h : Handle} (hopen : kv.writeExclusive signal stop keys = (.ok h, kv')) :
    h.Writes := by
  cases kv with
  | single kv => exact Kv.writes_of_write hopen
  | multi kv =>
      simp only [Kv.writeExclusive, TxnManager.beginExclusive] at hopen
      split at hopen
      · next heq =>
        split at heq
        · simp at heq
        · split at heq
          · simp only [Prod.mk.injEq, Except.ok.injEq] at heq hopen
            rw [← hopen.1, ← heq.1]
            rfl
          · simp at heq
      · simp at hopen

namespace Attempt

variable {σ α β : Type}

theorem perform_bind (host : Host σ) (a : Attempt α) (f : α → Attempt β) (d : Draft σ) :
    (a.bind f).perform host d =
      match a.perform host d with
      | (.ok b, d) => (f b).perform host d
      | (.error e, d) => (.error e, d) := by
  induction a generalizing d with
  | done result => cases result <;> rfl
  | reading ctx next ih => exact ih _ _
  | writing writes next ih =>
      simp only [bind, perform]
      cases Kv.bufferAll d.handle writes with
      | ok h => exact ih _
      | error e => rfl
  | validating ctx reactors old new next ih =>
      simp only [bind, perform]
      split
      · next heq => exact ih _ _
      · rfl
  | timing next ih => exact ih _ _

end Attempt

theorem Action.bind_eq {σ α β : Type} (m : Action σ α) (f : α → Action σ β) (w : World σ) :
    (m >>= f) w = match m w with
      | (.ok a, w) => f a w
      | (.error e, w) => (.error e, w) := by
  show ExceptT.bind m f w = _
  simp only [ExceptT.bind, ExceptT.mk, bind, StateT.bind, ExceptT.bindCont]
  split
  · next result w' heq =>
    rw [heq]
    cases result <;> rfl

-- A transaction of the store: a writer is opened, does its work, and is committed or closed.
theorem Store.transact_eq {σ α : Type} (host : Host σ) (ctx : Context)
    (openKv : Kv → Signal → Error → Except Error Handle × Kv) (body : Attempt α)
    (changes : α → Bool) (w : World σ) : transact host ctx openKv body changes w =
      match openKv w.site.kv (w.signal ctx) (ctx.giveUp w.site.now).1 with
      | (.error e, kv) => (.error e, (w.withKv kv).pass (ctx.giveUp w.site.now).2)
      | (.ok h, kv) =>
        match body.perform host ⟨h, (w.withKv kv).pass 0⟩ with
        | (.error e, d) => (.error e, d.world.withKv (d.world.site.kv.close d.handle).2)
        | (.ok a, d) =>
          if changes a then
            match d.world.site.kv.commit d.handle (d.world.signal ctx) with
            | (.error e, _, kv) => (.error e, (d.world.withKv kv).pass 0)
            | (.ok (), _, kv) => (.ok a, (d.world.withKv kv).pass 0)
          else (.ok a, d.world.withKv (d.world.site.kv.close d.handle).2) := by
  rw [transact, Action.bind_eq, openWriter, Action.ofStep]
  simp only [ExceptT.mk]
  rcases openKv w.site.kv (w.signal ctx) (ctx.giveUp w.site.now).1 with ⟨e | h, kv⟩
  · rfl
  · simp only [Action.bind_eq, work, Action.ofStep, ExceptT.mk]
    rcases body.perform host ⟨h, (w.withKv kv).pass 0⟩ with ⟨e | a, d⟩
    · rfl
    · simp only
      cases changes a with
      | false => rfl
      | true =>
          simp only [ite_true, Action.bind_eq, commit, Action.ofStep, ExceptT.mk]
          rcases d.world.site.kv.commit d.handle (d.world.signal ctx) with ⟨e | _, _, kv⟩ <;> rfl

namespace Job

-- How the store opens the writer of a job.
def openKv : Job → Kv → Signal → Error → Except Error Handle × Kv
  | put _ _ _ doc, kv, signal, stop =>
    if doc.version.isSome then kv.writeExclusive signal stop [Key.document doc.model doc.id]
    else kv.write signal stop
  | delete _ _ _ _, kv, signal, stop => kv.write signal stop

theorem openKv_put_none {encoding : Encoding} {ctx : Context} {model : Model} {doc : Document}
    (h : doc.version = none) : (put encoding ctx model doc).openKv = Kv.write := by
  funext kv signal stop
  simp [openKv, h]

theorem openKv_put_some {encoding : Encoding} {ctx : Context} {model : Model} {doc : Document}
    {expected : Nat} (h : doc.version = some expected) : (put encoding ctx model doc).openKv =
      fun kv signal stop => kv.writeExclusive signal stop [Key.document doc.model doc.id] := by
  funext kv signal stop
  simp [openKv, h]

theorem exec_opening (job : Job) (s : Session) (signal : Signal) (stop : Error) :
    s.exec (job.opening signal stop) = s.receive (job.openKv s.kv signal stop) := by
  cases job with
  | put encoding ctx model doc =>
      simp only [opening, openKv]
      split <;> rfl
  | delete ctx target model id => rfl

theorem writes_of_open {job : Job} {kv kv' : Kv} {signal : Signal} {stop : Error} {h : Handle}
    (hopen : job.openKv kv signal stop = (.ok h, kv')) : h.Writes := by
  cases job with
  | delete ctx target model id => exact Kv.writes_of_write hopen
  | put encoding ctx model doc =>
      simp only [openKv] at hopen
      split at hopen
      · exact Kv.writes_of_writeExclusive hopen
      · exact Kv.writes_of_write hopen

def changeOfPut : WriteOutcome → Option Change
  | .unchanged _ => none
  | .written old new => some ⟨old, some new⟩

theorem attempt_put (encoding : Encoding) (ctx : Context) (model : Model) (doc : Document) :
    (put encoding ctx model doc).attempt =
      (Store.putAttempt encoding ctx model doc doc.version).bind
        (fun outcome => .done (.ok (changeOfPut outcome))) := by
  refine congrArg (Attempt.bind _) (funext fun outcome => ?_)
  cases outcome <;> rfl

theorem attempt_delete (ctx : Context) (target : Model) (model id : String) :
    (delete ctx target model id).attempt = (Store.deleteAttempt ctx target model id).bind
      (fun old => .done (.ok (some ⟨some old, none⟩))) := rfl

end Job

namespace Office

variable {σ : Type} {x y z : Office} {n : Nat}

inductive Goes (n : Nat) : Office → Office → Prop where
  | stay (x : Office) : Goes n x x
  | go {x y : Office} (signal : Signal) (verdict : Except Error (Option Document))
    (now : Timestamp) : Goes n (x.work n signal verdict now) y → Goes n x y

theorem Goes.trans (h : Goes n x y) (h' : Goes n y z) : Goes n x z := by
  induction h with
  | stay => exact h'
  | go signal verdict now _ ih => exact .go signal verdict now (ih h')

theorem Goes.log_eq (h : Goes n x y) : y.log = x.log := by
  induction h with
  | stay => rfl
  | go signal verdict now _ ih => rw [ih, log_work]

-- Something happens.
def Leads (x y : Office) : Prop := ∃ events : List Event, y = events.foldl step x

theorem Leads.refl (x : Office) : Leads x x := ⟨[], rfl⟩

theorem Leads.trans (h : Leads x y) (h' : Leads y z) : Leads x z := by
  obtain ⟨events, rfl⟩ := h
  obtain ⟨more, rfl⟩ := h'
  exact ⟨events ++ more, List.foldl_append.symm⟩

theorem Leads.step (h : Leads x y) (event : Event) : Leads x (y.step event) :=
  h.trans ⟨[event], rfl⟩

theorem Goes.leads (h : Goes n x y) : Leads x y := by
  induction h with
  | stay x => exact .refl x
  | @go x _ signal verdict now _ ih =>
      exact ((Leads.refl x).step (.work n signal verdict now)).trans ih

-- A writer has a draft in hand, and some work before it.
structure At (x : Office) (n : Nat) (job : Job) (rest : Attempt (Option Change)) (d : Draft σ) :
    Prop where
  writer : ∃ w, x.writers.get? n = some w ∧ w.job = job ∧ w.rest = rest
  seat : ∃ iters, x.course.session.seats[n]? = some ⟨d.handle, iters⟩
  kv : x.course.session.kv = d.world.site.kv
  writes : d.handle.Writes

namespace At

variable {job : Job} {rest next : Attempt (Option Change)} {d : Draft σ}

theorem proceed (h : x.At n job rest d) (w : Writer) (hjob : w.job = job) (world : World σ)
    (hkv : world.site.kv = d.world.site.kv) :
    (x.proceed n w next).At n job next { d with world := world } where
  writer := ⟨{ w with rest := next }, by simp [Office.proceed, SortedMap.get?_insert], hjob, rfl⟩
  seat := h.seat
  kv := h.kv.trans hkv.symm
  writes := h.writes

theorem view (h : x.At n job rest d) (signal : Signal) :
    x.course.session.view n signal = d.world.site.kv.view d.handle signal := by
  obtain ⟨iters, hseat⟩ := h.seat
  simp only [Session.view, hseat, h.kv]

theorem buffer {key : Bytes} {value : Option Bytes} {batch : List Write}
    (h : x.At n job (.writing ((key, value) :: batch) next) d) :
    ∃ handle y, Kv.buffer d.handle key value = .ok handle ∧ Goes n x y ∧
      y.At n job (.writing batch next) { d with handle := handle } := by
  obtain ⟨w, hw, hjob, hrest⟩ := h.writer
  obtain ⟨iters, hseat⟩ := h.seat
  obtain ⟨handle, hbuffer, hwrites⟩ := Kv.buffer_of_writes h.writes key value
  have hexec : x.course.session.exec (.buffer n key value) = (.done (.ok ()),
      { x.course.session with seats := x.course.session.seats.set n ⟨handle, []⟩ }) := by
    simp only [Session.exec, hseat, hbuffer]
  have hwork : x.work n .go (.ok none) default =
      (x.call (.buffer n key value)).proceed n w (.writing batch next) := by
    simp only [Office.work, hw, hrest, hexec]
  refine ⟨handle, _, hbuffer, .go .go (.ok none) default (.stay _), ?_⟩
  rw [hwork]
  constructor
  case writer =>
    refine ⟨{ w with rest := .writing batch next }, ?_, hjob, rfl⟩
    simp [Office.proceed, Office.call, SortedMap.get?_insert]
  case seat =>
    obtain ⟨hlt, -⟩ := List.getElem?_eq_some_iff.mp hseat
    refine ⟨[], ?_⟩
    simp only [Office.proceed, Office.call, Course.step, hexec]
    simp [hlt]
  case kv =>
    simp only [Office.proceed, Office.call, Course.step, hexec]
    exact h.kv
  case writes => exact hwrites

theorem bufferAll {writes : List Write} (h : x.At n job (.writing writes next) d) :
    ∃ handle y, Kv.bufferAll d.handle writes = .ok handle ∧ Goes n x y ∧
      y.At n job next { d with handle := handle } := by
  induction writes generalizing x d with
  | nil =>
      obtain ⟨w, hw, hjob, hrest⟩ := h.writer
      have hwork : x.work n .go (.ok none) default = x.proceed n w next := by
        simp only [Office.work, hw, hrest]
      refine ⟨d.handle, _, rfl, .go .go (.ok none) default (.stay _), ?_⟩
      rw [hwork]
      exact h.proceed w hjob d.world rfl
  | cons head batch ih =>
      obtain ⟨handle, y, hbuffer, hgoes, hy⟩ := h.buffer
      obtain ⟨last, z, hall, hgoes', hz⟩ := ih hy
      refine ⟨last, z, ?_, hgoes.trans hgoes', hz⟩
      simp only [Kv.bufferAll, List.foldlM_cons, hbuffer]
      exact hall

-- A writer that nobody disturbs does its work as the store does it.
theorem perform {host : Host σ} (hspares : host.Spares) (h : x.At n job rest d) :
    ∃ y, Goes n x y ∧
      y.At n job (.done (rest.perform host d).1) (rest.perform host d).2 := by
  induction rest generalizing x d with
  | done result => exact ⟨x, .stay x, h⟩
  | reading ctx next ih =>
      obtain ⟨w, hw, hjob, hrest⟩ := h.writer
      let signal := d.world.signal ctx
      have hwork : x.work n signal (.ok none) default =
          x.proceed n w (next (d.world.site.kv.view d.handle signal)) := by
        simp only [Office.work, hw, hrest, h.view]
      obtain ⟨y, hgoes, hy⟩ := ih _ (h.proceed w hjob (d.world.pass 0) rfl)
      exact ⟨y, .go signal (.ok none) default (by rwa [hwork]), hy⟩
  | writing writes next ih =>
      obtain ⟨handle, y, hall, hgoes, hy⟩ := h.bufferAll
      obtain ⟨z, hgoes', hz⟩ := ih hy
      simp only [Attempt.perform, hall]
      exact ⟨z, hgoes.trans hgoes', hz⟩
  | validating ctx reactors old new next ih =>
      obtain ⟨w, hw, hjob, hrest⟩ := h.writer
      have hkv := d.world.registry.kv_validate hspares ctx old reactors new d.world.site
      -- without reactors there is nobody to say anything else
      have hnone : reactors = [] →
          (d.world.registry.validate host ctx old reactors new d.world.site).1 = .ok new := by
        rintro rfl
        rfl
      simp only [Attempt.perform]
      generalize d.world.registry.validate host ctx old reactors new d.world.site = outcome
        at hkv hnone
      obtain ⟨verdict, site⟩ := outcome
      have hverdict : (if reactors = [] then .ok new else verdict) = verdict := by
        split
        · next hnil => exact (hnone hnil).symm
        · rfl
      cases verdict with
      | ok answer =>
          have hwork : x.work n .go (.ok answer) default =
              x.proceed n { w with answer := some answer } (next answer) := by
            simp only [Office.work, hw, hrest, hverdict]
          obtain ⟨y, hgoes, hy⟩ := ih answer (h.proceed { w with answer := some answer } hjob
            { d.world with site := site } hkv)
          exact ⟨y, .go .go (.ok answer) default (by rwa [hwork]), hy⟩
      | error e =>
          have hwork : x.work n .go (.error e) default = x.proceed n w (.done (.error e)) := by
            simp only [Office.work, hw, hrest, hverdict]
          refine ⟨_, .go .go (.error e) default (.stay _), ?_⟩
          rw [hwork]
          exact h.proceed w hjob { d.world with site := site } hkv
  | timing next ih =>
      obtain ⟨w, hw, hjob, hrest⟩ := h.writer
      let now : Timestamp := ⟨(d.world.site.now / 1000000000 : Nat), d.world.site.now % 1000000000⟩
      have hwork : x.work n .go (.ok none) now = x.proceed n w (next now) := by
        simp only [Office.work, hw, hrest]
      obtain ⟨y, hgoes, hy⟩ := ih now (h.proceed w hjob d.world rfl)
      exact ⟨y, .go .go (.ok none) now (by rwa [hwork]), hy⟩

theorem leave (h : x.At n job rest d) :
    (x.leave n).course.session.kv = (d.world.site.kv.close d.handle).2 := by
  obtain ⟨iters, hseat⟩ := h.seat
  simp only [Office.leave, Office.call, Course.step, Session.exec, hseat, h.kv]

theorem commit {change : Change} (h : x.At n job (.done (.ok (some change))) d) (signal : Signal) :
    (x.commit n signal).course.session.kv = (d.world.site.kv.commit d.handle signal).2.2 ∧
      ∃ answer, (x.commit n signal).log = x.log ++
        match (d.world.site.kv.commit d.handle signal).1 with
        | .ok () => [⟨job, answer, change⟩]
        | .error _ => [] := by
  obtain ⟨⟨job, rest, answer⟩, hw, rfl, rfl⟩ := h.writer
  obtain ⟨iters, hseat⟩ := h.seat
  have hexec : x.course.session.exec (.commit n signal) =
      (.done (d.world.site.kv.commit d.handle signal).1,
        ⟨(d.world.site.kv.commit d.handle signal).2.2,
          x.course.session.seats.set n ⟨(d.world.site.kv.commit d.handle signal).2.1, []⟩⟩) := by
    simp only [Session.exec, hseat, h.kv]
  simp only [Office.commit, hw, Office.call, Course.step, hexec]
  rcases d.world.site.kv.commit d.handle signal with ⟨e | _, handle, kv⟩
  · exact ⟨rfl, answer, (List.append_nil _).symm⟩
  · exact ⟨rfl, answer, rfl⟩

end At

theorem take_opened (job : Job) (signal : Signal) (stop : Error) (world : World σ) {h : Handle}
    {kv : Kv} (hopen : job.openKv x.course.session.kv signal stop = (.ok h, kv))
    (hkv : world.site.kv = kv) :
    (x.take job signal stop).At x.course.session.seats.length job job.attempt ⟨h, world⟩ := by
  have hexec : x.course.session.exec (job.opening signal stop) =
      (.opened (.ok x.course.session.seats.length), ⟨kv, x.course.session.seats ++ [⟨h, []⟩]⟩) := by
    rw [job.exec_opening, hopen]
    rfl
  simp only [Office.take, hexec, Office.call, Course.step]
  exact ⟨⟨_, by rw [SortedMap.get?_insert, if_pos rfl], rfl, rfl⟩,
    ⟨[], List.getElem?_concat_length ..⟩, hkv.symm, Job.writes_of_open hopen⟩

-- Something can happen that leaves the same behind as a transaction of the store. What that commits
-- is put down as a change.
def Matches {α : Type} (x : Office) (job : Job) (changeOf : α → Option Change)
    (outcome : Except Error α × World σ) : Prop :=
  ∃ y answer, Leads x y ∧ y.course.session.kv = outcome.2.site.kv ∧
    y.log = x.log ++
      match outcome.1 with
      | .ok a => (changeOf a).toList.map (fun change => ⟨job, answer, change⟩)
      | .error _ => []

variable {α : Type} {job : Job} {changeOf : α → Option Change} {d : Draft σ}

-- A transaction that fails, or has nothing to change, ends without a commit.
theorem At.matches_leave {rest : Attempt (Option Change)} (h : y.At n job rest d)
    (hleads : Leads x y) (hlog : y.log = x.log) {result : Except Error α}
    (hnone : ∀ a, result = .ok a → changeOf a = none) :
    x.Matches job changeOf (result, d.world.withKv (d.world.site.kv.close d.handle).2) := by
  refine ⟨y.leave n, none, hleads.step (.leave n), h.leave, ?_⟩
  have hleft : (y.leave n).log = x.log := hlog
  rw [hleft]
  cases result with
  | error e => simp
  | ok a => simp [hnone a rfl]

theorem At.matches_commit {change : Change} {a : α} (h : y.At n job (.done (.ok (some change))) d)
    (hleads : Leads x y) (hlog : y.log = x.log) (hchange : changeOf a = some change)
    (signal : Signal) :
    x.Matches job changeOf
      (match d.world.site.kv.commit d.handle signal with
      | (.error e, _, kv) => (.error e, (d.world.withKv kv).pass 0)
      | (.ok (), _, kv) => (.ok a, (d.world.withKv kv).pass 0)) := by
  obtain ⟨hkept, answer, hadded⟩ := h.commit signal
  rw [hlog] at hadded
  refine ⟨y.commit n signal, answer, hleads.step (.commit n signal), ?_, ?_⟩
  · rw [hkept]
    rcases d.world.site.kv.commit d.handle signal with ⟨e | _, _, kv⟩ <;> rfl
  · rw [hadded]
    rcases d.world.site.kv.commit d.handle signal with ⟨e | _, _, kv⟩
    · rfl
    · simp only [hchange]
      rfl

-- What the store does in a transaction, a writer does whom nobody disturbs.
theorem transact_alone {host : Host σ} (hspares : host.Spares) (ctx : Context) {body : Attempt α}
    (hbody : job.attempt = body.bind (fun a => .done (.ok (changeOf a)))) (w : World σ)
    (hkv : x.course.session.kv = w.site.kv) : x.Matches job changeOf
      (Store.transact host ctx job.openKv body (fun a => (changeOf a).isSome) w) := by
  rw [Store.transact_eq]
  generalize w.signal ctx = signal
  generalize (ctx.giveUp w.site.now).1 = stop
  have htaken : Leads x (x.take job signal stop) := (Leads.refl x).step (.take job signal stop)
  have hlog := log_take x job signal stop
  rcases hopen : job.openKv w.site.kv signal stop with ⟨e | h, kv⟩
  · have hexec : x.course.session.exec (job.opening signal stop) =
        (.opened (.error e), ⟨kv, x.course.session.seats⟩) := by
      rw [job.exec_opening, hkv, hopen]
      rfl
    refine ⟨x.take job signal stop, none, htaken, ?_, by simpa using hlog⟩
    simp only [Office.take, hexec, Office.call, Course.step]
    rfl
  · have hat := take_opened job signal stop ((w.withKv kv).pass 0) (hkv ▸ hopen) rfl
    obtain ⟨y, hgoes, hy⟩ := hat.perform hspares
    have hleads := htaken.trans hgoes.leads
    rw [← hgoes.log_eq] at hlog
    rw [hbody, Attempt.perform_bind] at hy
    simp only
    generalize body.perform host ⟨h, (w.withKv kv).pass 0⟩ = outcome at hy ⊢
    obtain ⟨e | a, d⟩ := outcome
    · exact hy.matches_leave hleads hlog (fun a ha => by cases ha)
    · simp only [Attempt.perform] at hy ⊢
      cases hchange : changeOf a with
      | none =>
          refine hy.matches_leave hleads hlog (fun a' ha => ?_)
          cases ha
          exact hchange
      | some change =>
          rw [hchange] at hy
          exact hy.matches_commit hleads hlog hchange (d.world.signal ctx)

theorem put_alone {host : Host σ} (hspares : host.Spares) (encoding : Encoding) (ctx : Context)
    (model : Model) (doc : Document) (w : World σ) (hkv : x.course.session.kv = w.site.kv) :
    x.Matches (.put encoding ctx model doc) Job.changeOfPut
      (Store.transact host ctx (Job.put encoding ctx model doc).openKv
        (Store.putAttempt encoding ctx model doc doc.version)
        (fun outcome => (Job.changeOfPut outcome).isSome) w) :=
  transact_alone hspares ctx (Job.attempt_put encoding ctx model doc) w hkv

theorem delete_alone {host : Host σ} (hspares : host.Spares) (ctx : Context) (target : Model)
    (model id : String) (w : World σ) (hkv : x.course.session.kv = w.site.kv) :
    x.Matches (.delete ctx target model id) (fun old => some ⟨some old, none⟩)
      (Store.transact host ctx Kv.write (Store.deleteAttempt ctx target model id)
        (fun _ => true) w) :=
  transact_alone hspares ctx (Job.attempt_delete ctx target model id) w hkv

end Office

end DocStore
