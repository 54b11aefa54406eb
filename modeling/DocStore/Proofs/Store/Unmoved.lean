import Mathlib
import DocStore.Proofs.Storage.Unmoved
import DocStore.Proofs.Store.Answers

-- Writes that come to nothing leave the storage as it was.
namespace DocStore

theorem TxnManager.commit_failed {m : TxnManager} {txn txn' : Txn} {store store' : VersionStore}
    {failure : CommitFailure} (h : m.commit txn store = (.error failure, txn', store')) :
    store' = store ∧ txn'.id = txn.id ∧ txn'.start = txn.start ∧ txn'.intents = txn.intents := by
  simp only [commit, Txn.beginValidation] at h
  split at h
  · cases h
    exact ⟨rfl, rfl, rfl, rfl⟩
  · next heq =>
    split at heq
    · cases heq
      split at h
      · split at h <;> cases h
      · cases h
        exact ⟨rfl, rfl, rfl, rfl⟩
    · cases heq

-- A commit that fails is no different from closing the writer.
theorem Kv.close_of_commit {kv : Kv} {h : Handle} (hw : h.Writes) {signal : Signal} {e : Error}
    (he : (kv.commit h signal).1 = .error e) : (kv.commit h signal).2.2 = (kv.close h).2 := by
  cases h with
  | multiRead | singleRead => cases hw
  | singleWrite writes isOpen =>
      obtain rfl : isOpen = true := hw
      cases kv with
      | multi m => rfl
      | single s =>
          simp only [commit, Bool.not_true, Bool.false_eq_true, ite_false] at he ⊢
          split
          · rfl
          · next hcheck =>
            rw [hcheck] at he
            cases he
  | multiWrite txn finished =>
      cases kv with
      | single s => rfl
      | multi m =>
          simp only [commit] at he ⊢
          split
          · rfl
          · next hcheck =>
            rw [hcheck] at he
            rcases hcommit : m.manager.commit txn m.store with ⟨failure | version, txn', store⟩
            · obtain ⟨rfl, hid, hstart, hintents⟩ := TxnManager.commit_failed hcommit
              cases finished with
              | true => rfl
              | false => simp only [close, TxnManager.finish, hid, hstart, hintents]
            · simp only [hcommit] at he
              split at he
              · next heq => cases heq
              · cases he
              · cases he

theorem Kv.writes_of_bufferAll {h h' : Handle} (hw : h.Writes) {writes : List Write}
    (hbuffer : Kv.bufferAll h writes = .ok h') : h'.Writes := by
  induction writes generalizing h with
  | nil =>
      cases hbuffer
      exact hw
  | cons first rest ih =>
      obtain ⟨next, hfirst, hnext⟩ := Kv.buffer_of_writes hw first.1 first.2
      simp only [Kv.bufferAll, List.foldlM_cons, hfirst] at hbuffer
      exact ih hnext hbuffer

namespace Attempt

variable {σ α : Type} {host : Host σ}

-- A writer that does its work stays a writer. Whatever it has done, nothing is left of it once it
-- is closed.
theorem close_perform (hspares : host.Spares) (a : Attempt α) {d : Draft σ}
    (hw : d.handle.Writes) :
    (a.perform host d).2.handle.Writes ∧
      ((a.perform host d).2.world.site.kv.close (a.perform host d).2.handle).2 =
        (d.world.site.kv.close d.handle).2 := by
  induction a generalizing d with
  | done result => exact ⟨hw, rfl⟩
  | reading ctx next ih => exact ih _ hw
  | writing writes next ih =>
      simp only [perform]
      split
      · next handle hbuffer =>
        obtain ⟨hwrites, hclosed⟩ := ih (d := { d with handle := handle })
          (Kv.writes_of_bufferAll hw hbuffer)
        exact ⟨hwrites, hclosed.trans (Kv.close_bufferAll hbuffer _)⟩
      · exact ⟨hw, rfl⟩
  | validating ctx reactors old new next ih =>
      have hkv := d.world.registry.kv_validate hspares ctx old reactors new d.world.site
      simp only [perform]
      generalize d.world.registry.validate host ctx old reactors new d.world.site = outcome at hkv
      obtain ⟨e | verdict, site⟩ := outcome
      · exact ⟨hw, congrArg (fun kv => (kv.close d.handle).2) hkv⟩
      · obtain ⟨hwrites, hclosed⟩ := ih verdict
          (d := { d with world := { d.world with site := site } }) hw
        exact ⟨hwrites, hclosed.trans (congrArg (fun kv => (kv.close d.handle).2) hkv)⟩
  | timing next ih => exact ih _ hw

end Attempt

namespace World

variable {σ : Type}

-- The storage is as it was.
def Still (w w' : World σ) : Prop := w.site.kv.Orderly → w.site.kv.Unmoved w'.site.kv

theorem passing_still : Passing (Still (σ := σ)) where
  refl w _ := .refl w.site.kv
  trans h h' hw := (h hw).trans (h' ((h hw).orderly hw))
  time w _ _ := .refl w.site.kv
  models w _ _ := .refl w.site.kv
  reactors w _ _ _ _ := .refl w.site.kv
  reading _ hw := hw.read_close

end World

theorem Job.opens_openKv (job : Job) {kv : Kv} (hkv : kv.Orderly) (signal : Signal) (stop : Error) :
    kv.Opens (job.openKv kv signal stop) := by
  cases job with
  | delete ctx target model id => exact hkv.opens_write signal stop
  | put encoding ctx model doc =>
      simp only [openKv]
      split
      · exact hkv.opens_writeExclusive signal stop _
      · exact hkv.opens_write signal stop

namespace Store

section Runs

variable {σ α : Type} {store : Store σ} {ctx : Context} {doc : Document} {w w' : World σ}

-- A transaction that fails, or finds nothing to change, leaves nothing behind.
theorem transact_still {host : Host σ} (hspares : host.Spares) (job : Job) {body : Attempt α}
    {changes : α → Bool} {result : Except Error α}
    (h : transact host ctx job.openKv body changes w = (result, w'))
    (hnone : ∀ a, result = .ok a → changes a = false) : w.Still w' := by
  intro hw
  rw [transact_eq] at h
  have hopens := job.opens_openKv hw (w.signal ctx) (ctx.giveUp w.site.now).1
  rcases hopen : job.openKv w.site.kv (w.signal ctx) (ctx.giveUp w.site.now).1 with ⟨e | handle, kv⟩
  · rw [hopen] at h hopens
    cases h
    exact hopens
  · rw [hopen] at h hopens
    obtain ⟨hwrites, hclosed⟩ := body.close_perform hspares (d := ⟨handle, (w.withKv kv).pass 0⟩)
      (Job.writes_of_open hopen)
    have hback : w.site.kv.Unmoved (kv.close handle).2 := hopens.back
    simp only at h
    generalize body.perform host ⟨handle, (w.withKv kv).pass 0⟩ = outcome at h hwrites hclosed
    obtain ⟨e | a, d⟩ := outcome
    · cases h
      exact hclosed ▸ hback
    · simp only at h
      split at h
      · next hchanges =>
        rcases hcommit : d.world.site.kv.commit d.handle (d.world.signal ctx) with ⟨e | _, _, after⟩
        · have hended := Kv.close_of_commit (e := e) hwrites (congrArg Prod.fst hcommit)
          rw [hcommit] at h hended
          cases h
          rw [← show after = (kv.close handle).2 from hended.trans hclosed] at hback
          exact hback
        · rw [hcommit] at h
          cases h
          rw [hnone a rfl] at hchanges
          cases hchanges
      · cases h
        exact hclosed ▸ hback

theorem stored?_of_view {view now : View}
    (h : ∀ key value, view.get key = .ok value → now.get key = .ok value) {model id : String}
    {old : Option Document} (hold : stored? model id view = .ok old) :
    stored? model id now = .ok old := by
  simp only [stored?, bind, Except.bind] at hold ⊢
  cases hget : view.get (Key.document model id) with
  | error e => simp [hget] at hold
  | ok record =>
      rw [h _ _ hget]
      rw [hget] at hold
      exact hold

section Writing

variable {model : Model}

theorem writeOnce_still (hspares : store.host.Spares) {result : Except Error WriteOutcome}
    (h : writeOnce store ctx model doc w = (result, w'))
    (hnone : ∀ outcome, result = .ok outcome → (Job.changeOfPut outcome).isSome = false) :
    w.Still w' :=
  transact_still hspares (.put store.config.encoding ctx model doc) h hnone

theorem still_of_write (hspares : store.host.Spares) {result : Except Error WriteOutcome}
    (h : write store ctx model doc w = (result, w')) :
    EndsRun World.Still (writeOnce store ctx model doc) w (result, w') :=
  h ▸ write_endsRun World.passing_still.toElapsing store ctx model doc
    (fun _ _ _ hrun => writeOnce_still hspares hrun (fun _ hok => nomatch hok)) w

theorem write_still (hspares : store.host.Spares) {result : Except Error WriteOutcome}
    (h : write store ctx model doc w = (result, w'))
    (hsame : ∀ outcome, result = .ok outcome → ∃ stored, outcome = .unchanged stored) :
    w.Still w' := by
  have hends := still_of_write hspares h
  cases result with
  | error e => exact hends
  | ok outcome =>
      obtain ⟨w₁, hpassed, hrun⟩ := hends
      obtain ⟨stored, rfl⟩ := hsame outcome rfl
      refine World.passing_still.trans hpassed (writeOnce_still hspares hrun (fun outcome ha => ?_))
      cases ha
      rfl

-- What is written has the version that follows the stored one.
theorem version_of_write (hspares : store.host.Spares) {old : Option Document} {new : Document}
    (h : write store ctx model doc w = (.ok (.written old new), w')) (hw : w.site.kv.Orderly) :
    stored? doc.model doc.id w.site.kv.now = .ok old ∧
      new.version = some ((old.map Document.currentVersion).getD 0 + 1) := by
  obtain ⟨w₁, hpassed, hrun⟩ := still_of_write hspares h
  obtain ⟨stop, handle, kv, d, hopen, hwork, -⟩ := work_of_transact hrun
  obtain ⟨_, val, hold, -, rfl, now, site, verdict, -, rfl⟩ := comes_of_putAttempt hwork
  have hopens := Job.opens_openKv (.put store.config.encoding ctx model doc)
    ((hpassed hw).orderly hw) (w₁.signal ctx) stop
  rw [hopen] at hopens
  rw [← (hpassed hw).now_eq]
  refine ⟨stored?_of_view (hopens.sees _) hold, ?_⟩
  cases verdict <;> rfl

end Writing

theorem put_failed_still (hspares : store.host.Spares) {e : Error}
    (h : put store ctx doc w = (.error e, w')) : w.Still w' :=
  put_failed World.passing_still
    (fun _ _ _ _ hrun => write_still hspares hrun (fun _ hok => nomatch hok)) h

theorem put_unchanged_still (hspares : store.host.Spares) {d : Document}
    (h : put store ctx doc w = (.ok d, w')) (hw : w.site.kv.Orderly)
    (hstored : stored? doc.model doc.id w.site.kv.now = .ok (some d)) :
    w.site.kv.Unmoved w'.site.kv := by
  obtain ⟨prepared, model, w₁, outcome, w₂, haccept, hwrite, rfl, hconclude⟩ := phases_of_put h
  have haccepted := keeps_accept World.passing_still store ctx doc w hw
  rw [haccept] at haccepted
  cases outcome with
  | unchanged stored =>
      have hkv := (quiet_conclude_unchanged store model prepared stored w₂).2
      rw [hconclude] at hkv
      rw [show w'.site.kv = w₂.site.kv from hkv]
      have hwritten := write_still hspares hwrite (fun _ hok => ⟨stored, (Except.ok.inj hok).symm⟩)
      exact haccepted.trans (hwritten (haccepted.orderly hw))
  | written old new =>
      -- what has been written is not what was stored
      obtain ⟨hold, hversion⟩ := version_of_write hspares hwrite (haccepted.orderly hw)
      rw [haccepted.now_eq, hstored, Except.ok.injEq] at hold
      have hnext : new.currentVersion = new.currentVersion + 1 := by
        conv_lhs => rw [Document.currentVersion, hversion, ← hold]
        rfl
      omega

theorem delete_failed_still (hspares : store.host.Spares) {model id : String} {e : Error}
    (h : delete store ctx model id w = (.error e, w')) : w.Still w' :=
  delete_failed World.passing_still.toElapsing (fun target _ _ _ hrun =>
    transact_still hspares (.delete ctx target model id) hrun (fun _ ha => nomatch ha)) h

-- Whatever a store has been asked since it was new, clients of the storage could have done.
theorem reached_of_requests (hspares : store.host.Spares) (hrests : store.host.Rests)
    {config : Config} {bus : Option Bus} {now : Time} {s : σ}
    (hstart : World.start config bus now s = .ok w) (requests : List Request) :
    (requests.foldl (fun w request => request.serve store w) w).site.kv.Reached := by
  obtain ⟨log, map, kind, x, hx, hkv, -⟩ := holds_of_requests hspares hrests hstart requests
  obtain ⟨calls, hrun⟩ := hx.run
  exact ⟨kind, calls, by rw [← hkv, hrun]⟩

-- A put or a deletion that fails leaves the storage as it was, and so does a put that answers with
-- the document that was stored already.
theorem refused_unmoved (hspares : store.host.Spares) (hw : w.site.kv.Reached) (ctx : Context) :
    (∀ doc e w', put store ctx doc w = (.error e, w') → w.site.kv.Unmoved w'.site.kv) ∧
      (∀ doc d w', put store ctx doc w = (.ok d, w') →
        stored? doc.model doc.id w.site.kv.now = .ok (some d) → w.site.kv.Unmoved w'.site.kv) ∧
      ∀ model id e w', delete store ctx model id w = (.error e, w') →
        w.site.kv.Unmoved w'.site.kv :=
  ⟨fun _ _ _ h => put_failed_still hspares h hw.orderly,
    fun _ _ _ h hstored => put_unchanged_still hspares h hw.orderly hstored,
    fun _ _ _ _ h => delete_failed_still hspares h hw.orderly⟩

end Runs

namespace Reservation

def stored : Document := { Document.ofBody "Model" "com.ex.Book" .null with version := some 1 }

-- One client has stored a document, and another one has reserved a second one.
def kv : Kv :=
  (Course.run .mvcc [.write .go .cancelled,
    .buffer 0 (Key.document "Model" "com.ex.Book") (some (Record.encode .messagePack stored)),
    .commit 0 .go,
    .writeExclusive .go .cancelled [Key.document "Model" "com.ex.Shop"]]).session.kv

def store : Store Unit :=
  ⟨{ Config.standard with encoding := .messagePack, retry := .single }, Host.none⟩

def world : World Unit :=
  ⟨⟨kv, 0, ()⟩, ModelCache.empty, Registry.new, TaskQueue.new 0 0, none⟩

end Reservation

-- The reserved document cannot be put, the stored one is put again, and a third one is not there to
-- be deleted.
theorem refused_unmoved_of_reservation :
    let book := put Reservation.store .background (Document.ofBody "Model" "com.ex.Book" .null)
      Reservation.world
    let shop := put Reservation.store .background (Document.ofBody "Model" "com.ex.Shop" .null)
      Reservation.world
    let lamp := delete Reservation.store .background "Model" "com.ex.Lamp" Reservation.world
    (shop.1 = .error preempted ∧ Reservation.kv.Unmoved shop.2.site.kv) ∧
      (book.1 = .ok Reservation.stored ∧ Reservation.kv.Unmoved book.2.site.kv) ∧
      (lamp.1 = .error notFound ∧ Reservation.kv.Unmoved lamp.2.site.kv) := by
  have hreached : Reservation.world.site.kv.Reached := ⟨.mvcc, _, rfl⟩
  have hspares : Reservation.store.host.Spares := fun _ _ _ _ _ => rfl
  obtain ⟨hfailed, hsame, hmissing⟩ := refused_unmoved hspares hreached .background
  have hshop : (put Reservation.store .background (Document.ofBody "Model" "com.ex.Shop" .null)
      Reservation.world).1 = .error preempted := by cbv
  have hbook : (put Reservation.store .background (Document.ofBody "Model" "com.ex.Book" .null)
      Reservation.world).1 = .ok Reservation.stored := by cbv
  have hlamp : (delete Reservation.store .background "Model" "com.ex.Lamp"
      Reservation.world).1 = .error notFound := by cbv
  have hstored : stored? "Model" "com.ex.Book" Reservation.kv.now =
      .ok (some Reservation.stored) := by cbv
  exact ⟨⟨hshop, hfailed _ _ _ (Prod.ext hshop rfl)⟩,
    ⟨hbook, hsame _ _ _ (Prod.ext hbook rfl) hstored⟩,
    ⟨hlamp, hmissing _ _ _ _ (Prod.ext hlamp rfl)⟩⟩

end Store

end DocStore
