import DocStore.Proofs.Storage.Unopposed
import DocStore.Proofs.Store.Unmoved

-- A store that is asked one thing after the other: between two requests nobody is at work.
namespace DocStore

theorem TxnManager.commit_reserved (m : TxnManager) (txn : Txn) (store : VersionStore) :
    (m.commit txn store).2.1.id = txn.id ∧ (m.commit txn store).2.1.start = txn.start ∧
      (m.commit txn store).2.1.intents = txn.intents := by
  simp only [commit, Txn.beginValidation]
  split
  · exact ⟨rfl, rfl, rfl⟩
  · next heq =>
    split at heq <;> cases heq
    split
    · split <;> exact ⟨rfl, rfl, rfl⟩
    · exact ⟨rfl, rfl, rfl⟩

namespace Kv

variable {kv kv' : Kv}

-- Whoever is at work on one of them is at work on the other.
def Shares : Kv → Kv → Prop
  | .multi kv, .multi after => after.manager = kv.manager
  | .single kv, .single after => after.busy = kv.busy
  | _, _ => False

theorem Shares.refl (kv : Kv) : kv.Shares kv := by cases kv <;> exact rfl

theorem Shares.orderly (h : kv.Shares kv') (hkv : kv.Orderly) : kv'.Orderly := by
  match kv, kv' with
  | .multi ⟨_, m⟩, .multi ⟨_, m'⟩ =>
      obtain rfl : m' = m := h
      exact hkv
  | .single _, .single _ => trivial

theorem Shares.idle (h : kv.Shares kv') (hkv : kv.Idle) : kv'.Idle := by
  match kv, kv' with
  | .multi ⟨_, m⟩, .multi ⟨_, m'⟩ =>
      obtain rfl : m' = m := h
      exact hkv
  | .single _, .single _ => exact Eq.trans h hkv

-- A writer that commits is as little at work afterwards as one that is closed.
theorem shares_commit (kv : Kv) (h : Handle) (hw : h.Writes) (signal : Signal) :
    (kv.close h).2.Shares (kv.commit h signal).2.2 := by
  cases h with
  | multiRead | singleRead => cases hw
  | singleWrite writes isOpen =>
      obtain rfl : isOpen = true := hw
      cases kv with
      | multi m => exact rfl
      | single s =>
          simp only [commit]
          split
          · contradiction
          · split <;> exact rfl
  | multiWrite txn finished =>
      cases kv with
      | single s => exact rfl
      | multi m =>
          obtain ⟨hid, hstart, hintents⟩ := m.manager.commit_reserved txn m.store
          -- what is committed makes no difference to those who are at work
          obtain ⟨manager, hclosed⟩ : ∃ manager, ∀ txn' : Txn, txn'.id = txn.id →
              txn'.start = txn.start → txn'.intents = txn.intents → ∀ store, ∃ ended,
              close (.multi { m with store := store }) (.multiWrite txn' finished) =
                (ended, .multi ⟨store, manager⟩) := by
            cases finished with
            | true => exact ⟨m.manager, fun _ _ _ _ _ => ⟨_, rfl⟩⟩
            | false =>
                refine ⟨(m.manager.finish txn).2, fun txn' hid hstart hintents store => ?_⟩
                simp only [close, TxnManager.finish, hid, hstart, hintents]
                exact ⟨_, rfl⟩
          obtain ⟨_, hplain⟩ : ∃ ended, close (.multi m) (.multiWrite txn finished) =
            (ended, .multi ⟨m.store, manager⟩) := hclosed txn rfl rfl rfl m.store
          obtain ⟨_, hcommitted⟩ := hclosed _ hid hstart hintents (m.manager.commit txn m.store).2.2
          rw [hplain]
          simp only [commit]
          cases signal.check with
          | error e =>
              rw [hplain]
              exact rfl
          | ok _ =>
              simp only [hcommitted]
              cases (m.manager.commit txn m.store).1 <;> exact rfl

end Kv

namespace World

variable {σ : Type}

-- If nobody is at work before, nobody is afterwards.
def StaysIdle (w w' : World σ) : Prop :=
  w.site.kv.Orderly ∧ w.site.kv.Idle → w'.site.kv.Orderly ∧ w'.site.kv.Idle

theorem Still.staysIdle {w w' : World σ} (h : w.Still w') : w.StaysIdle w' :=
  fun hw => ⟨(h hw.1).orderly hw.1, (h hw.1).idle hw.2⟩

theorem staysIdle_of_kv {w w' : World σ} (h : w'.site.kv = w.site.kv) : w.StaysIdle w' := by
  rw [StaysIdle, h]
  exact id

theorem passing_staysIdle : Passing (StaysIdle (σ := σ)) where
  refl _ := id
  trans h h' := h' ∘ h
  time w now := (passing_still.time w now).staysIdle
  models w models := (passing_still.models w models).staysIdle
  reactors w registry s h := (passing_still.reactors w registry s h).staysIdle
  reading w := (passing_still.reading w).staysIdle

end World

namespace Store

variable {σ α : Type} {store : Store σ} {ctx : Context} {w : World σ}

-- A transaction ends, whatever comes of it.
theorem staysIdle_transact {host : Host σ} (hspares : host.Spares) (job : Job) (ctx : Context)
    (body : Attempt α) (changes : α → Bool) :
    Action.Keeps World.StaysIdle (transact host ctx job.openKv body changes) := by
  rintro w ⟨horderly, hidle⟩
  rw [transact_eq]
  have hopens := job.opens_openKv horderly (w.signal ctx) (ctx.giveUp w.site.now).1
  rcases hopen : job.openKv w.site.kv (w.signal ctx) (ctx.giveUp w.site.now).1 with ⟨e | handle, kv⟩
  · rw [hopen] at hopens
    exact ⟨hopens.orderly horderly, hopens.idle hidle⟩
  · rw [hopen] at hopens
    obtain ⟨hwrites, hclosed⟩ := body.close_perform hspares (d := ⟨handle, (w.withKv kv).pass 0⟩)
      (Job.writes_of_open hopen)
    have hback : w.site.kv.Unmoved (kv.close handle).2 := hopens.back
    simp only
    generalize body.perform host ⟨handle, (w.withKv kv).pass 0⟩ = outcome at hwrites hclosed
    obtain ⟨result, d⟩ := outcome
    rw [← show (d.world.site.kv.close d.handle).2 = (kv.close handle).2 from hclosed] at hback
    have hleft := And.intro (hback.orderly horderly) (hback.idle hidle)
    have hshares := Kv.shares_commit d.world.site.kv d.handle hwrites (d.world.signal ctx)
    cases result with
    | error e => exact hleft
    | ok a =>
        simp only
        split
        · generalize d.world.site.kv.commit d.handle (d.world.signal ctx) = ended at hshares
          obtain ⟨e | _, _, after⟩ := ended <;>
          exact ⟨hshares.orderly hleft.1, hshares.idle hleft.2⟩
        · exact hleft

theorem staysIdle_put (hspares : store.host.Spares) (hrests : store.host.Rests) (ctx : Context)
    (doc : Document) : Action.Keeps World.StaysIdle (put store ctx doc) := by
  have hpassing := World.passing_staysIdle (σ := σ)
  rw [put_eq]
  refine .bind hpassing.toElapsing (keeps_accept hpassing store ctx doc) ?_
  rintro ⟨prepared, model⟩ w
  have hwritten : Action.Keeps World.StaysIdle (write store ctx model doc) := by
    rw [write_eq]
    exact keeps_retrying hpassing.toElapsing (staysIdle_transact hspares
      (.put store.config.encoding ctx model doc) ctx _ _) _ _ _
  exact hpassing.trans (hwritten w)
    (World.staysIdle_of_kv (kv_as_written (quiet_announce hrests model) _ prepared w))

theorem staysIdle_delete (hspares : store.host.Spares) (hrests : store.host.Rests) (ctx : Context)
    (model id : String) : Action.Keeps World.StaysIdle (delete store ctx model id) := by
  have helapsing := (World.passing_staysIdle (σ := σ)).toElapsing
  rw [delete_eq]
  refine .bind helapsing (keeps_locate helapsing ctx model id) (fun target => ?_)
  refine .bind helapsing (keeps_retrying helapsing (staysIdle_transact hspares
    (.delete ctx target model id) ctx _ _) _ _ _) (fun old w => ?_)
  exact World.staysIdle_of_kv (answers_withdraw hrests target model id old w).2

-- Nobody is at work on a store that has done what it was asked since it was new.
theorem idle_of_requests (hspares : store.host.Spares) (hrests : store.host.Rests)
    {config : Config} {bus : Option Bus} {now : Time} {s : σ}
    (hstart : World.start config bus now s = .ok w) (requests : List Request) :
    (requests.foldl (fun w request => request.serve store w) w).site.kv.Idle := by
  have helapsing := (World.passing_staysIdle (σ := σ)).toElapsing
  have hrequests : w.StaysIdle (requests.foldl (fun w request => request.serve store w) w) := by
    induction requests using List.reverseRecOn with
    | nil => exact id
    | append_singleton requests request ih =>
        rw [List.foldl_append]
        refine helapsing.trans ih ?_
        cases request with
        | put ctx doc => exact staysIdle_put hspares hrests ctx doc _
        | delete ctx model id => exact staysIdle_delete hspares hrests ctx model id _
        | get ctx model id => exact keeps_get helapsing ctx model id _
        | search ctx request => exact keeps_search helapsing store ctx request _
  obtain ⟨hkv, -⟩ := World.of_start hstart
  refine (hrequests ?_).2
  rw [hkv]
  refine ⟨Kv.Reached.orderly ⟨config.backend, [], rfl⟩, ?_⟩
  cases config.backend with
  | mvcc => exact fun _ => rfl
  | embedded => exact rfl

end Store

end DocStore
