import DocStore.Proofs.Store.Retries
import DocStore.Proofs.Store.RunningReactors

-- Runtimes that note down which reactors they start and stop.
namespace DocStore

-- The reactors that were started, and those that were stopped, in the order in which that happened.
structure Diary where
  started : List Instance
  stopped : List Instance

namespace Diary

def blank : Diary := ⟨[], []⟩

def start (diary : Diary) (inst : Instance) : Diary :=
  { diary with started := diary.started ++ [inst] }

def stop (diary : Diary) (inst : Instance) : Diary :=
  { diary with stopped := diary.stopped ++ [inst] }

-- How often a reactor was stopped.
def stops (diary : Diary) (inst : Instance) : Nat :=
  (diary.stopped.map (·.number)).count inst.number

end Diary

section Recording

variable {σ : Type}

-- A site without the diary, and a site with it.
def Site.bare (site : Site (σ × Diary)) : Site σ := ⟨site.kv, site.now, site.host.1⟩

def Site.beside (diary : Diary) (site : Site σ) : Site (σ × Diary) :=
  ⟨site.kv, site.now, (site.host, diary)⟩

-- The same runtimes, with a diary beside what they keep.
def Host.recording (host : Host σ) : Host (σ × Diary) where
  start inst s :=
    match host.start inst s.1 with
    | (.ok (), kept) => (.ok (), (kept, s.2.start inst))
    | (.error e, kept) => (.error e, (kept, s.2))
  validate inst ctx old new site :=
    let (verdict, seen) := host.validate inst ctx old new site.bare
    (verdict, seen.beside site.host.2)
  reconcile inst ctx old new site :=
    let (outcome, seen) := host.reconcile inst ctx old new site.bare
    (outcome, seen.beside site.host.2)
  stop inst s := (host.stop inst s.1, s.2.stop inst)

def Store.recording (store : Store σ) : Store (σ × Diary) := ⟨store.config, store.host.recording⟩

def Site.diary (site : Site (σ × Diary)) : Diary := site.host.2

def World.diary (w : World (σ × Diary)) : Diary := w.site.diary

-- No reactor is started, put to work, or stopped.
def World.SameBooks (w w' : World (σ × Diary)) : Prop :=
  w'.registry = w.registry ∧ w'.diary = w.diary

theorem World.elapsing_sameBooks : Elapsing (SameBooks (σ := σ)) where
  refl _ := ⟨rfl, rfl⟩
  trans h h' := ⟨h'.1.trans h.1, h'.2.trans h.2⟩
  time _ _ := ⟨rfl, rfl⟩
  models _ _ := ⟨rfl, rfl⟩
  reading _ := ⟨rfl, rfl⟩

end Recording

namespace Store

variable {σ α : Type}

-- A commit that comes after others have changed what is stored.
def racing (others : Kv → Kv) (ctx : Context) (h : Handle) : Action σ Unit := do
  modify (fun w => w.withKv (others w.site.kv))
  commit ctx h

section Books

-- What reactors do about changes of documents is not for the diary.
theorem sameBooks_validate (host : Host σ) (w : World (σ × Diary)) (ctx : Context)
    (old : Option Document) (reactors : List String) (new : Option Document) : w.SameBooks
      { w with site := (w.registry.validate host.recording ctx old reactors new w.site).2 } := by
  have hview : ∀ inst ctx old new (site : Site (σ × Diary)),
      (host.recording.validate inst ctx old new site).2.diary = site.diary :=
    fun _ _ _ _ _ => rfl
  exact ⟨rfl, w.registry.view_validate hview ctx old reactors new w.site⟩

theorem sameBooks_perform (store : Store σ) (task : ReconcileTask) :
    Action.Keeps World.SameBooks (perform store.recording task) := by
  have hview : ∀ inst ctx old new (site : Site (σ × Diary)),
      (store.recording.host.reconcile inst ctx old new site).2.diary = site.diary :=
    fun _ _ _ _ _ => rfl
  exact fun w => ⟨rfl, task.view_run hview (fun _ _ => rfl) w.registry store.config.reconcile w.bus
    w.site⟩

theorem sameBooks_announce (store : Store σ) (model : Model) (old new : Option Document) :
    Action.Keeps World.SameBooks (announce store.recording model old new) :=
  keeps_announce World.elapsing_sameBooks (fun _ _ => ⟨rfl, rfl⟩) (sameBooks_perform store) model
    old new

theorem sameBooks_drain (store : Store σ) : Action.Keeps World.SameBooks (drain store.recording) :=
  keeps_drain World.elapsing_sameBooks (fun _ _ => ⟨rfl, rfl⟩) (sameBooks_perform store)

-- Others may change what is stored just before a commit.
theorem sameBooks_racing (others : Kv → Kv) (ctx : Context) (h : Handle) :
    Action.Keeps World.SameBooks (racing others ctx h : Action (σ × Diary) Unit) :=
  fun _ => ⟨rfl, rfl⟩

theorem sameBooks_transactVia (host : Host σ) (others : Kv → Kv) (ctx : Context)
    (openKv : Kv → Signal → Error → Except Error Handle × Kv) (body : Attempt α)
    (changes : α → Bool) : Action.Keeps World.SameBooks
      (transactVia (racing others ctx) host.recording ctx openKv body changes) :=
  keeps_transactVia World.elapsing_sameBooks (fun _ _ => ⟨rfl, rfl⟩) (sameBooks_validate host)
    (sameBooks_racing others ctx)

theorem sameBooks_putOnceVia (store : Store σ) (others : Kv → Kv) (ctx : Context) (model : Model)
    (doc : Document) : Action.Keeps World.SameBooks
      (putOnceVia (racing others ctx) store.recording ctx model doc) :=
  sameBooks_transactVia store.host others ctx _ _ _

theorem sameBooks_deleteOnceVia (store : Store σ) (others : Kv → Kv) (ctx : Context)
    (target : Model) (model id : String) : Action.Keeps World.SameBooks
      (deleteOnceVia (racing others ctx) store.recording ctx target model id) :=
  sameBooks_transactVia store.host others ctx _ _ _

end Books

end Store

end DocStore
