import DocStore.Proofs.Store.Orphans

-- What the cache of models has is what is stored, as far as the cache has been told of changes.
namespace DocStore

namespace Bureau

variable {kind : BackendKind} {x y : Bureau} {commits later : CommitLog} {name : String}
  {model : Model} {past : List (String × Nat)}

-- A model is what its definition was compiled to that was stored when all of those changes of it
-- had been made that are over.
def Compiled (commits : CommitLog) (name : String) (model : Model) (past : List (String × Nat)) :
    Prop :=
  ∃ version ≤ commits.length, ∃ doc,
    Store.stored? modelOfModels name (View.ofMap (commits.mapAt version)) = .ok (some doc) ∧
      Model.ofDocument doc = .ok model ∧ ∀ i, (name, i) ∈ past → i < version

theorem Compiled.mono (h : Compiled commits name model past) (hlater : commits <+: later) :
    Compiled later name model past := by
  obtain ⟨version, hle, doc, hstored, hcompiled, hpast⟩ := h
  refine ⟨version, Nat.le_trans hle hlater.length_le, doc, ?_, hcompiled, hpast⟩
  rwa [CommitLog.mapAt_of_prefix hlater hle]

theorem Compiled.other {id : String} {i : Nat} (h : Compiled commits name model past)
    (hne : id ≠ name) : Compiled commits name model (past ++ [(id, i)]) := by
  obtain ⟨version, hle, doc, hstored, hcompiled, hpast⟩ := h
  refine ⟨version, hle, doc, hstored, hcompiled, fun j hj => ?_⟩
  rcases List.mem_append.mp hj with hj | hj
  · exact hpast j hj
  · exact absurd (congrArg Prod.fst (List.mem_singleton.mp hj)).symm hne

theorem compiled_current {doc : Document}
    (hstored : Store.stored? modelOfModels name (View.ofMap commits.current) = .ok (some doc))
    (hcompiled : Model.ofDocument doc = .ok model) (hpast : ∀ p ∈ past, p.2 < commits.length) :
    Compiled commits name model past :=
  ⟨commits.length, Nat.le_refl _, doc,
    by rwa [CommitLog.mapAt_of_length_le (Nat.le_refl _)], hcompiled, fun _ hi => hpast _ hi⟩

-- Neither what the cache has nor what it will take is older than the changes that are over.
structure Fresh (x : Bureau) : Prop where
  cached : ∀ name model, x.cache.get? name = some model →
    Compiled x.commits name model x.past
  compiled : ∀ l ∈ x.lookups, ∀ generation model, l.stage = .compiled generation model →
    generation = x.cache.generation l.name → Compiled x.commits l.name model x.past

namespace Fresh

theorem start : (start kind).Fresh where
  cached name model h := by simp [Bureau.start, ModelCache.get?, ModelCache.empty] at h
  compiled l hl := by simp [Bureau.start] at hl

-- What is committed meanwhile does not change what was stored before.
theorem mono (h : x.Fresh) (hcache : y.cache = x.cache) (hlookups : y.lookups = x.lookups)
    (hpast : y.past = x.past) (hcommits : x.commits <+: y.commits) : y.Fresh where
  cached name model hmodel := by
    rw [hpast]
    exact (h.cached name model (hcache ▸ hmodel)).mono hcommits
  compiled l hl generation model hstage hcurrent := by
    rw [hpast]
    rw [hcache] at hcurrent
    exact (h.compiled l (hlookups ▸ hl) generation model hstage hcurrent).mono hcommits

theorem office_step (h : x.Fresh) (event : Event) :
    ({ x with office := x.office.step event } : Bureau).Fresh :=
  h.mono rfl rfl rfl (x.office.commits_step event)

theorem advance (h : x.Fresh) {k : Nat} {stage : LookupStage}
    (hstage : ∀ l, x.lookups[k]? = some l → ∀ generation model,
      stage = .compiled generation model → generation = x.cache.generation l.name →
        Compiled x.commits l.name model x.past) : (x.advance k stage).Fresh where
  cached := h.cached
  compiled l hl generation model hcompiled hcurrent := by
    obtain ⟨i, hi⟩ := List.mem_iff_getElem?.mp hl
    rw [Bureau.advance, List.getElem?_modify] at hi
    obtain ⟨old, hold, rfl⟩ := Option.map_eq_some_iff.mp hi
    split at hcompiled
    · next heq =>
      rw [if_pos heq] at hcurrent ⊢
      exact hstage old (heq ▸ hold) generation model hcompiled hcurrent
    · next hne =>
      rw [if_neg hne] at hcurrent ⊢
      exact h.compiled old (List.mem_of_getElem? hold) generation model hcompiled hcurrent

theorem ask (h : x.Fresh) (name : String) : (x.ask name).Fresh where
  cached := h.cached
  compiled l hl generation model hstage hcurrent := by
    rcases List.mem_append.mp hl with hl | hl
    · exact h.compiled l hl generation model hstage hcurrent
    · rw [List.mem_singleton.mp hl] at hstage
      simp only [Bureau.glance] at hstage
      split at hstage
      · cases hstage
      · split at hstage <;> cases hstage

theorem note (h : x.Fresh) (k : Nat) : (x.note k).Fresh := by
  unfold Bureau.note
  split
  · exact h.advance (fun _ _ _ _ hstage => by cases hstage)
  · exact h

-- What was noted before the definition is read tells later whether the definition has been changed
-- since.
theorem consult (h : x.Fresh) (hx : x.Sound kind) (k : Nat) (signal : Signal) :
    (x.consult k signal).Fresh := by
  unfold Bureau.consult
  split
  · next name past generation hk =>
    let left := (x.office.step (.look .read)).step (.leave x.office.course.session.seats.length)
    have hcommits : x.commits <+: left.course.chronicle.log :=
      (x.office.commits_step (.look .read)).trans ((x.office.step (.look .read)).commits_step _)
    have hleft : ({ x with office := left } : Bureau).Fresh := h.mono rfl rfl rfl hcommits
    simp only
    split
    · next doc hdoc =>
      split
      · next model hmodel =>
        refine hleft.advance (fun l hl generation' model' hstage _ => ?_)
        obtain rfl := Option.some.inj (hk.symm.trans hl)
        cases hstage
        exact (compiled_current ((hx.office.reads signal).stored? hdoc) hmodel hx.past).mono
          hcommits
      · exact hleft
    · exact hleft
  · exact h

theorem keep (h : x.Fresh) (hx : x.Sound kind) (k : Nat) : (x.keep k).Fresh := by
  unfold Bureau.keep
  split
  · next name past generation model hk =>
    have hmem := List.mem_of_getElem? hk
    obtain ⟨-, hid, -⟩ := hx.lookups _ hmem
    have hfresh := h.compiled _ hmem generation model rfl
    simp only at hid hfresh
    have hkept : Fresh { x with cache := (x.cache.insert model generation).2 } := {
      cached := fun name' model' hmodel => by
        rcases ModelCache.get?_insert hmodel with hold | ⟨rfl, rfl, hcurrent⟩
        · exact h.cached name' model' hold
        · rw [hid] at hcurrent ⊢
          exact hfresh hcurrent.symm
      compiled := fun l hl generation' model' hstage hcurrent => by
        rw [ModelCache.generation_insert] at hcurrent
        exact h.compiled l hl generation' model' hstage hcurrent }
    exact hkept.advance (fun _ _ _ _ hstage => by cases hstage)
  · exact h

theorem take (h : x.Fresh) (k : Nat) (job : Model → Job) (signal : Signal) (stop : Error) :
    (x.take k job signal stop).Fresh := by
  unfold Bureau.take
  split
  · next name past model hk =>
    split
    · split
      · exact h.mono rfl rfl rfl (x.office.commits_step (.take (job model) signal stop))
      · exact h
    · exact h
  · exact h

-- Once the cache has given up a model, it takes no definition of it that was read before.
theorem invalidate (h : x.Fresh) (hx : x.Sound kind) (i : Nat) : (x.invalidate i).Fresh := by
  unfold Bureau.invalidate
  split
  · next e he =>
    split
    · exact {
        cached := fun name model hcached => by
          rw [ModelCache.get?_invalidate] at hcached
          split at hcached
          · cases hcached
          · next hne => exact (h.cached name model hcached).other hne
        compiled := fun l hl generation model hstage hcurrent => by
          obtain ⟨-, hfounded⟩ := hx.lookups l hl
          simp only [Founded, hstage] at hfounded
          rw [ModelCache.generation_invalidate] at hcurrent
          split at hcurrent
          · omega
          · next hne => exact (h.compiled l hl generation model hstage hcurrent).other hne }
    · exact h
  · exact h

theorem step (h : x.Fresh) (hx : x.Sound kind) (errand : Errand) : (x.step errand).Fresh := by
  cases errand with
  | ask name => exact h.ask name
  | note k => exact h.note k
  | consult k signal => exact h.consult hx k signal
  | keep k => exact h.keep hx k
  | put k encoding ctx doc signal stop => exact h.take k _ signal stop
  | delete k ctx model id signal stop => exact h.take k _ signal stop
  | invalidate i => exact h.invalidate hx i
  | work n signal verdict now => exact h.office_step (.work n signal verdict now)
  | commit n signal => exact h.office_step (.commit n signal)
  | leave n => exact h.office_step (.leave n)
  | look call => exact h.office_step (.look call)

end Fresh

theorem fresh_run (kind : BackendKind) (errands : List Errand) : (run kind errands).Fresh := by
  induction errands using List.reverseRecOn with
  | nil => exact Fresh.start
  | append_singleton errands errand ih =>
      rw [run_append]
      exact ih.step (sound_run kind errands) errand

-- Whatever is looked up and changed, and in whatever order, a model in the cache is what the
-- definition compiles to that a reader finds now, unless a change of the definition was committed
-- that the cache has not been told of yet.
theorem current_of_cached (kind : BackendKind) (errands : List Errand) (name : String)
    (model : Model) (hcached : (run kind errands).cache.get? name = some model) :
    let x := run kind errands
    (∃ doc, x.office.stored? modelOfModels name = .ok (some doc) ∧
        Model.ofDocument doc = .ok model) ∨
      ∃ i e, x.office.log[i]? = some e ∧ e.job.model = modelOfModels ∧ e.job.id = name ∧
        (name, i) ∉ x.past := by
  have h := sound_run kind errands
  obtain ⟨version, -, doc, hstored, hcompiled, hpast⟩ :=
    (fresh_run kind errands).cached name model hcached
  generalize run kind errands = x at *
  by_cases hsame : (x.commits.mapAt version).get? (Key.document modelOfModels name) =
      x.office.current.get? (Key.document modelOfModels name)
  · refine .inl ⟨doc, ?_, hcompiled⟩
    rw [Store.stored?_ofMap, hsame] at hstored
    rw [h.office.stored?_eq, Store.stored?_ofMap]
    exact hstored
  · obtain ⟨i, e, commit, hle, hsettles⟩ := h.filed.exists_settles h.office hsame
    exact .inr ⟨i, e, hsettles.entry, hsettles.own.1, hsettles.own.2,
      fun hover => absurd (hpast i hover) (Nat.not_lt.mpr hle)⟩

-- The model of books has been deleted, and the cache has yet to give it up.
def dropped : List Errand := prologue ++ [dropModel] ++ toil 2 ++ [.commit 2 .go]

theorem cached_dropped : (run .mvcc dropped).cache.get? "com.ex.Book" =
    some (Model.bare "com.ex.Book") := by
  cbv

theorem keys_dropped : (run .mvcc dropped).office.keys = [] := by
  cbv

theorem current_of_cached_dropped :
    (run .mvcc dropped).cache.get? "com.ex.Book" = some (Model.bare "com.ex.Book") ∧
      ∃ i e, (run .mvcc dropped).office.log[i]? = some e ∧ e.job.model = modelOfModels ∧
        e.job.id = "com.ex.Book" ∧ ("com.ex.Book", i) ∉ (run .mvcc dropped).past := by
  refine ⟨cached_dropped, ?_⟩
  rcases current_of_cached .mvcc dropped _ _ cached_dropped with ⟨doc, hstored, -⟩ | hpending
  · have h := (sound_run .mvcc dropped).office
    rw [h.stored?_eq] at hstored
    have hthere := (h.mem_keys_iff _).mpr (Store.isSome_of_stored? hstored)
    rw [keys_dropped] at hthere
    cases hthere
  · exact hpending

end Bureau

end DocStore
