import DocStore.Proofs.ModelCache
import DocStore.Proofs.Record
import DocStore.Proofs.Store.Bureau
import DocStore.Proofs.Store.Documents

-- What a lookup of a model may rely on: at some moment the model was stored.
namespace DocStore

-- The document of a job has a proper name.
def Job.Named (job : Job) : Prop := Identifier.checkPath job.model job.id = .ok ()

theorem Job.Named.id_of_decode {job : Job} (h : job.Named) {d found : Document}
    (hid : d.id = job.id) (hdecode : Record.decode (job.record d) = .ok found) :
    found.id = job.id := by
  cases job with
  | put encoding ctx model doc =>
      obtain ⟨_, -, hcheck⟩ := bind_eq_ok_iff.mp h
      have hlength := Identifier.length_le_of_check hcheck
      rw [← hid] at hlength
      exact (Record.id_of_decode (Nat.lt_of_le_of_lt hlength (by decide)) hdecode).trans hid
  | delete ctx target model id => cases hdecode

-- A stored document carries the id that it is stored under.
theorem Recorded.id_of_stored? {log : List Entry} {map : SortedMap Bytes Bytes}
    (h : Recorded log map) (hnamed : ∀ e ∈ log, e.job.Named) {model id : String} {doc : Document}
    (hdoc : Store.stored? model id (View.ofMap map) = .ok (some doc)) : doc.id = id := by
  induction h with
  | start =>
      rw [Store.stored?_ofMap, SortedMap.get?_empty] at hdoc
      cases hdoc
  | @enter log before after e _ ht ih =>
      obtain ⟨hearlier, hlast⟩ := List.forall_mem_append.mp hnamed
      by_cases hown : model = e.job.model ∧ id = e.job.id
      · obtain ⟨rfl, rfl⟩ := hown
        rw [ht.stored?_new] at hdoc
        cases hnew : e.change.new with
        | none =>
            rw [hnew] at hdoc
            cases hdoc
        | some d =>
            rw [hnew] at hdoc
            cases hdecode : Record.decode (e.job.record d) with
            | error fault => simp [hdecode, Except.map] at hdoc
            | ok found =>
                obtain rfl : found = doc := by simpa [hdecode, Except.map] using hdoc
                obtain ⟨base, writes, hprepares, -⟩ := ht
                rw [(hlast e (by simp)).id_of_decode (hprepares.makes.new_eq hnew).2 hdecode]
      · rw [ht.stored?_other hown] at hdoc
        exact ih hearlier hdoc

theorem Store.isSome_of_stored? {map : SortedMap Bytes Bytes} {model id : String}
    {doc : Document} (h : stored? model id (View.ofMap map) = .ok (some doc)) :
    (map.get? (Key.document model id)).isSome := by
  rw [stored?_ofMap] at h
  cases hrecord : map.get? (Key.document model id) with
  | none =>
      rw [hrecord] at h
      cases h
  | some record => rfl

namespace Office

variable {kind : BackendKind} {x : Office} {n : Nat}

theorem Sound.lt_of_writer (h : x.Sound kind) {w : Writer} (hw : x.writers.get? n = some w) :
    n < x.course.session.seats.length := by
  obtain ⟨o, ho, -⟩ := h.ready n w hw
  rw [h.faithful.aligned]
  exact (List.getElem?_eq_some_iff.mp ho).1

theorem Filed.lt_of_client (hfiled : x.Filed) (h : x.Sound kind) {i : Nat} {e : Entry}
    {commit : Commit} (he : x.log[i]? = some e)
    (hcommit : x.course.chronicle.log[i]? = some commit) :
    commit.client < x.course.session.seats.length := by
  obtain ⟨base, hbase, -⟩ := hfiled i e commit he hcommit
  rw [h.faithful.aligned, ← List.length_map (f := Outlook.base)]
  exact (List.getElem?_eq_some_iff.mp hbase).1

theorem eq_of_opened {job : Job} {signal : Signal} {stop : Error}
    (hopened : (x.course.session.exec (job.opening signal stop)).1 = .opened (.ok n)) :
    n = x.course.session.seats.length := by
  rcases Sound.opening_cases x.course job signal stop with ⟨e, he, -⟩ | ⟨keys, hok, -⟩
  · rw [hopened] at he
    cases he
  · rw [hopened] at hok
    cases hok
    rfl

-- A reader that opens sees what is committed.
theorem Sound.reads (h : x.Sound kind) (signal : Signal) :
    ((x.step (.look .read)).course.session.view x.course.session.seats.length signal).Shows
      x.current := by
  have hshows := h.faithful.reads.shows signal
  rw [SortedMap.setAll_empty] at hshows
  rwa [x.view_read]

end Office

namespace Bureau

variable {kind : BackendKind} {x y : Bureau} {commits later : CommitLog} {name : String}
  {past : List (String × Nat)}

-- A model was stored when all of those changes of it had been made that are over.
def Backed (commits : CommitLog) (name : String) (past : List (String × Nat)) : Prop :=
  ∃ version ≤ commits.length,
    ((commits.mapAt version).get? (Key.document modelOfModels name)).isSome ∧
      ∀ i, (name, i) ∈ past → i < version

theorem Backed.mono (h : Backed commits name past) (hlater : commits <+: later) :
    Backed later name past := by
  obtain ⟨version, hle, hstored, hpast⟩ := h
  refine ⟨version, Nat.le_trans hle hlater.length_le, ?_, hpast⟩
  rwa [CommitLog.mapAt_of_prefix hlater hle]

theorem Backed.subset {fewer : List (String × Nat)} (h : Backed commits name past)
    (hsub : fewer ⊆ past) : Backed commits name fewer := by
  obtain ⟨version, hle, hstored, hpast⟩ := h
  exact ⟨version, hle, hstored, fun i hi => hpast i (hsub hi)⟩

-- What becomes of other models makes no difference.
theorem Backed.other {id : String} {i : Nat} (h : Backed commits name past) (hne : id ≠ name) :
    Backed commits name (past ++ [(id, i)]) := by
  obtain ⟨version, hle, hstored, hpast⟩ := h
  refine ⟨version, hle, hstored, fun j hj => ?_⟩
  rcases List.mem_append.mp hj with hj | hj
  · exact hpast j hj
  · exact absurd (congrArg Prod.fst (List.mem_singleton.mp hj)).symm hne

theorem backed_current (h : (commits.current.get? (Key.document modelOfModels name)).isSome)
    (hpast : ∀ p ∈ past, p.2 < commits.length) : Backed commits name past :=
  ⟨commits.length, Nat.le_refl _, by rwa [CommitLog.mapAt_of_length_le (Nat.le_refl _)],
    fun _ hi => hpast _ hi⟩

-- A lookup that has found a model found one that is built in, or that was stored once what was
-- over had been done.
def Rests (commits : CommitLog) (l : Lookup) : Prop :=
  Model.isBuiltIn l.name = true ∨ Backed commits l.name l.past

-- A model that was read is good for the cache as long as its generation is not past.
def Founded (x : Bureau) (l : Lookup) : Prop :=
  match l.stage with
  | .missed => True
  | .noted generation => generation ≤ x.cache.generation l.name
  | .compiled generation model => model.id = l.name ∧ generation ≤ x.cache.generation l.name ∧
    Backed x.commits l.name l.past ∧
      (generation = x.cache.generation l.name → Backed x.commits l.name x.past)
  | .found _ => Rests x.commits l

-- The writer of a number has looked up a model.
def Knows (x : Bureau) (n : Nat) (name : String) : Prop :=
  ∃ l, x.grounds.get? n = some l ∧ l.name = name

structure Sound (kind : BackendKind) (x : Bureau) : Prop where
  office : x.office.Sound kind
  filed : x.office.Filed
  named : x.office.Jobs Job.Named
  past : ∀ p ∈ x.past, p.2 < x.commits.length
  -- what is in the cache was stored after all changes that are over
  cached : ∀ name model, x.cache.get? name = some model → Backed x.commits name x.past
  lookups : ∀ l ∈ x.lookups, l.past ⊆ x.past ∧ x.Founded l
  grounds : ∀ n l, x.grounds.get? n = some l → Rests x.commits l
  -- writers have looked up the models of their documents
  writers : ∀ n w, x.office.writers.get? n = some w → x.Knows n w.job.model
  clients : ∀ (i : Nat) commit e, x.commits[i]? = some commit → x.office.log[i]? = some e →
    x.Knows commit.client e.job.model

theorem Rests.mono {l : Lookup} (h : Rests commits l) (hlater : commits <+: later) :
    Rests later l :=
  h.imp_right (·.mono hlater)

theorem Founded.mono {l : Lookup} (h : x.Founded l) (hpast : y.past = x.past)
    (hgeneration : ∀ name, y.cache.generation name = x.cache.generation name)
    (hcommits : x.commits <+: y.commits) : y.Founded l := by
  obtain ⟨name, past, stage⟩ := l
  cases stage with
  | missed => trivial
  | noted generation =>
      simp only [Founded, hgeneration] at h ⊢
      exact h
  | compiled generation model =>
      simp only [Founded, hgeneration, hpast] at h ⊢
      exact ⟨h.1, h.2.1, h.2.2.1.mono hcommits, fun heq => (h.2.2.2 heq).mono hcommits⟩
  | found model => exact Rests.mono h hcommits

-- A generation that was noted is past once the model was given up.
theorem Founded.invalidate {l : Lookup} (h : x.Founded l) {id : String} {i : Nat} :
    Founded { x with cache := x.cache.invalidate id, past := x.past ++ [(id, i)] } l := by
  obtain ⟨name, past, stage⟩ := l
  cases stage with
  | missed => trivial
  | noted generation =>
      simp only [Founded, ModelCache.generation_invalidate] at h ⊢
      split <;> omega
  | compiled generation model =>
      simp only [Founded, ModelCache.generation_invalidate] at h ⊢
      obtain ⟨hid, hle, hbacked, hfresh⟩ := h
      split
      · exact ⟨hid, by omega, hbacked, fun heq => by omega⟩
      · next hne => exact ⟨hid, hle, hbacked, fun heq => (hfresh heq).other hne⟩
  | found model => exact h

namespace Sound

theorem start : (start kind).Sound kind where
  office := .start
  filed i e commit he := by simp [Bureau.start, Office.start] at he
  named := ⟨fun n w hw => by simp [Bureau.start, Office.start] at hw,
    fun e he => by simp [Bureau.start, Office.start] at he⟩
  past p hp := by simp [Bureau.start] at hp
  cached name model h := by simp [Bureau.start, ModelCache.get?, ModelCache.empty] at h
  lookups l hl := by simp [Bureau.start] at hl
  grounds n l hl := by simp [Bureau.start] at hl
  writers n w hw := by simp [Bureau.start, Office.start] at hw
  clients i commit e _ he := by simp [Bureau.start, Office.start] at he

-- What is done at the office has nothing to do with lookups, unless somebody begins to write.
theorem office_step (h : x.Sound kind) (event : Event)
    (hquiet : ∀ job signal stop, event ≠ .take job signal stop) :
    ({ x with office := x.office.step event } : Bureau).Sound kind := by
  have hcommits : x.commits <+: ({ x with office := x.office.step event } : Bureau).commits :=
    x.office.commits_step event
  exact {
    office := h.office.step event
    filed := h.filed.step h.office event
    named := h.named.step event (fun job signal stop heq => absurd heq (hquiet job signal stop))
    past := fun p hp => Nat.lt_of_lt_of_le (h.past p hp) hcommits.length_le
    cached := fun name model hmodel => (h.cached name model hmodel).mono hcommits
    lookups := fun l hl => (h.lookups l hl).imp_right (·.mono rfl (fun _ => rfl) hcommits)
    grounds := fun n l hl => (h.grounds n l hl).mono hcommits
    writers := fun n w' hw' => by
      rcases Office.writer_of_step event hw' with ⟨w, hw, hjob⟩ | ⟨signal, stop, hevent, -⟩
      · exact hjob ▸ h.writers n w hw
      · exact absurd hevent (hquiet _ signal stop)
    clients := fun i commit e hcommit he => by
      rcases h.office.step_cases event with ⟨hlog, hsame⟩ | ⟨e', commit', hc⟩
      · rw [hlog] at he
        simp only [Bureau.commits, hsame] at hcommit
        exact h.clients i commit e hcommit he
      · rw [hc.log] at he
        simp only [Bureau.commits, hc.commits] at hcommit
        have hlength := h.office.booked.length_eq
        rcases Nat.lt_trichotomy i x.office.log.length with hlt | rfl | hgt
        · rw [List.getElem?_append_left hlt] at he
          rw [List.getElem?_append_left (hlength ▸ hlt)] at hcommit
          exact h.clients i commit e hcommit he
        · obtain rfl : e' = e := by simpa using he
          obtain rfl : commit' = commit := by simpa [hlength] using hcommit
          obtain ⟨w, hw, hjob⟩ := hc.writer
          exact hjob ▸ h.writers _ w hw
        · rw [List.getElem?_eq_none (by simp; omega)] at he
          cases he }

theorem advance (h : x.Sound kind) {k : Nat} {stage : LookupStage}
    (hstage : ∀ l, x.lookups[k]? = some l → x.Founded { l with stage := stage }) :
    (x.advance k stage).Sound kind where
  office := h.office
  filed := h.filed
  named := h.named
  past := h.past
  cached := h.cached
  lookups l hl := by
    obtain ⟨i, hi⟩ := List.mem_iff_getElem?.mp hl
    rw [Bureau.advance, List.getElem?_modify] at hi
    obtain ⟨old, hold, rfl⟩ := Option.map_eq_some_iff.mp hi
    have hlookup := h.lookups old (List.mem_of_getElem? hold)
    split
    · next heq => exact ⟨hlookup.1, hstage old (heq ▸ hold)⟩
    · exact hlookup
  grounds := h.grounds
  writers := h.writers
  clients := h.clients

theorem glance (h : x.Sound kind) (name : String) : x.Founded ⟨name, x.past, x.glance name⟩ := by
  unfold Bureau.glance
  split
  · next model hbuiltIn =>
    unfold Model.builtIn? at hbuiltIn
    split at hbuiltIn
    · next hname => exact .inl hname
    · cases hbuiltIn
  · split
    · next model hmodel => exact .inr (h.cached name model hmodel)
    · trivial

theorem ask (h : x.Sound kind) (name : String) : (x.ask name).Sound kind where
  office := h.office
  filed := h.filed
  named := h.named
  past := h.past
  cached := h.cached
  lookups l hl := by
    rcases List.mem_append.mp hl with hl | hl
    · exact h.lookups l hl
    · rw [List.mem_singleton.mp hl]
      exact ⟨List.Subset.refl _, h.glance name⟩
  grounds := h.grounds
  writers := h.writers
  clients := h.clients

theorem note (h : x.Sound kind) (k : Nat) : (x.note k).Sound kind := by
  unfold Bureau.note
  split
  · next name past hk =>
    refine h.advance (fun l hl => ?_)
    obtain rfl := Option.some.inj (hk.symm.trans hl)
    exact Nat.le_refl _
  · exact h

-- What a reader finds was stored once what is over had been done.
theorem consult (h : x.Sound kind) (k : Nat) (signal : Signal) :
    (x.consult k signal).Sound kind := by
  unfold Bureau.consult
  split
  · next name past generation hk =>
    have hreading := h.office_step (.look .read) (fun _ _ _ => by simp)
    have hleft := hreading.office_step (.leave x.office.course.session.seats.length)
      (fun _ _ _ => by simp)
    have hcommits := (x.office.commits_step (.look .read)).trans
      ((x.office.step (.look .read)).commits_step (.leave x.office.course.session.seats.length))
    obtain ⟨hpast, hgeneration⟩ := h.lookups _ (List.mem_of_getElem? hk)
    simp only
    split
    · next doc hdoc =>
      have hstored := (h.office.reads signal).stored? hdoc
      split
      · next model hmodel =>
        refine hleft.advance (fun l hl => ?_)
        obtain rfl := Option.some.inj (hk.symm.trans hl)
        have hid : model.id = name := (Model.id_of_ofDocument hmodel).trans
          (h.office.recorded.id_of_stored? h.named.log hstored)
        have hbacked := (backed_current (Store.isSome_of_stored? hstored) h.past).mono hcommits
        exact ⟨hid, hgeneration, hbacked.subset hpast, fun _ => hbacked⟩
      · exact hleft
    · exact hleft
  · exact h

theorem keep (h : x.Sound kind) (k : Nat) : (x.keep k).Sound kind := by
  unfold Bureau.keep
  split
  · next name past generation model hk =>
    obtain ⟨hpast, hid, hgeneration, hbacked, hfresh⟩ := h.lookups _ (List.mem_of_getElem? hk)
    simp only at hpast hid hgeneration hbacked hfresh
    have hkept : Sound kind { x with cache := (x.cache.insert model generation).2 } := {
      office := h.office
      filed := h.filed
      named := h.named
      past := h.past
      cached := fun name' model' hmodel => by
        rcases ModelCache.get?_insert hmodel with hold | ⟨-, rfl, hcurrent⟩
        · exact h.cached name' model' hold
        · rw [hid] at hcurrent ⊢
          exact hfresh hcurrent.symm
      lookups := fun l hl => (h.lookups l hl).imp_right
        (·.mono rfl (x.cache.generation_insert model generation) List.prefix_rfl)
      grounds := h.grounds
      writers := h.writers
      clients := h.clients }
    refine hkept.advance (fun l hl => .inr ?_)
    obtain rfl := Option.some.inj (hk.symm.trans hl)
    exact hbacked
  · exact h

-- A writer begins with a handle that no writer has had before.
theorem enlist (h : x.Sound kind) {l : Lookup} {job : Job} (hrests : Rests x.commits l)
    (hnamed : job.Named) (hname : l.name = job.model) (signal : Signal) (stop : Error) :
    (x.enlist l job signal stop).Sound kind := by
  have hlog : (x.office.take job signal stop).log = x.office.log := Office.log_take ..
  have hsame : (x.enlist l job signal stop).commits = x.commits :=
    h.office.commits_eq (.take job signal stop) hlog
  have hcommits : x.commits <+: (x.enlist l job signal stop).commits := hsame ▸ List.prefix_rfl
  have hkeeps : ∀ {n name}, n < x.office.course.session.seats.length → x.Knows n name →
      (x.enlist l job signal stop).Knows n name := by
    rintro n _ hlt ⟨l', hl', rfl⟩
    refine ⟨l', ?_, rfl⟩
    rw [Bureau.enlist, SortedMap.get?_insert, if_neg (by omega), hl']
  exact {
    office := h.office.take job signal stop
    filed := h.filed.step h.office (.take job signal stop)
    named := h.named.step (.take job signal stop) (fun job' _ _ heq => by
      cases heq
      exact hnamed)
    past := fun p hp => Nat.lt_of_lt_of_le (h.past p hp) hcommits.length_le
    cached := fun name model hmodel => (h.cached name model hmodel).mono hcommits
    lookups := fun l hl => (h.lookups l hl).imp_right (·.mono rfl (fun _ => rfl) hcommits)
    grounds := fun n l' hl' => by
      rw [Bureau.enlist, SortedMap.get?_insert] at hl'
      split at hl'
      · obtain rfl := Option.some.inj hl'
        exact hrests.mono hcommits
      · exact (h.grounds n l' hl').mono hcommits
    writers := fun n w' hw' => by
      rcases Office.writer_of_step (.take job signal stop) hw' with
        ⟨w, hw, hjob⟩ | ⟨_, _, hevent, hopened⟩
      · exact hkeeps (h.office.lt_of_writer hw) (hjob ▸ h.writers n w hw)
      · obtain rfl : job = w'.job := by
          cases hevent
          rfl
        refine ⟨l, ?_, hname⟩
        rw [Bureau.enlist, SortedMap.get?_insert, if_pos (Office.eq_of_opened hopened).symm]
    clients := fun i commit e hcommit he => by
      rw [hsame] at hcommit
      rw [Bureau.enlist, hlog] at he
      exact hkeeps (h.filed.lt_of_client h.office he hcommit) (h.clients i commit e hcommit he) }

theorem take (h : x.Sound kind) (k : Nat) (job : Model → Job) (signal : Signal) (stop : Error) :
    (x.take k job signal stop).Sound kind := by
  unfold Bureau.take
  split
  · next name past model hk =>
    split
    · next hnamed =>
      split
      · next hname =>
        exact h.enlist (h.lookups _ (List.mem_of_getElem? hk)).2 hnamed hname.symm signal stop
      · exact h
    · exact h
  · exact h

theorem invalidate (h : x.Sound kind) (i : Nat) : (x.invalidate i).Sound kind := by
  unfold Bureau.invalidate
  split
  · next e he =>
    split
    · next hmodel =>
      have hi : i < x.commits.length := by
        have hlength := h.office.booked.length_eq
        obtain ⟨hlt, -⟩ := List.getElem?_eq_some_iff.mp he
        exact hlength ▸ hlt
      have hmore : x.past ⊆ x.past ++ [(e.job.id, i)] := List.subset_append_left _ _
      exact {
        office := h.office
        filed := h.filed
        named := h.named
        past := fun p hp => by
          rcases List.mem_append.mp hp with hp | hp
          · exact h.past p hp
          · rw [List.mem_singleton.mp hp]
            exact hi
        cached := fun name model hcached => by
          rw [ModelCache.get?_invalidate] at hcached
          split at hcached
          · cases hcached
          · next hne => exact (h.cached name model hcached).other hne
        lookups := fun l hl => by
          obtain ⟨hpast, hfounded⟩ := h.lookups l hl
          exact ⟨List.Subset.trans hpast hmore, hfounded.invalidate⟩
        grounds := h.grounds
        writers := h.writers
        clients := h.clients }
    · exact h
  · exact h

theorem step (h : x.Sound kind) (errand : Errand) : (x.step errand).Sound kind := by
  cases errand with
  | ask name => exact h.ask name
  | note k => exact h.note k
  | consult k signal => exact h.consult k signal
  | keep k => exact h.keep k
  | put k encoding ctx doc signal stop => exact h.take k _ signal stop
  | delete k ctx model id signal stop => exact h.take k _ signal stop
  | invalidate i => exact h.invalidate i
  | work n signal verdict now =>
      exact h.office_step (.work n signal verdict now) (fun _ _ _ => by simp)
  | commit n signal => exact h.office_step (.commit n signal) (fun _ _ _ => by simp)
  | leave n => exact h.office_step (.leave n) (fun _ _ _ => by simp)
  | look call => exact h.office_step (.look call) (fun _ _ _ => by simp)

end Sound

theorem sound_run (kind : BackendKind) (errands : List Errand) :
    (run kind errands).Sound kind := by
  induction errands using List.reverseRecOn with
  | nil => exact Sound.start
  | append_singleton errands errand ih =>
      rw [run_append]
      exact ih.step errand

end Bureau

end DocStore
