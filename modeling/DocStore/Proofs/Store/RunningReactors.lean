import DocStore.Proofs.Store.Conformance
import DocStore.Proofs.Store.Lookups

-- Which reactors run, and what they were started from.
namespace DocStore

namespace Registry

variable {σ : Type} {host : Host σ} {encoding : Encoding} {running : SortedMap String Reactor}
  {map : SortedMap Bytes Bytes} {id : String}

-- A document that sets up a reactor does not name the built-in one.
theorem prepare_ok {r r' : Registry} {doc : Document} {s s' : σ} {inst : Instance}
    (h : r.prepare host doc s = (.ok inst, r', s')) :
    inst.source = doc ∧ doc.id ≠ immutableId := by
  unfold prepare at h
  split at h
  · cases h
  · next kind hkind =>
    have hid : doc.id ≠ immutableId := by
      unfold kindOf at hkind
      split at hkind
      · cases hkind
      · next hbuiltIn => simpa [isBuiltIn] using hbuiltIn
    split at h
    · cases h
    · simp only at h
      split at h <;> cases h
      exact ⟨rfl, hid⟩

-- What runs under an id, and the record that is stored under it. What is stored has the body that
-- was asked for by the document that the reactor was started from.
inductive Matches (encoding : Encoding) (id : String) : Option Reactor → Option Bytes → Prop where
  | absent (hid : id ≠ immutableId) : Matches encoding id none none
  | builtIn (hid : id = immutableId) : Matches encoding id (some .immutable) none
  | running (inst : Instance) (old : Option Document) (new : Document) (hid : id ≠ immutableId)
      (source : inst.source.model = modelOfReactors ∧ inst.source.id = id) (named : new.id = id)
      (body : Store.newBody (Model.bare modelOfReactors) inst.source old = .ok new.val) :
      Matches encoding id (some (.started inst)) (some (Record.encode encoding new))

theorem Matches.of_stored {reactor : Option Reactor} {record : Bytes}
    (h : Matches encoding id reactor (some record)) :
    id ≠ immutableId ∧ reactor.isSome ∧
      ∃ new, record = Record.encode encoding new ∧ new.id = id := by
  cases h with
  | running inst old new hid _ named _ => exact ⟨hid, rfl, new, rfl, named⟩

-- The reactors that run are those whose documents are stored.
def Mirrors (encoding : Encoding) (running : SortedMap String Reactor)
    (map : SortedMap Bytes Bytes) : Prop :=
  ∀ id, Matches encoding id (running.get? id) (map.get? (Key.document modelOfReactors id))

namespace Mirrors

theorem new : Mirrors encoding Registry.new.running SortedMap.empty := by
  intro id
  rw [Registry.new, SortedMap.get?_insert, SortedMap.get?_empty, SortedMap.get?_empty]
  split
  · next heq => exact .builtIn heq.symm
  · next hne => exact .absent (Ne.symm hne)

variable {e : Entry} {before after : SortedMap Bytes Bytes}

-- Changes of other documents are no business of the reactors.
theorem other (h : Mirrors encoding running before) (ht : e.Turns before after)
    (hne : e.job.model ≠ modelOfReactors) : Mirrors encoding running after := by
  intro id
  rw [ht.get?_other (fun hown => hne hown.1.symm)]
  exact h id

theorem installed (h : Mirrors encoding running before) (ht : e.Turns before after)
    (hmodel : e.job.model = modelOfReactors) {inst : Instance} {old : Option Document}
    {new : Document} (hnew : e.change.new = some new)
    (hrecord : e.job.record new = Record.encode encoding new) (hid : e.job.id ≠ immutableId)
    (hsource : inst.source.model = modelOfReactors ∧ inst.source.id = e.job.id)
    (hbody : Store.newBody (Model.bare modelOfReactors) inst.source old = .ok new.val) :
    Mirrors encoding (running.insert e.job.id (.started inst)) after := by
  intro id
  rw [SortedMap.get?_insert]
  by_cases hown : e.job.id = id
  · subst hown
    have hstored : after.get? (Key.document modelOfReactors e.job.id) =
        some (Record.encode encoding new) := by
      rw [← hmodel, show Key.document e.job.model e.job.id = e.job.key from rfl, ht.get?_own, hnew,
        Option.map_some, hrecord]
    obtain ⟨-, hnamed⟩ : new.model = e.job.model ∧ new.id = e.job.id := by
      obtain ⟨base, writes, hprepares, -⟩ := ht
      exact hprepares.makes.new_eq hnew
    rw [if_pos rfl, hstored]
    exact .running inst old new hid hsource hnamed hbody
  · rw [if_neg hown, ht.get?_other (fun hsame => hown hsame.2.symm)]
    exact h id

theorem removed (h : Mirrors encoding running before) (ht : e.Turns before after)
    (hmodel : e.job.model = modelOfReactors) (hgone : e.change.new = none)
    (hid : e.job.id ≠ immutableId) : Mirrors encoding (running.erase e.job.id) after := by
  intro id
  rw [SortedMap.get?_erase]
  by_cases hown : e.job.id = id
  · subst hown
    have hunstored : after.get? (Key.document modelOfReactors e.job.id) = none := by
      rw [← hmodel, show Key.document e.job.model e.job.id = e.job.key from rfl, ht.get?_own, hgone,
        Option.map_none]
    rw [if_pos rfl, hunstored]
    exact .absent hid
  · rw [if_neg hown, ht.get?_other (fun hsame => hown hsame.2.symm)]
    exact h id

theorem running_of_record (h : Mirrors encoding running map)
    (hrecord : (map.get? (Key.document modelOfReactors id)).isSome) :
    id ≠ immutableId ∧ (running.get? id).isSome := by
  obtain ⟨record, hrecord⟩ := Option.isSome_iff_exists.mp hrecord
  obtain ⟨hid, hrunning, -⟩ := (hrecord ▸ h id).of_stored
  exact ⟨hid, hrunning⟩

-- A reactor whose document is read runs under the id that the document carries.
theorem running_of_stored (h : Mirrors encoding running map)
    (hnamed : Identifier.checkPath modelOfReactors id = .ok ()) {stored : Document}
    (hstored : Store.stored? modelOfReactors id (View.ofMap map) = .ok (some stored)) :
    (running.get? stored.id).isSome := by
  have hmatches := h id
  rw [Store.stored?_ofMap] at hstored
  cases hrecord : map.get? (Key.document modelOfReactors id) with
  | none =>
      rw [hrecord] at hstored
      cases hstored
  | some record =>
      rw [hrecord] at hstored hmatches
      obtain ⟨-, hrunning, new, rfl, hid⟩ := hmatches.of_stored
      cases hdecode : Record.decode (Record.encode encoding new) with
      | error fault => simp [hdecode, Except.map] at hstored
      | ok found =>
          obtain rfl : found = stored := by simpa [hdecode, Except.map] using hstored
          obtain ⟨_, -, hcheck⟩ := bind_eq_ok_iff.mp hnamed
          have hlength := Identifier.length_le_of_check hcheck
          rw [← hid] at hlength
          rw [(Record.id_of_decode (Nat.lt_of_le_of_lt hlength (by decide)) hdecode).trans hid]
          exact hrunning

end Mirrors

end Registry

namespace Store

variable {σ α : Type} {store : Store σ} {ctx : Context} {doc : Document} {model : Model}
  {w w' : World σ}

section Reactors

theorem keeps_transact (host : Host σ) (ctx : Context)
    (openKv : Kv → Signal → Error → Except Error Handle × Kv) (body : Attempt α)
    (changes : α → Bool) :
    Action.Keeps World.SameReactors (transact host ctx openKv body changes) :=
  fun _ => congrArg Registry.running (registry_transact (Prod.eta _).symm)

-- A document is written by the reactors that run, and so is its deletion.
theorem keeps_write (store : Store σ) (ctx : Context) (model : Model) (doc : Document) :
    Action.Keeps World.SameReactors (write store ctx model doc) := by
  rw [write_eq]
  exact keeps_retrying World.passing_sameReactors.toElapsing (keeps_transact _ _ _ _ _) _ _ _

theorem keeps_erase (store : Store σ) (ctx : Context) (target : Model) (model id : String) :
    Action.Keeps World.SameReactors (erase store ctx target model id) :=
  keeps_retrying World.passing_sameReactors.toElapsing (keeps_transact _ _ _ _ _) _ _ _

-- What a put sets up before it writes: a document of a reactor gets one ready.
def Sets (doc : Document) (prepared : Option Instance) : Prop :=
  (doc.model ≠ modelOfReactors ∧ prepared = none) ∨
    ∃ inst, doc.model = modelOfReactors ∧ prepared = some inst ∧ inst.source = doc ∧
      doc.id ≠ Registry.immutableId

theorem sets_of_accept {prepared : Option Instance}
    (h : accept store ctx doc w = (.ok (prepared, model), w')) : Sets doc prepared := by
  obtain ⟨_, _, -, h⟩ := Action.ok_of_bind h
  obtain ⟨_, _, -, h⟩ := Action.ok_of_bind h
  obtain ⟨prepared', _, hprepared, h⟩ := Action.ok_of_bind h
  obtain ⟨model', _, -, h⟩ := Action.ok_of_bind h
  obtain rfl : prepared' = prepared := by
    split at h
    · obtain ⟨_, _, -, h⟩ := Action.ok_of_bind h
      cases h
      rfl
    · cases h
      rfl
  unfold prepare at hprepared
  split at hprepared
  · next hmodels =>
    have hmodels : doc.model = modelOfModels := by simpa using hmodels
    obtain ⟨_, _, -, h⟩ := Action.ok_of_bind hprepared
    obtain ⟨_, _, -, h⟩ := Action.ok_of_bind h
    obtain ⟨_, _, -, h⟩ := Action.ok_of_bind h
    cases h
    exact .inl ⟨by rw [hmodels]; decide, rfl⟩
  · split at hprepared
    · next hreactors =>
      obtain ⟨started, w₁, hstarted, h⟩ := Action.ok_of_bind hprepared
      cases started with
      | error fault => cases h
      | ok inst =>
          cases h
          obtain ⟨hsource, hid⟩ := Registry.prepare_ok (Prod.ext
            (Except.ok.inj (congrArg Prod.fst hstarted)) rfl)
          exact .inr ⟨inst, by simpa using hreactors, rfl, hsource, hid⟩
    · next hother =>
      cases hprepared
      exact .inl ⟨by simpa using hother, rfl⟩

-- What follows an announcement is told by the reactors that run.
theorem keeps_announced (store : Store σ) (model : Model) (old new : Option Document)
    (answer : Document) : Action.Keeps World.SameReactors (do
      announce store model old new
      return answer) := by
  have helapsing := (World.passing_sameReactors (σ := σ)).toElapsing
  have hannounced : Action.Keeps World.SameReactors (announce store model old new) :=
    keeps_announce helapsing (fun _ _ => rfl) (fun _ _ => rfl) model old new
  exact .bind helapsing hannounced (fun _ => .pure helapsing answer)

theorem running_install (registry : Registry) (host : Host σ) (id : String) (inst : Instance)
    (s : σ) : (registry.install host id inst s).1.running =
      registry.running.insert id (.started inst) := by
  unfold Registry.install
  split <;> rfl

theorem running_remove {registry : Registry} {id : String} (host : Host σ) (s : σ)
    (hid : id ≠ Registry.immutableId) (hrunning : registry.isRunning id = true) :
    (registry.remove host id s).2.1.running = registry.running.erase id := by
  unfold Registry.remove
  rw [if_neg (by simpa [Registry.isBuiltIn] using hid)]
  unfold Registry.isRunning at hrunning
  split
  · rfl
  · next hnone => simp [hnone] at hrunning

variable {prepared : Option Instance}

-- A reactor that got ready in vain does not run.
theorem sameReactors_of_unchanged {stored : Document}
    (h : prepared = none ∨ w.registry.isRunning stored.id = true) :
    w.SameReactors (conclude store model prepared (.unchanged stored) w).2 := by
  have hdone : Action.Keeps World.SameReactors (pure stored : Action σ Document) :=
    .pure World.passing_sameReactors.toElapsing stored
  have hdiscard : Action.Keeps World.SameReactors (do
      discard store prepared
      return stored) :=
    .bind World.passing_sameReactors.toElapsing (keeps_discard World.passing_sameReactors prepared)
      (fun _ => hdone)
  have heq : conclude store model prepared (.unchanged stored) w =
      (if w.registry.isRunning stored.id then do
        discard store prepared
        return stored
      else do
        install store stored.id prepared
        return stored : Action σ Document) w := rfl
  rw [heq]
  rcases h with rfl | hrunning
  · split
    · exact hdiscard w
    · exact hdone w
  · rw [if_pos hrunning]
    exact hdiscard w

-- A reactor runs as soon as its document is written.
theorem running_of_written {old : Option Document} {new : Document}
    (h : prepared.isSome → new.model = modelOfReactors) :
    (conclude store model prepared (.written old new) w).2.registry.running =
      match prepared with
      | some inst => w.registry.running.insert new.id (.started inst)
      | none => w.registry.running := by
  have hannounced := keeps_announced store model old (some new) new
  simp only [conclude]
  split
  · next hmodels =>
    obtain rfl : prepared = none := by
      rcases prepared with _ | inst
      · rfl
      · have hreactors := h rfl
        simp [hreactors, modelOfModels, modelOfReactors] at hmodels
    exact hannounced _
  · split
    · cases prepared with
      | none => exact hannounced w
      | some inst =>
          exact (hannounced _).trans (running_install w.registry store.host new.id inst _)
    · next hother =>
      obtain rfl : prepared = none := by
        rcases prepared with _ | inst
        · rfl
        · have hreactors := h rfl
          simp [hreactors] at hother
      exact hannounced w

-- A reactor whose document is deleted does not run any more.
theorem running_of_withdraw (target : Model) (id : String) (old : Document)
    (hid : id ≠ Registry.immutableId) (hrunning : w.registry.isRunning id = true) :
    (withdraw store target modelOfReactors id old w).2.registry.running =
      w.registry.running.erase id := by
  refine (keeps_announced store target (some old) none old _).trans ?_
  exact running_remove store.host w.site.host hid hrunning

theorem sameReactors_of_withdraw (target : Model) {model : String} (id : String) (old : Document)
    (hmodel : model ≠ modelOfReactors) :
    w.SameReactors (withdraw store target model id old w).2 := by
  have hannounced := keeps_announced store target (some old) none old
  simp only [withdraw]
  split
  · exact hannounced _
  · rw [if_neg (by simpa using hmodel)]
    exact hannounced w

end Reactors

end Store

-- The storage has been through some changes, and the reactors that run are those whose documents
-- they have left.
def World.Mirrored {σ : Type} (encoding : Encoding) (w : World σ) : Prop :=
  ∃ log map, w.site.kv.Holds log map ∧ Registry.Mirrors encoding w.registry.running map

theorem World.SameReactors.mirrors {σ : Type} {encoding : Encoding} {w w' : World σ}
    {map : SortedMap Bytes Bytes} (hsame : w.SameReactors w')
    (h : Registry.Mirrors encoding w.registry.running map) :
    Registry.Mirrors encoding w'.registry.running map := by
  rw [show w'.registry.running = w.registry.running from hsame]
  exact h

-- Nothing is committed, and the same reactors are running.
def World.Idles {σ : Type} (w w' : World σ) : Prop :=
  w.SameReactors w' ∧ ∀ log map, w.site.kv.Holds log map → w'.site.kv.Holds log map

theorem World.passing_idles {σ : Type} : Passing (Idles (σ := σ)) :=
  passing_sameReactors.and passing_preserves

theorem World.Mirrored.idles {σ : Type} {encoding : Encoding} {w w' : World σ}
    (h : w.Mirrored encoding) (hidles : w.Idles w') : w'.Mirrored encoding := by
  obtain ⟨log, map, hholds, hmirrors⟩ := h
  obtain ⟨hsame, hkeeps⟩ := hidles
  exact ⟨log, map, hkeeps log map hholds, hsame.mirrors hmirrors⟩

namespace Store

variable {σ : Type} {store : Store σ} {ctx : Context} {doc : Document} {model : Model}
  {w w' : World σ} {log : List Entry} {map : SortedMap Bytes Bytes}

-- What is stored of a reactor has the body that was asked for. No reactor checks it.
theorem newBody_of_turns {old : Option Document} {new : Document}
    {answer : Option (Option Document)} {after : SortedMap Bytes Bytes}
    (haccepted : Accepted doc model) (hmodel : doc.model = modelOfReactors)
    (ht : Entry.Turns ⟨.put store.config.encoding ctx model doc, answer, ⟨old, some new⟩⟩ map
      after) : newBody (Model.bare modelOfReactors) doc old = .ok new.val := by
  have hbare : model = Model.bare modelOfReactors :=
    haccepted.builtIn _ (by rw [hmodel]; rfl)
  obtain ⟨base, writes, hprepares, -⟩ := ht
  obtain ⟨-, val, now, verdict, hval, hunchecked, -, hnew⟩ := hprepares.makes
  subst hbare
  rw [hunchecked rfl] at hnew
  rw [show new = reviewed (candidate doc old val now) (some (candidate doc old val now)) from
    Option.some.inj hnew]
  exact hval

variable {prepared : Option Instance} {encoding : Encoding}

theorem mirrored_unchanged (hrests : store.host.Rests) (hholds : w.site.kv.Holds log map)
    (hmirrors : Registry.Mirrors encoding w.registry.running map) (haccepted : Accepted doc model)
    (hsets : Sets doc prepared) {stored : Document}
    (hstored : stored? doc.model doc.id (View.ofMap map) = .ok (some stored)) :
    (conclude store model prepared (.unchanged stored) w).2.Mirrored encoding := by
  have hkv := (answers_conclude hrests model prepared (.unchanged stored) w).2
  refine ⟨log, map, hkv ▸ hholds, (sameReactors_of_unchanged ?_).mirrors hmirrors⟩
  refine hsets.imp And.right (fun ⟨_, hmodel, _⟩ => ?_)
  have hnamed := haccepted.named
  rw [hmodel] at hnamed hstored
  exact hmirrors.running_of_stored hnamed hstored

theorem mirrored_written (hrests : store.host.Rests)
    (hmirrors : Registry.Mirrors store.config.encoding w.registry.running map)
    (haccepted : Accepted doc model) (hsets : Sets doc prepared) {old : Option Document}
    {new : Document} (hafter : w.site.kv.HoldsAfter log map
      (.put store.config.encoding ctx model doc) (some ⟨old, some new⟩)) :
    (conclude store model prepared (.written old new) w).2.Mirrored store.config.encoding := by
  obtain ⟨answer, after, hturns, hholds⟩ := hafter
  obtain ⟨hnewModel, hnewId⟩ : new.model = doc.model ∧ new.id = doc.id := by
    obtain ⟨base, writes, hprepares, -⟩ := hturns
    exact hprepares.makes.new_eq rfl
  have hkv := (answers_conclude hrests model prepared (.written old new) w).2
  refine ⟨_, after, hkv ▸ hholds, ?_⟩
  rcases hsets with ⟨hother, rfl⟩ | ⟨inst, hmodel, rfl, hsource, hid⟩
  · rw [running_of_written (by simp)]
    exact hmirrors.other hturns hother
  · rw [running_of_written (fun _ => hnewModel.trans hmodel), hnewId]
    exact hmirrors.installed hturns hmodel rfl rfl hid ⟨hsource ▸ hmodel, hsource ▸ rfl⟩
      (hsource ▸ newBody_of_turns haccepted hmodel hturns)

theorem mirrored_put (hspares : store.host.Spares) (hrests : store.host.Rests)
    (hw : w.Mirrored store.config.encoding) (ctx : Context) (doc : Document) :
    (put store ctx doc w).2.Mirrored store.config.encoding := by
  obtain ⟨log, map, hholds, hmirrors⟩ := hw
  rcases hput : put store ctx doc w with ⟨e | d, w'⟩
  · have hends := put_ends hspares hrests ctx doc hholds
    rw [hput] at hends
    refine ⟨log, map, (hends.refused e rfl).1, World.SameReactors.mirrors ?_ hmirrors⟩
    exact put_failed World.passing_sameReactors
      (fun model _ _ _ => (keeps_write store ctx model doc).of_eq) hput
  · obtain ⟨prepared, model, w₁, outcome, w₂, haccept, hwrite, rfl, hconclude⟩ := phases_of_put hput
    have haccepted := accepted_of_accept (congrArg Prod.fst haccept)
    have hsets := sets_of_accept haccept
    obtain ⟨hsame₁, hkeeps⟩ := (keeps_accept World.passing_idles store ctx doc).of_eq haccept
    have hsame₂ := (keeps_write store ctx model doc).of_eq hwrite
    have hends := write_ends hspares ctx model doc (hkeeps log map hholds)
    rw [hwrite] at hends
    obtain ⟨⟨writes, verdict, hputs⟩, hafter⟩ := hends
    have hmirrors₂ := hsame₂.mirrors (hsame₁.mirrors hmirrors)
    rw [← show (conclude store model prepared outcome w₂).2 = w' from congrArg Prod.snd hconclude]
    cases outcome with
    | unchanged stored => exact mirrored_unchanged hrests hafter hmirrors₂ haccepted hsets hputs
    | written old new => exact mirrored_written hrests hmirrors₂ haccepted hsets hafter

theorem mirrored_delete (hspares : store.host.Spares) (hrests : store.host.Rests)
    (hw : w.Mirrored store.config.encoding) (ctx : Context) (model id : String) :
    (delete store ctx model id w).2.Mirrored store.config.encoding := by
  obtain ⟨log, map, hholds, hmirrors⟩ := hw
  have hends := delete_ends hspares hrests ctx model id hholds
  rcases hdelete : delete store ctx model id w with ⟨e | d, w'⟩
  · rw [hdelete] at hends
    refine ⟨log, map, hends.refused e rfl, World.SameReactors.mirrors ?_ hmirrors⟩
    exact delete_failed World.passing_sameReactors.toElapsing
      (fun _ _ _ _ hrun => congrArg Registry.running (registry_transact hrun)) hdelete
  · rw [hdelete] at hends
    obtain ⟨target, answer, after, hturns, hafter⟩ := hends.answered d rfl
    obtain ⟨target, w₁, w₂, hlocate, herase, hwithdraw⟩ := phases_of_delete hdelete
    have hsame₁ := (keeps_locate World.passing_sameReactors.toElapsing ctx model id).of_eq hlocate
    have hsame₂ := (keeps_erase store ctx target model id).of_eq herase
    have hmirrors₂ := World.SameReactors.mirrors hsame₂ (World.SameReactors.mirrors hsame₁ hmirrors)
    refine ⟨_, after, hafter, ?_⟩
    rw [← show (withdraw store target model id d w₂).2 = w' from congrArg Prod.snd hwithdraw]
    by_cases hmodel : model = modelOfReactors
    · subst hmodel
      obtain ⟨hid, hrunning⟩ := hmirrors₂.running_of_record (isSome_of_stored? hturns.reads)
      rw [running_of_withdraw target id d hid hrunning]
      exact hmirrors₂.removed hturns rfl rfl hid
    · exact (sameReactors_of_withdraw target id d hmodel).mirrors (hmirrors₂.other hturns hmodel)

theorem mirrored_serve (hspares : store.host.Spares) (hrests : store.host.Rests)
    (hw : w.Mirrored store.config.encoding) (request : Request) :
    (request.serve store w).Mirrored store.config.encoding := by
  cases request with
  | put ctx doc => exact mirrored_put hspares hrests hw ctx doc
  | delete ctx model id => exact mirrored_delete hspares hrests hw ctx model id
  | get ctx model id => exact hw.idles (keeps_get World.passing_idles.toElapsing ctx model id w)
  | search ctx request =>
      exact hw.idles (keeps_search World.passing_idles.toElapsing store ctx request w)

end Store

-- A body that is given as a whole is what is stored.
theorem Store.val_of_newBody {model : Model} {doc : Document} {old : Option Document} {val : Value}
    (h : newBody model doc old = .ok val) (hwhole : doc.mutations = none) : doc.val = val := by
  simpa [newBody, hwhole] using h

-- A reactor runs if and only if its document is stored, and it was started from a document that
-- asked for the body that is stored: it has that body itself, unless it came with changes of the
-- one before.
theorem World.Mirrored.running_iff {σ : Type} {encoding : Encoding} {w : World σ}
    (hw : w.Mirrored encoding) {id : String} (hid : id ≠ Registry.immutableId) :
    (w.registry.isRunning id = true ↔
      ∃ record, w.site.kv.now.get (Key.document modelOfReactors id) = .ok (some record)) ∧
    ∀ reactor, w.registry.get? id = some reactor → ∃ inst old new,
      reactor = .started inst ∧ inst.source.model = modelOfReactors ∧ inst.source.id = id ∧
      w.site.kv.now.get (Key.document modelOfReactors id) =
        .ok (some (Record.encode encoding new)) ∧
      Store.newBody (Model.bare modelOfReactors) inst.source old = .ok new.val ∧
      (inst.source.mutations = none → inst.source.val = new.val) := by
  obtain ⟨log, map, hholds, hmirrors⟩ := hw
  have hmatches := hmirrors id
  rw [hholds.get_now, Registry.isRunning, Registry.get?]
  generalize w.registry.running.get? id = reactor, map.get? _ = record at hmatches
  cases hmatches with
  | absent _ => simp
  | builtIn h => exact absurd h hid
  | running inst old new _ hsource _ hbody =>
      refine ⟨by simp, fun reactor hreactor => ?_⟩
      obtain rfl := Option.some.inj hreactor
      exact ⟨inst, old, new, rfl, hsource.1, hsource.2, rfl, hbody, Store.val_of_newBody hbody⟩

theorem Registry.foldl_register (r : Registry) (kinds : List String) :
    ∃ known, kinds.foldl register r = { r with kinds := known } := by
  induction kinds generalizing r with
  | nil => exact ⟨r.kinds, rfl⟩
  | cons kind rest ih =>
      rw [List.foldl_cons]
      obtain ⟨known, hrest⟩ := ih (r.register kind)
      refine ⟨known, hrest.trans ?_⟩
      unfold register
      split <;> rfl

namespace Store

variable {σ : Type} {store : Store σ} {w : World σ}

theorem mirrored_of_requests (hspares : store.host.Spares) (hrests : store.host.Rests)
    {config : Config} {bus : Option Bus} {now : Time} {s : σ}
    (hstart : World.start config bus now s = .ok w) (kinds : List String)
    (requests : List Request) :
    World.Mirrored store.config.encoding (requests.foldl (fun w request => request.serve store w)
      { w with registry := kinds.foldl Registry.register w.registry }) := by
  induction requests using List.reverseRecOn with
  | nil =>
      obtain ⟨hkv, hregistry, -⟩ := World.of_start hstart
      obtain ⟨known, hknown⟩ := Registry.new.foldl_register kinds
      refine ⟨[], SortedMap.empty, hkv ▸ Kv.Holds.new config.backend, ?_⟩
      simp only [List.foldl_nil, hregistry, hknown]
      exact Registry.Mirrors.new
  | append_singleton requests request ih =>
      rw [List.foldl_append]
      exact mirrored_serve hspares hrests ih request

end Store

namespace Amending

def store : Store Unit := ⟨{ Config.standard with encoding := .messagePack }, Host.none⟩

def world : World Unit :=
  ⟨⟨Kv.new .mvcc, 0, ()⟩, ModelCache.empty, Registry.new.register "probe", TaskQueue.new 0 0, none⟩

def doc : Document :=
  { Document.ofBody modelOfReactors "com.ex.R" (.object [("runtime", .string "probe")]) with
    mutations := some [("delay", .object [("set", .int 3)])] }

end Amending

-- A reactor whose document comes with changes of the stored body is started from the body that
-- comes along with them, and not from what they make of the stored one.
example :
    let done := Amending.store.put .background Amending.doc Amending.world
    done.1.map Document.val = .ok (.object [("delay", .int 3)]) ∧
      done.2.registry.get? "com.ex.R" = some (.started ⟨1, "probe", Amending.doc⟩) := by
  constructor <;> cbv

end DocStore
