import DocStore.Proofs.Store.Refusals

-- What operations may fail with, whatever the storage and the reactors are like.
namespace DocStore

namespace Kv

theorem isConflict_of_bufferAll {h : Handle} {writes : List Write} {e : Error}
    (he : bufferAll h writes = .error e) : e.isConflict = false := by
  induction writes generalizing h with
  | nil => cases he
  | cons w rest ih =>
      rcases bind_eq_error_iff.mp he with hbuffer | ⟨_, -, hrest⟩
      · cases h with
        | multiRead | singleRead =>
            cases hbuffer
            rfl
        | multiWrite txn finished =>
            rcases bind_eq_error_iff.mp hbuffer with hwrite | ⟨_, -, hdone⟩
            · rcases bind_eq_error_iff.mp hwrite with hactive | ⟨_, -, hdone⟩
              · exact isConflict_of_usable (h := .multiWrite txn finished) hactive
              · cases hdone
            · cases hdone
        | singleWrite writes isOpen =>
            cases isOpen <;> cases hbuffer
            rfl
      · exact ih hrest

end Kv

namespace Index

variable {view : View} {model : Model} {doc : Document} {e : IndexEntry} {error : Error}

theorem isConflict_or_taken_of_checkOwner (hview : view.Mild) {owner : Bytes}
    (h : checkOwner view doc e owner = .error error) :
    error.isConflict = false ∨ error = takenError e owner := by
  simp only [checkOwner] at h
  split at h
  · rcases bind_eq_error_iff.mp h with hfailed | ⟨holds, -, hrest⟩
    · exact .inl (isConflict_of_holdsValue hview hfailed)
    · cases holds with
      | false => cases hrest
      | true => exact .inr (Except.error.inj hrest).symm
  · cases h

-- What keeps a document out of the index is no conflict, but for a value that is taken.
theorem isConflict_or_taken_of_add (hview : view.Mild) (h : add view model doc = .error error) :
    error.isConflict = false ∨ ∃ e owner, error = takenError e owner := by
  have howner : ∀ e owner, checkOwner view doc e owner = .error error →
      error.isConflict = false ∨ ∃ e owner, error = takenError e owner :=
    fun e owner hcheck =>
      (isConflict_or_taken_of_checkOwner hview hcheck).imp_right (fun heq => ⟨e, owner, heq⟩)
  have hentries : ∀ e range, checkOwners view doc e (view.entries range) = .error error →
      error.isConflict = false ∨ ∃ e owner, error = takenError e owner := by
    intro e range hcheck
    rcases checkOwners_error hcheck with hm | ⟨_, owner, -, -, hcheck⟩
    · exact .inl (hview _ (.inr ⟨range, hm⟩))
    · exact howner e owner hcheck
  rcases bind_eq_error_iff.mp h with hall | ⟨_, -, hrest⟩
  · obtain ⟨e, -, hcheck⟩ := exists_of_checkAll_error hall
    rcases bind_eq_error_iff.mp hcheck with hget | ⟨claim, -, hrest⟩
    · exact .inl (hview _ (.inl ⟨_, hget⟩))
    · cases claim with
      | none => exact hentries e _ hrest
      | some owner =>
          rcases bind_eq_error_iff.mp hrest with hfirst | ⟨_, -, hrest⟩
          · exact howner e owner hfirst
          · exact hentries e _ hrest
  · cases hrest

end Index

namespace Attempt

variable {σ α β : Type} {fault : Error → Prop}

-- What an attempt may fail with by itself, whatever it reads and whatever the reactors say.
def FailsWith (fault : Error → Prop) : Attempt α → Prop
  | done result => ∀ e, result = .error e → fault e
  | reading _ next => ∀ view : View, view.Mild → (next view).FailsWith fault
  | writing _ next => next.FailsWith fault
  | validating _ _ _ _ next => ∀ verdict, (next verdict).FailsWith fault
  | timing next => ∀ now, (next now).FailsWith fault

theorem failsWith_bind {a : Attempt α} {f : α → Attempt β} (ha : a.FailsWith fault)
    (hf : ∀ x, (f x).FailsWith fault) : (a >>= f).FailsWith fault := by
  induction a with
  | done result =>
      cases result with
      | ok x => exact hf x
      | error e =>
          rintro _ ⟨⟩
          exact ha e rfl
  | reading ctx next ih => exact fun view hview => ih view (ha view hview)
  | writing writes next ih => exact ih ha
  | validating ctx reactors old new next ih => exact fun verdict => ih verdict (ha verdict)
  | timing next ih => exact fun now => ih now (ha now)

theorem failsWith_pure (x : α) : (pure x : Attempt α).FailsWith fault := nofun

theorem failsWith_read (ctx : Context) {f : View → Except Error α}
    (h : ∀ view : View, view.Mild → ∀ e, f view = .error e → fault e) :
    (read ctx f).FailsWith fault := h

theorem failsWith_write (writes : List Write) : (write writes).FailsWith fault := nofun

theorem failsWith_validate (ctx : Context) (reactors : List String) (old new : Option Document) :
    (validate ctx reactors old new).FailsWith fault := fun _ => nofun

theorem failsWith_calendar : calendar.FailsWith fault := fun _ => nofun

-- When the store does it, it fails with that, or with something that is no conflict.
theorem FailsWith.perform {a : Attempt α} (ha : a.FailsWith fault)
    (hmild : ∀ e, e.isConflict = false → fault e) (host : Host σ) (d : Draft σ) :
    ∀ e, (a.perform host d).1 = .error e → fault e := by
  induction a generalizing d with
  | done result => exact ha
  | reading ctx next ih => exact ih _ (ha _ (Kv.mild_view _ _ _)) _
  | writing writes next ih =>
      simp only [Attempt.perform]
      split
      · exact ih ha _
      · next failure hbuffer =>
        rintro e he
        cases he
        exact hmild _ (Kv.isConflict_of_bufferAll hbuffer)
  | validating ctx reactors old new next ih =>
      have hreject :=
        d.world.registry.isConflict_of_validate host ctx old reactors new d.world.site
      simp only [Attempt.perform]
      split
      · exact ih _ (ha _) _
      · next heq =>
        rintro e he
        cases he
        exact hmild _ (hreject _ (by rw [heq]))
  | timing next ih => exact ih _ (ha _) _

end Attempt

namespace Store

variable {σ α : Type}

-- An error that neither tells of a lost race nor of a writer that has lost too many.
def Decisive (e : Error) : Prop := e.isRetryable = false ∧ e ≠ preempted

theorem decisive_of_isConflict {e : Error} (h : e.isConflict = false) : Decisive e := by
  cases e with
  | conflict | writeConflict => cases h
  | _ => exact ⟨rfl, Error.noConfusion⟩

theorem decisive_takenError (e : IndexEntry) (owner : Bytes) :
    Decisive (Index.takenError e owner) := by
  refine ⟨rfl, fun h => ?_⟩
  have hhead := congrArg (fun s : String => s.toList.head?) (Error.conflict.inj h)
  simp only [String.toList_append, List.append_assoc] at hhead
  exact absurd hhead (by simp)

theorem decisive_of_checkVersion {expected : Option Nat} {old : Option Document} {e : Error}
    (h : checkVersion expected old = .error e) : Decisive e := by
  obtain rfl : versionOutdated = e := by
    unfold checkVersion at h
    repeat' split at h
    all_goals cases h
    all_goals rfl
  exact ⟨rfl, by decide⟩

theorem decisive_of_checkUnused {view : View} (hview : view.Mild) {id : String} {e : Error}
    (h : checkUnused id view = .error e) : Decisive e := by
  simp only [checkUnused] at h
  split at h
  · cases h
  · cases h
    exact ⟨rfl, by decide⟩
  · next heq =>
    cases h
    exact decisive_of_isConflict (hview _ (.inr ⟨_, heq ▸ List.mem_cons_self⟩))

theorem putAttempt_failsWith (encoding : Encoding) (ctx : Context) (model : Model) (doc : Document)
    (expected : Option Nat) :
    (putAttempt encoding ctx model doc expected).FailsWith Decisive := by
  have hadd : ∀ view : View, view.Mild → ∀ new e, Index.add view model new = .error e →
      Decisive e := by
    intro view hview new e he
    rcases Index.isConflict_or_taken_of_add hview he with hmild | ⟨entry, owner, rfl⟩
    · exact decisive_of_isConflict hmild
    · exact decisive_takenError entry owner
  have hrest : ∀ old val, Attempt.FailsWith Decisive (do
      let fresh := candidate doc old val (← Attempt.calendar)
      let new := reviewed fresh (← Attempt.validate ctx model.reactors old (some fresh))
      place encoding ctx model new
      return WriteOutcome.written old new) := by
    intro old val
    refine Attempt.failsWith_bind Attempt.failsWith_calendar (fun now => ?_)
    refine Attempt.failsWith_bind (Attempt.failsWith_validate _ _ _ _) (fun verdict => ?_)
    refine Attempt.failsWith_bind ?_ (fun _ => Attempt.failsWith_pure _)
    refine Attempt.failsWith_bind (Attempt.failsWith_write _) (fun _ => ?_)
    refine Attempt.failsWith_bind ?_ (fun writes => Attempt.failsWith_write writes)
    exact Attempt.failsWith_read ctx (fun view hview => hadd view hview _)
  refine Attempt.failsWith_bind (Attempt.failsWith_read ctx fun view hview e he =>
    decisive_of_isConflict (hview.isConflict_of_stored? he)) (fun old => ?_)
  refine Attempt.failsWith_bind (fun e he => decisive_of_checkVersion he) (fun _ => ?_)
  refine Attempt.failsWith_bind (fun e he => decisive_of_isConflict (isConflict_of_newBody he))
    (fun val => ?_)
  cases old with
  | none => exact hrest none val
  | some stored =>
      simp only
      split
      · exact Attempt.failsWith_pure _
      · refine Attempt.failsWith_bind (Attempt.failsWith_read ctx fun view hview e he =>
          decisive_of_isConflict (Index.isConflict_of_remove hview he)) (fun writes => ?_)
        exact Attempt.failsWith_bind (Attempt.failsWith_write writes)
          (fun _ => hrest (some stored) val)

theorem deleteAttempt_failsWith (ctx : Context) (target : Model) (model id : String) :
    (deleteAttempt ctx target model id).FailsWith Decisive := by
  have hrest : ∀ old, Attempt.FailsWith Decisive (do
      let _ ← Attempt.validate ctx target.reactors (some old) none
      Attempt.write (← Attempt.read ctx (fun view => Index.remove view target old))
      Attempt.write [(Key.document model id, none)]
      return old) := by
    intro old
    refine Attempt.failsWith_bind (Attempt.failsWith_validate _ _ _ _) (fun _ => ?_)
    refine Attempt.failsWith_bind (Attempt.failsWith_read ctx fun view hview e he =>
      decisive_of_isConflict (Index.isConflict_of_remove hview he)) (fun writes => ?_)
    refine Attempt.failsWith_bind (Attempt.failsWith_write writes) (fun _ => ?_)
    exact Attempt.failsWith_bind (Attempt.failsWith_write _) (fun _ => Attempt.failsWith_pure old)
  refine Attempt.failsWith_bind (Attempt.failsWith_read ctx fun view hview e he =>
    decisive_of_isConflict (hview.isConflict_of_stored? he)) (fun old => ?_)
  cases old with
  | none =>
      rintro e ⟨⟩
      exact ⟨rfl, by decide⟩
  | some old =>
      simp only
      split
      · refine Attempt.failsWith_bind (Attempt.failsWith_read ctx fun view hview e he => ?_)
          (fun _ => hrest old)
        exact decisive_of_checkUnused hview he
      · exact hrest old

end Store

theorem error_of_map {α β : Type} {f : α → β} {r : Except Error α} {e : Error}
    (h : r.map f = .error e) : r = .error e := by
  cases r with
  | error failure => exact congrArg Except.error (Except.error.inj h)
  | ok a => cases h

namespace Search

variable {view : View} {e : Error}

theorem isConflict_of_anyEntry {plan : Plan} {id : String} {items : List (Except Error Pair)}
    (hitems : ∀ e, .error e ∈ items → e.isConflict = false)
    (h : anyEntry plan id items = .error e) : e.isConflict = false := by
  induction items with
  | nil => cases h
  | cons item rest ih =>
      cases item with
      | error failure =>
          cases h
          exact hitems e List.mem_cons_self
      | ok pair =>
          simp only [anyEntry] at h
          split at h
          · cases h
          · exact ih (fun e he => hitems e (List.mem_cons_of_mem _ he)) h

theorem isConflict_of_probeAll (hview : view.Mild) {id : String} {plans : List Plan}
    (h : probeAll view id plans = .error e) : e.isConflict = false := by
  induction plans with
  | nil => cases h
  | cons plan rest ih =>
      rcases bind_eq_error_iff.mp h with hprobe | ⟨found, -, hrest⟩
      · simp only [probe] at hprobe
        split at hprobe
        · cases hprobe
        · split at hprobe
          · exact hview e (.inl ⟨_, error_of_map hprobe⟩)
          · exact isConflict_of_anyEntry (fun e he => hview e (.inr ⟨_, he⟩)) hprobe
      · cases found with
        | true => exact ih hrest
        | false => cases hrest

theorem error_of_mem_ofEntries {plan : Plan} {seen : List String}
    {items : List (Except Error Pair)} (h : .error e ∈ Candidate.ofEntries plan seen items) :
    .error e ∈ items := by
  induction items generalizing seen with
  | nil => cases h
  | cons item rest ih =>
      cases item with
      | error failure =>
          rcases List.mem_cons.mp h with heq | hrest
          · cases heq
            exact List.mem_cons_self
          · exact List.mem_cons_of_mem _ (ih hrest)
      | ok pair =>
          refine List.mem_cons_of_mem _ ?_
          simp only [Candidate.ofEntries] at h
          split at h
          · split at h
            · exact ih h
            · exact ih ((List.mem_cons.mp h).resolve_left nofun)
          · exact ih h

-- What a batch leaves are the last of the candidates that it is taken from.
theorem suffix_of_takeBatch {others : List Plan} {room : Nat} {batch : List Candidate}
    {left rest : List (Except Error Candidate)}
    (h : takeBatch view others room left = .ok (batch, rest)) : rest <:+ left := by
  induction left generalizing room batch with
  | nil => cases room <;> cases h <;> exact List.suffix_refl _
  | cons item left ih =>
      cases room with
      | zero =>
          cases h
          exact List.suffix_refl _
      | succ room =>
          cases item with
          | error failure => cases h
          | ok candidate =>
              refine List.IsSuffix.trans ?_ (List.suffix_cons _ left)
              obtain ⟨found, -, htake⟩ := bind_eq_ok_iff.mp h
              cases found with
              | true =>
                  obtain ⟨⟨batch', rest'⟩, hbatch, hdone⟩ := bind_eq_ok_iff.mp htake
                  cases hdone
                  exact ih hbatch
              | false => exact ih htake

theorem isConflict_of_takeBatch (hview : view.Mild) {others : List Plan} {room : Nat}
    {left : List (Except Error Candidate)} (hleft : ∀ e, .error e ∈ left → e.isConflict = false)
    (h : takeBatch view others room left = .error e) : e.isConflict = false := by
  induction left generalizing room with
  | nil => cases room <;> cases h
  | cons item left ih =>
      have hlater : ∀ e, .error e ∈ left → e.isConflict = false :=
        fun e he => hleft e (List.mem_cons_of_mem _ he)
      cases room with
      | zero => cases h
      | succ room =>
          cases item with
          | error failure =>
              cases h
              exact hleft e List.mem_cons_self
          | ok candidate =>
              rcases bind_eq_error_iff.mp h with hprobe | ⟨found, -, htake⟩
              · exact isConflict_of_probeAll hview hprobe
              · cases found with
                | true =>
                    rcases bind_eq_error_iff.mp htake with hrest | ⟨_, -, hdone⟩
                    · exact ih hlater hrest
                    · cases hdone
                | false => exact ih hlater htake

theorem isConflict_of_confirm {plans : List Plan} {limit : Nat} {kept : List Document}
    {batch : List (Candidate × Option Bytes)} (h : confirm plans limit kept batch = .error e) :
    e.isConflict = false := by
  induction batch generalizing kept with
  | nil => cases h
  | cons item rest ih =>
      obtain ⟨candidate, _ | record⟩ := item
      · exact ih h
      · rcases bind_eq_error_iff.mp h with hdecode | ⟨doc, -, hrest⟩
        · exact Record.isConflict_of_decode hdecode
        · simp only at hrest
          split at hrest
          · rcases bind_eq_error_iff.mp hrest with hconfirm | ⟨_, -, hdone⟩
            · exact ih hconfirm
            · cases hdone
          · exact ih hrest

theorem isConflict_of_records (hview : view.Mild) {model : String} {batch : List Candidate}
    (h : batch.mapM (fun c => view.get (Key.document model c.id)) = .error e) :
    e.isConflict = false := by
  induction batch with
  | nil => cases h
  | cons candidate rest ih =>
      rw [List.mapM_cons] at h
      rcases bind_eq_error_iff.mp h with hget | ⟨_, -, hrest⟩
      · exact hview e (.inl ⟨_, hget⟩)
      · rcases bind_eq_error_iff.mp hrest with hlater | ⟨_, -, hdone⟩
        · exact ih hlater
        · cases hdone

theorem isConflict_of_fill (hview : view.Mild) {model : String} {plans : List Plan} {limit : Nat}
    {kept : List Document} {left : List (Except Error Candidate)}
    (hleft : ∀ e, .error e ∈ left → e.isConflict = false)
    (h : fill view model plans limit kept left = .error e) : e.isConflict = false := by
  induction hlength : left.length using Nat.strongRecOn generalizing kept left with
  | ind n ih =>
      rw [fill] at h
      split at h
      · next heq =>
        cases h
        exact isConflict_of_takeBatch hview hleft heq
      · cases h
      · next first batch rest heq =>
        have hrest := suffix_of_takeBatch heq
        have htaken := takeBatch_length view plans.tail heq
        rw [List.length_cons] at htaken
        rcases bind_eq_error_iff.mp h with hrecords | ⟨records, -, h⟩
        · exact isConflict_of_records hview hrecords
        · rcases bind_eq_error_iff.mp h with hconfirm | ⟨⟨kept', last⟩, -, h⟩
          · exact isConflict_of_confirm hconfirm
          · cases last with
            | some key => cases h
            | none =>
                exact ih rest.length (by omega) (fun e he => hleft e (hrest.subset he)) h rfl

theorem find_cases (view : View) (model : String) (f : Filter) (after : Option Bytes) :
    find view model f after = .error SearchFault.foreignCursor.toError ∨
      ∃ range, find view model f after = .ok (if (Plan.ofFilter model f).isVoid then []
        else Candidate.ofEntries (Plan.ofFilter model f) [] (view.entries range)) := by
  simp only [find]
  cases after with
  | none => exact .inr ⟨_, rfl⟩
  | some key =>
      simp only
      split
      · exact .inr ⟨_, rfl⟩
      · exact .inl rfl

theorem isConflict_of_find {model : String} {f : Filter} {after : Option Bytes}
    (h : find view model f after = .error e) : e.isConflict = false := by
  rcases find_cases view model f after with hfind | ⟨range, hfind⟩
  · cases hfind.symm.trans h
    rfl
  · cases hfind.symm.trans h

theorem isConflict_of_mem_find (hview : view.Mild) {model : String} {f : Filter}
    {after : Option Bytes} {candidates : List (Except Error Candidate)}
    (h : find view model f after = .ok candidates) :
    ∀ e, .error e ∈ candidates → e.isConflict = false := by
  intro e he
  rcases find_cases view model f after with hfind | ⟨range, hfind⟩
  · cases hfind.symm.trans h
  · cases hfind.symm.trans h
    split at he
    · cases he
    · exact hview e (.inr ⟨range, error_of_mem_ofEntries he⟩)

-- A page fails with no conflict.
theorem isConflict_of_page (hview : view.Mild) {config : SearchConfig} {request : SearchRequest}
    (h : page view config request = .error e) : e.isConflict = false := by
  have hfault : ∀ fault : SearchFault, fault.toError.isConflict = false := fun _ => rfl
  rcases bind_eq_error_iff.mp h with hcheck | ⟨_, -, h⟩
  · simp only [SearchRequest.check] at hcheck
    split at hcheck <;> cases hcheck
    exact hfault _
  rcases bind_eq_error_iff.mp h with hcursor | ⟨after, -, h⟩
  · cases hnamed : request.cursor with
    | none => rw [hnamed] at hcursor; cases hcursor
    | some cursor =>
        rw [hnamed, Option.mapM_some] at hcursor
        have hdecode := error_of_map hcursor
        simp only [Cursor.decode] at hdecode
        split at hdecode <;> cases hdecode
        exact hfault _
  split at h
  · cases h
    exact hfault _
  · rcases bind_eq_error_iff.mp h with hfind | ⟨candidates, hfind, h⟩
    · exact isConflict_of_find hfind
    · rcases bind_eq_error_iff.mp h with hfill | ⟨_, -, hdone⟩
      · exact isConflict_of_fill hview (isConflict_of_mem_find hview hfind) hfill
      · cases hdone

end Search

namespace Store

variable {σ : Type} {store : Store σ}

theorem peaceful_search (ctx : Context) (request : SearchRequest) :
    (search store ctx request).Peaceful :=
  (Action.peaceful_check ctx).bind (fun _ =>
    Action.peaceful_reading ctx fun _ hview _ => Search.isConflict_of_page hview)

theorem peaceful_query (ctx : Context) (text : String) (params : List Value) :
    (query store ctx text params).Peaceful := by
  unfold query
  split
  · exact peaceful_search ctx _
  · exact Action.peaceful_throw rfl

end Store

end DocStore
