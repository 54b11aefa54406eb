import DocStore.Proofs.Index.Refusal

namespace DocStore

-- What an attempt changes: a document becomes another one, or comes, or goes.
structure Change where
  old : Option Document
  new : Option Document

-- What a client of the store wants to have done to one document.
inductive Job where
  | put (encoding : Encoding) (ctx : Context) (model : Model) (doc : Document)
  | delete (ctx : Context) (target : Model) (model id : String)

namespace Job

def model : Job → String
  | put _ _ _ doc => doc.model
  | delete _ _ model _ => model

def id : Job → String
  | put _ _ _ doc => doc.id
  | delete _ _ _ id => id

-- The model that its documents are to follow.
def declared : Job → Model
  | put _ _ model _ => model
  | delete _ target _ _ => target

def key (job : Job) : Bytes := Key.document job.model job.id

-- The record that is to stand for a document.
def record (job : Job) (doc : Document) : Bytes :=
  match job with
  | put encoding _ _ _ => Record.encode encoding doc
  | delete _ _ _ _ => []

-- A put may find that there is nothing to change. A deletion never does.
def attempt : Job → Attempt (Option Change)
  | put encoding ctx model doc => do
    match ← Store.putAttempt encoding ctx model doc doc.version with
    | .unchanged _ => return none
    | .written old new => return some ⟨old, some new⟩
  | delete ctx target model id => do
    return some ⟨some (← Store.deleteAttempt ctx target model id), none⟩

-- What a job makes of the document that it finds. The reactors have been asked last, and they have
-- no say if there are none.
def Makes (job : Job) (answer : Option (Option Document)) (change : Change) : Prop :=
  match job with
  | put _ _ model doc =>
    Store.checkVersion doc.version change.old = .ok () ∧
    ∃ val now verdict, Store.newBody model doc change.old = .ok val ∧
      (model.reactors = [] → verdict = some (Store.candidate doc change.old val now)) ∧
      answer = some verdict ∧
      change.new = some (Store.reviewed (Store.candidate doc change.old val now) verdict)
  | delete _ _ _ _ => change.old.isSome ∧ change.new = none

-- An attempt that is ready to be committed: what it read, and what it is to write to documents and
-- to the index.
structure Prepares (job : Job) (base : SortedMap Bytes Bytes)
    (writes : SortedMap Bytes (Option Bytes)) (answer : Option (Option Document))
    (change : Change) : Prop where
  reads : Store.stored? job.model job.id (View.ofMap base) = .ok change.old
  makes : job.Makes answer change
  document : ∀ model id, writes.get? (Key.document model id) =
    if Key.document model id = job.key then some (change.new.map job.record) else none
  entries : ∀ key, key.head? = some Key.entryTag → writes.get? key =
    if key ∈ (change.new.map Document.entryKeys).getD [] then some (some Key.entryMarker)
    else if key ∈ (change.old.map Document.entryKeys).getD [] then some none
    else none
  -- a unique value is claimed, and no other document holds it that was in the index
  unique : ∀ d, change.new = some d → ∀ e ∈ IndexEntry.ofBody d.val,
    job.declared.isUnique e.path = true →
      (writes.get? (Key.claim job.model e.path e.encoded)).isSome ∧
      ∀ id, id ≠ job.id → writes.get? (Key.entry job.model e.path e.encoded id) = none →
        (base.get? (Key.entry job.model e.path e.encoded id)).isSome →
          Index.Lacks base job.model id e
  -- what is claimed is claimed in the name of the document
  claims : ∀ key value, key.head? = some Key.claimTag → writes.get? key = some (some value) →
    value = Bytes.ofString job.id
  -- a model that is to be deleted had no documents
  unused : change.new = none → job.model = modelOfModels →
    ∀ id, base.get? (Key.document job.id id) = none

theorem Prepares.own {job : Job} {base : SortedMap Bytes Bytes}
    {writes : SortedMap Bytes (Option Bytes)} {answer : Option (Option Document)} {change : Change}
    (h : job.Prepares base writes answer change) :
    writes.get? job.key = some (change.new.map job.record) :=
  (h.document job.model job.id).trans (if_pos rfl)

end Job

namespace Store

open Attempt

variable {base : SortedMap Bytes Bytes}

theorem place_ensures (encoding : Encoding) (ctx : Context) (model : Model) (new : Document)
    {post : SortedMap Bytes (Option Bytes) → Option (Option Document) → Unit → Prop}
    {fault : Error → Prop} {writes : SortedMap Bytes (Option Bytes)}
    {answer : Option (Option Document)}
    (h : ∀ view : View, view.Shows (base.setAll (writes.insert (Key.document new.model new.id)
        (some (Record.encode encoding new))).toList) →
      (∀ added, Index.add view model new = .ok added →
        post ((writes.insert (Key.document new.model new.id)
          (some (Record.encode encoding new))).insertAll added) answer ()) ∧
      ∀ error, Index.add view model new = .error error → fault error) :
    (place encoding ctx model new).Ensures base post fault writes answer := by
  simp only [place, ensures_bind, ensures_write, ensures_read]
  exact h

-- What a transaction has written once the old document is out of the index.
private structure Cleared (old : Option Document) (writes : SortedMap Bytes (Option Bytes)) :
    Prop where
  deletes : ∀ key value, writes.get? key = some value → value = none
  exact : ∀ key, key.head? ≠ some Key.claimTag → writes.get? key =
    if key ∈ (old.map Document.entryKeys).getD [] then some none else none

private theorem cleared_none : Cleared none SortedMap.empty where
  deletes key value h := by simp [SortedMap.get?_empty] at h
  exact key _ := by simp [SortedMap.get?_empty]

private theorem cleared_remove {view : View} {model : Model} {old : Document} {removed : List Write}
    (h : Index.remove view model old = .ok removed) :
    Cleared (some old) (SortedMap.empty.insertAll removed) where
  deletes key value hvalue := by
    rcases SortedMap.get?_insertAll_eq_some _ hvalue with hm | hnone
    · exact Index.remove_deletes h _ hm
    · simp [SortedMap.get?_empty] at hnone
  exact key hkey := by
    rw [Index.get?_insertAll_remove h _ hkey, SortedMap.get?_empty, Option.map_some,
      Option.getD_some]

private theorem Cleared.document {old : Option Document}
    {writes : SortedMap Bytes (Option Bytes)} (h : Cleared old writes) (model id : String) :
    writes.get? (Key.document model id) = none := by
  rw [h.exact _ (by rw [Key.head?_document]; decide), if_neg]
  intro hm
  cases old with
  | none => simp at hm
  | some old =>
      replace hm : Key.document model id ∈ old.entryKeys := hm
      have hhead := Document.head?_of_mem_entryKeys hm
      rw [Key.head?_document] at hhead
      exact absurd hhead (by decide)

-- What belongs to others is seen as it was.
private theorem Cleared.taken {old : Option Document} {writes : SortedMap Bytes (Option Bytes)}
    (h : Cleared old writes) {model id : String} {record : Option Bytes} {e : IndexEntry}
    {owner : Bytes} (htaken : Index.Taken
      (base.setAll (writes.insert (Key.document model id) record).toList) model id e owner) :
    Index.Taken base model id e owner := by
  have hseen : ∀ {key value}, key.head? ≠ some Key.documentTag →
      (base.setAll (writes.insert (Key.document model id) record).toList).get? key = some value →
        base.get? key = some value := by
    intro key value hkey hvalue
    rw [SortedMap.get?_setAll, SortedMap.get?_insert, if_neg] at hvalue
    · cases hwritten : writes.get? key with
      | none => simpa [hwritten] using hvalue
      | some written =>
          rw [hwritten, h.deletes _ _ hwritten] at hvalue
          cases hvalue
    · rintro rfl
      exact hkey (Key.head?_document ..)
  obtain ⟨hother, hnamed, howns⟩ := htaken
  refine ⟨hother, hnamed.imp (hseen ?_) (And.imp_right fun hentry => ?_), fun other howner => ?_⟩
  · rw [Key.head?_claim]
    decide
  · obtain ⟨value, hvalue⟩ := Option.isSome_iff_exists.mp hentry
    exact Option.isSome_of_eq_some (hseen (by rw [Key.head?_fieldValue]; decide) hvalue)
  · obtain ⟨stored, hstored, hall⟩ := howns other howner
    refine ⟨stored, ?_, hall⟩
    rw [Store.stored?_ofMap] at hstored ⊢
    rw [SortedMap.get?_setAll, SortedMap.get?_insert, h.document, if_neg] at hstored
    · exact hstored
    · exact fun heq => hother ((Key.document_inj.mp heq).2 ▸ howner)

private theorem prepares_place {encoding : Encoding} {ctx : Context} {model : Model}
    {doc new : Document} {old : Option Document} {writes : SortedMap Bytes (Option Bytes)}
    {answer : Option (Option Document)} {view : View} {added : List Write}
    (hreads : stored? doc.model doc.id (View.ofMap base) = .ok old)
    (hmakes : (Job.put encoding ctx model doc).Makes answer ⟨old, some new⟩)
    (hmodel : new.model = doc.model) (hid : new.id = doc.id) (hcleared : Cleared old writes)
    (hview : view.Shows (base.setAll (writes.insert (Key.document new.model new.id)
      (some (Record.encode encoding new))).toList))
    (hadded : Index.add view model new = .ok added) :
    (Job.put encoding ctx model doc).Prepares base
      ((writes.insert (Key.document new.model new.id)
        (some (Record.encode encoding new))).insertAll added) answer ⟨old, some new⟩ where
  reads := hreads
  makes := hmakes
  document model' id' := by
    have hkey : (Key.document model' id').head? ≠ some Key.claimTag := by
      rw [Key.head?_document]; decide
    have hentry : Key.document model' id' ∉ new.entryKeys := by
      intro hm
      have hhead := Document.head?_of_mem_entryKeys hm
      rw [Key.head?_document] at hhead
      exact absurd hhead (by decide)
    rw [Index.get?_insertAll_add hadded _ hkey, if_neg hentry, SortedMap.get?_insert,
      hcleared.document, hmodel, hid]
    simp only [Job.key, Job.model, Job.id, eq_comm]
    rfl
  entries key hkey := by
    have hclaim : key.head? ≠ some Key.claimTag := by rw [hkey]; decide
    have hdocument : Key.document new.model new.id ≠ key := by
      rintro rfl
      rw [Key.head?_document] at hkey
      exact absurd hkey (by decide)
    rw [Index.get?_insertAll_add hadded _ hclaim, SortedMap.get?_insert, if_neg hdocument,
      hcleared.exact key hclaim]
    rfl
  unique d hd e he hunique := by
    obtain rfl : new = d := Option.some.inj hd
    obtain ⟨hclaim, hothers⟩ := Index.add_unique hview hadded he hunique
    rw [hmodel] at hclaim hothers
    refine ⟨SortedMap.isSome_get?_insertAll _ hclaim, fun id hne hnone hentry => ?_⟩
    have htag : (Key.entry doc.model e.path e.encoded id).head? ≠ some Key.claimTag := by
      rw [Key.head?_entry]; decide
    -- what belongs to others is seen as it was
    have hsame : ∀ key, (writes.insert (Key.document doc.model new.id)
        (some (Record.encode encoding new))).get? key = none →
        (base.setAll (writes.insert (Key.document doc.model new.id)
          (some (Record.encode encoding new))).toList).get? key = base.get? key := by
      intro key hkey
      rw [SortedMap.get?_setAll, hkey, Option.getD_none]
    have hother : id ≠ new.id := by rw [hid]; exact hne
    refine (hothers id hother ?_).congr (hsame _ ?_)
    · rw [hsame]
      · exact hentry
      simp only [Job.model, hmodel] at hnone
      rw [Index.get?_insertAll_add hadded _ htag] at hnone
      split at hnone
      · cases hnone
      · exact hnone
    · rw [SortedMap.get?_insert, hcleared.document, if_neg]
      exact fun heq => hother (Key.document_inj.mp heq).2.symm
  claims key value hkey hvalue := by
    rcases SortedMap.get?_insertAll_eq_some _ hvalue with hm | hold
    · have hvalue := Option.some.inj (Index.claim_of_mem_add hadded hm hkey)
      rwa [hid] at hvalue
    · rw [SortedMap.get?_insert, if_neg] at hold
      · cases hcleared.deletes _ _ hold
      · rintro rfl
        rw [Key.head?_document] at hkey
        exact absurd hkey (by decide)
  unused hnone := by cases hnone

-- Nothing is found of a model without documents.
theorem unused_of_checkUnused {id : String} {view : View} (hview : view.Shows base)
    (h : checkUnused id view = .ok ()) (id' : String) :
    base.get? (Key.document id id') = none := by
  unfold checkUnused at h
  split at h
  · next hnone =>
    rcases hview.entries (KeyRange.ofPrefix (Key.documents id)) with hall | ⟨e, hm⟩
    · by_contra hstored
      obtain ⟨record, hrecord⟩ := Option.ne_none_iff_exists'.mp hstored
      have hm : (Key.document id id', record) ∈
          (KeyRange.ofPrefix (Key.documents id)).select base := by
        rw [KeyRange.mem_select_iff, KeyRange.contains_ofPrefix]
        exact ⟨base.get?_eq_some_iff.mp hrecord, Key.documents_prefix id id'⟩
      rw [hnone, eq_comm, List.map_eq_nil_iff] at hall
      rw [hall] at hm
      cases hm
    · rw [hnone] at hm
      cases hm
  · cases h
  · cases h

private theorem prepares_remove {ctx : Context} {target : Model} {model id : String}
    {old : Document} {answer : Option (Option Document)} {view : View} {removed : List Write}
    (hreads : stored? model id (View.ofMap base) = .ok (some old))
    (hunused : model = modelOfModels → ∀ id', base.get? (Key.document id id') = none)
    (hremoved : Index.remove view target old = .ok removed) :
    (Job.delete ctx target model id).Prepares base
      ((SortedMap.empty.insertAll removed).insert (Key.document model id) none) answer
      ⟨some old, none⟩ where
  reads := hreads
  makes := ⟨rfl, rfl⟩
  document model' id' := by
    rw [SortedMap.get?_insert, (cleared_remove hremoved).document]
    simp only [Job.key, Job.model, Job.id, eq_comm]
    rfl
  entries key hkey := by
    have hclaim : key.head? ≠ some Key.claimTag := by rw [hkey]; decide
    have hdocument : Key.document model id ≠ key := by
      rintro rfl
      rw [Key.head?_document] at hkey
      exact absurd hkey (by decide)
    rw [SortedMap.get?_insert, if_neg hdocument, (cleared_remove hremoved).exact key hclaim]
    simp
  unique d hd := by cases hd
  claims key value _ hvalue := by
    rw [SortedMap.get?_insert] at hvalue
    split at hvalue
    · cases hvalue
    · cases (cleared_remove hremoved).deletes _ _ hvalue
  unused _ := hunused

-- What a put comes to if it succeeds.
def Puts (encoding : Encoding) (ctx : Context) (model : Model) (doc : Document)
    (base : SortedMap Bytes Bytes) (writes : SortedMap Bytes (Option Bytes))
    (answer : Option (Option Document)) : WriteOutcome → Prop
  | .unchanged stored => stored? doc.model doc.id (View.ofMap base) = .ok (some stored)
  | .written old new =>
    (Job.put encoding ctx model doc).Prepares base writes answer ⟨old, some new⟩

-- What a put may be about to store, once the reactors had their say.
def Proposes (base : SortedMap Bytes Bytes) (model : Model) (doc new : Document) : Prop :=
  ∃ old val now verdict, stored? doc.model doc.id (View.ofMap base) = .ok old ∧
    newBody model doc old = .ok val ∧
    (model.reactors = [] → verdict = some (candidate doc old val now)) ∧
    new = reviewed (candidate doc old val now) verdict

-- A put that ends in a conflict named a version that is not the stored one, or was to store a value
-- of a unique field that somebody else owns.
def Refuses (base : SortedMap Bytes Bytes) (model : Model) (doc : Document) (error : Error) :
    Prop :=
  error.isConflict = true → error = versionOutdated ∨
    ∃ new e owner, Proposes base model doc new ∧ e ∈ IndexEntry.ofBody new.val ∧
      model.isUnique e.path = true ∧ error = Index.takenError e owner ∧
      Index.Taken base doc.model doc.id e owner

theorem refuses_of_isConflict {model : Model} {doc : Document} {error : Error}
    (h : error.isConflict = false) : Refuses base model doc error := by
  intro hconflict
  rw [h] at hconflict
  cases hconflict

theorem refuses_of_checkVersion {model : Model} {doc : Document} {expected : Option Nat}
    {old : Option Document} {error : Error} (h : checkVersion expected old = .error error) :
    Refuses base model doc error := by
  refine fun _ => .inl ?_
  unfold checkVersion at h
  repeat' split at h
  all_goals cases h
  all_goals rfl

theorem isConflict_of_checkBody {model : Model} {val : Value} {error : Error}
    (h : checkBody model val = .error error) : error.isConflict = false := by
  simp only [checkBody] at h
  split at h
  · next schema _ =>
    cases hvalid : schema.validate val with
    | error fault =>
        simp only [hvalid, Except.mapError, Except.error.injEq] at h
        exact h ▸ rfl
    | ok _ => simp [hvalid, Except.mapError] at h
  · cases h

theorem isConflict_of_newBody {model : Model} {doc : Document} {old : Option Document}
    {error : Error} (h : newBody model doc old = .error error) : error.isConflict = false := by
  simp only [newBody] at h
  split at h
  · cases h
  · next mutations _ =>
    rcases bind_eq_error_iff.mp h with happly | ⟨val, -, hrest⟩
    · cases hval : Mutation.apply ((old.map (·.val)).getD .null) mutations with
      | error fault =>
          simp only [hval, Except.mapError, Except.error.injEq] at happly
          exact happly ▸ rfl
      | ok val => simp [hval, Except.mapError] at happly
    · rcases bind_eq_error_iff.mp hrest with hbody | ⟨_, -, hdone⟩
      · exact isConflict_of_checkBody hbody
      · cases hdone

theorem putAttempt_ensures (encoding : Encoding) (ctx : Context) (model : Model)
    (doc : Document) : (putAttempt encoding ctx model doc doc.version).Ensures base
      (Puts encoding ctx model doc base) (Refuses base model doc) SortedMap.empty none := by
  simp only [putAttempt, ensures_bind, ensures_read, ensures_lift]
  intro view hview
  refine ⟨fun old hold => ⟨fun _ hversion => ⟨fun val hval => ?_, fun error hnew =>
    refuses_of_isConflict (isConflict_of_newBody hnew)⟩, fun error => refuses_of_checkVersion⟩,
    fun error hfailed => refuses_of_isConflict (hview.mild.isConflict_of_stored? hfailed)⟩
  have hreads := View.Shows.stored? hview hold
  rw [SortedMap.setAll_empty] at hreads
  -- what is done once the old document is out of the index
  have hrest : ∀ writes answer, Cleared old writes →
      Attempt.Ensures base (Puts encoding ctx model doc base) (Refuses base model doc) (do
        let fresh := candidate doc old val (← Attempt.calendar)
        let new := reviewed fresh (← Attempt.validate ctx model.reactors old (some fresh))
        place encoding ctx model new
        return WriteOutcome.written old new) writes answer := by
    intro writes answer hcleared
    simp only [ensures_bind, ensures_calendar, ensures_validate, ensures_pure]
    intro now verdict hverdict
    have hmodel : (reviewed (candidate doc old val now) verdict).model = doc.model := by
      cases verdict <;> rfl
    have hid : (reviewed (candidate doc old val now) verdict).id = doc.id := by
      cases verdict <;> rfl
    refine place_ensures encoding ctx model _ (fun view' hview' => ⟨fun added hadded => ?_,
      fun error herror hconflict => .inr ?_⟩)
    · exact prepares_place hreads ⟨hversion, val, now, verdict, hval, hverdict, rfl, rfl⟩ hmodel hid
        hcleared hview' hadded
    · obtain ⟨e, hbody, hunique, owner, hnamed, htaken⟩ :=
        Index.taken_of_add hview' herror hconflict
      rw [hmodel, hid] at htaken
      exact ⟨_, e, owner, ⟨old, val, now, verdict, hreads, hval, hverdict, rfl⟩, hbody, hunique,
        hnamed, hcleared.taken htaken⟩
  cases old with
  | none => exact hrest _ _ cleared_none
  | some stored =>
      simp only
      split
      · exact hreads
      · rw [ensures_bind, ensures_read]
        refine fun view' hview' => ⟨fun removed hremoved => ?_, fun error hfailed =>
          refuses_of_isConflict (Index.isConflict_of_remove hview'.mild hfailed)⟩
        rw [ensures_bind, ensures_write]
        exact hrest _ _ (cleared_remove hremoved)

theorem deleteAttempt_ensures (ctx : Context) (target : Model) (model id : String) :
    (deleteAttempt ctx target model id).Ensures base
      (fun writes answer old =>
        (Job.delete ctx target model id).Prepares base writes answer ⟨some old, none⟩)
      (fun _ => True) SortedMap.empty none := by
  simp only [deleteAttempt, ensures_bind, ensures_read]
  refine fun view hview => ⟨fun old hold => ?_, fun _ _ => trivial⟩
  have hreads := View.Shows.stored? hview hold
  rw [SortedMap.setAll_empty] at hreads
  cases old with
  | none => trivial
  | some old =>
      have hrest : (model = modelOfModels → ∀ id', base.get? (Key.document id id') = none) →
          ∀ answer, Attempt.Ensures base
          (fun writes answer old =>
            (Job.delete ctx target model id).Prepares base writes answer ⟨some old, none⟩)
          (fun _ => True) (do
          let _ ← Attempt.validate ctx target.reactors (some old) none
          Attempt.write (← Attempt.read ctx (fun view => Index.remove view target old))
          Attempt.write [(Key.document model id, none)]
          return old) SortedMap.empty answer := by
        intro hunused answer
        simp only [ensures_bind, ensures_validate, ensures_read, ensures_write, ensures_pure]
        refine fun verdict _ view' _ => ⟨fun removed hremoved => ?_, fun _ _ => trivial⟩
        exact prepares_remove hreads hunused hremoved
      simp only
      split
      · rw [ensures_bind, ensures_read]
        refine fun view' hview' => ⟨fun _ hcheck => hrest (fun _ => ?_) none, fun _ _ => trivial⟩
        rw [SortedMap.setAll_empty] at hview'
        exact unused_of_checkUnused hview' hcheck
      · next hother => exact hrest (fun heq => absurd (beq_iff_eq.mpr heq) hother) none

-- Whatever a job is to change, it has prepared it well.
theorem attempt_ensures (job : Job) (base : SortedMap Bytes Bytes) :
    job.attempt.Ensures base
      (fun writes answer change => ∀ c, change = some c → job.Prepares base writes answer c)
      (fun _ => True) SortedMap.empty none := by
  cases job with
  | put encoding ctx model doc =>
      rw [Job.attempt, ensures_bind]
      refine (putAttempt_ensures encoding ctx model doc).imp (fun writes answer outcome h => ?_)
        (fun _ _ => trivial)
      cases outcome with
      | unchanged _ => simp [ensures_pure]
      | written old new =>
          rw [ensures_pure]
          rintro c hc
          cases hc
          exact h
  | delete ctx target model id =>
      rw [Job.attempt, ensures_bind]
      refine (deleteAttempt_ensures ctx target model id).imp (fun writes answer old h => ?_)
        (fun _ _ => trivial)
      rw [ensures_pure]
      rintro c hc
      cases hc
      exact h

end Store

end DocStore
