import Mathlib
import DocStore.Proofs.Store.IndexConsistency
import DocStore.Proofs.Store.Lookups

-- How a document comes to be stored without its model.
namespace DocStore

namespace Office

variable {kind : BackendKind} {x : Office}

theorem Filed.written_of_entry (hfiled : x.Filed) (h : x.Sound kind) {i : Nat} {e : Entry}
    (he : x.log[i]? = some e) :
    x.course.chronicle.log.written? (i + 1) e.job.key = some (e.change.new.map e.job.record) := by
  obtain ⟨hlt, -⟩ := List.getElem?_eq_some_iff.mp he
  obtain ⟨commit, hcommit⟩ : ∃ commit, x.course.chronicle.log[i]? = some commit := by
    rw [← Option.isSome_iff_exists, isSome_getElem?, ← h.booked.length_eq]
    exact hlt
  obtain ⟨base, -, -, hprepares⟩ := hfiled i e commit he hcommit
  simp only [CommitLog.written?, hcommit, Option.bind_some, hprepares.own]

-- The last change of a document has left it as it is.
structure Settles (x : Office) (model id : String) (i : Nat) (e : Entry) (commit : Commit) :
    Prop where
  entry : x.log[i]? = some e
  commit : x.course.chronicle.log[i]? = some commit
  own : e.job.model = model ∧ e.job.id = id
  record : x.current.get? (Key.document model id) = e.change.new.map e.job.record
  last : ∀ (k : Nat) e, x.log[k]? = some e → e.job.model = model → e.job.id = id → k ≤ i
  stands : ∀ version, i < version → (x.course.chronicle.log.mapAt version).get?
    (Key.document model id) = x.current.get? (Key.document model id)

-- A document that has come or gone since a version was settled after it.
theorem Filed.exists_settles (hfiled : x.Filed) (h : x.Sound kind) {version : Nat}
    {model id : String} (hchanged : (x.course.chronicle.log.mapAt version).get?
      (Key.document model id) ≠ x.current.get? (Key.document model id)) :
    ∃ i e commit, version ≤ i ∧ x.Settles model id i e commit := by
  obtain ⟨last, value, hlt, hwritten, hlater, hvalue⟩ := CommitLog.exists_written_last hchanged
  obtain ⟨i, rfl⟩ : ∃ i, last = i + 1 := ⟨last - 1, by omega⟩
  obtain ⟨commit, hcommit, hwrites⟩ := Option.bind_eq_some_iff.mp hwritten
  obtain ⟨hbound, -⟩ := List.getElem?_eq_some_iff.mp hcommit
  obtain ⟨e, he⟩ : ∃ e, x.log[i]? = some e := by
    rw [← Option.isSome_iff_exists, isSome_getElem?, h.booked.length_eq]
    exact hbound
  obtain ⟨base, -, -, hprepares⟩ := hfiled i e commit he hcommit
  rw [hprepares.document] at hwrites
  split at hwrites
  · next hown =>
    obtain ⟨hmodel, hid⟩ := Key.document_inj.mp hown
    refine ⟨i, e, commit, by omega, he, hcommit, ⟨hmodel.symm, hid.symm⟩, ?_, ?_, ?_⟩
    · rw [Option.some.inj hwrites]
      exact hvalue.symm
    · intro k e' he' hmodel' hid'
      by_contra hlast
      have hwrites' := hfiled.written_of_entry h he'
      rw [Job.key, hmodel', hid', hlater _ (by omega)] at hwrites'
      cases hwrites'
    · intro version hversion
      by_contra hne
      obtain ⟨later, _, hlt', hwritten', -⟩ := CommitLog.exists_written_last hne
      rw [hlater later (by omega)] at hwritten'
      cases hwritten'
  · cases hwrites

end Office

namespace Bureau

variable {kind : BackendKind} {x : Bureau} {model id : String} {i j : Nat}

-- The put that wrote a document and a deletion of its model have come upon each other. The put went
-- by a lookup that began before the cache gave up the model for the deletion, and was committed
-- after the deletion had begun.
structure Overlap (x : Bureau) (model id : String) (i j : Nat) : Prop where
  put : ∃ e, x.office.log[i]? = some e ∧ e.job.model = model ∧ e.job.id = id ∧
    e.change.new.isSome
  last : ∀ (k : Nat) e, x.office.log[k]? = some e → e.job.model = model → e.job.id = id → k ≤ i
  deletion : ∃ e, x.office.log[j]? = some e ∧ e.job.model = modelOfModels ∧ e.job.id = model ∧
    e.change.new = none
  lookup : ∃ commit l, x.commits[i]? = some commit ∧ x.grounds.get? commit.client = some l ∧
    l.name = model ∧ (model, j) ∉ l.past
  began : ∃ commit base, x.commits[j]? = some commit ∧
    x.office.course.chronicle.bases[commit.client]? = some base ∧ base ≤ i

-- Whatever the writers of a store do, and in whatever order, every stored document has its model
-- stored, unless the put that wrote it overlapped a deletion of the model.
theorem model_of_stored (kind : BackendKind) (errands : List Errand)
    (hbuiltIn : Model.isBuiltIn model = false)
    (hstored : Key.document model id ∈ (run kind errands).office.keys) :
    Key.document modelOfModels model ∈ (run kind errands).office.keys ∨
      ∃ i j, Overlap (run kind errands) model id i j := by
  have h := sound_run kind errands
  generalize run kind errands = x at *
  simp only [h.office.mem_keys_iff] at hstored ⊢
  by_cases hmodel : (x.office.current.get? (Key.document modelOfModels model)).isSome
  · exact .inl hmodel
  -- the put, and the lookup that it went by
  have hcame : (x.commits.mapAt 0).get? (Key.document model id) ≠
      x.office.current.get? (Key.document model id) := by
    intro hsame
    rw [← hsame] at hstored
    simp [CommitLog.mapAt, SortedMap.get?_empty] at hstored
  obtain ⟨i, e, commit, -, hput⟩ := h.filed.exists_settles h.office hcame
  obtain ⟨l, hl, hname⟩ := h.clients i commit e hput.commit hput.entry
  rw [hput.own.1] at hname
  have hbacked : Backed x.commits model l.past := by
    rcases h.grounds _ l hl with hbuiltIn' | hbacked
    · rw [hname, hbuiltIn] at hbuiltIn'
      cases hbuiltIn'
    · exact hname ▸ hbacked
  obtain ⟨version, -, hthere, hpast⟩ := hbacked
  -- the deletion, and what it saw of the documents
  have hwent : (x.commits.mapAt version).get? (Key.document modelOfModels model) ≠
      x.office.current.get? (Key.document modelOfModels model) :=
    fun hsame => hmodel (hsame ▸ hthere)
  obtain ⟨j, d, commit', hle, hdeletion⟩ := h.filed.exists_settles h.office hwent
  obtain ⟨hmodels, hid⟩ := hdeletion.own
  have hdeleted : d.change.new = none := by
    simpa [hdeletion.record] using hmodel
  obtain ⟨base, hbase, -, hprepares⟩ := h.filed j d commit' hdeletion.entry hdeletion.commit
  refine .inr ⟨i, j, ⟨e, hput.entry, hput.own.1, hput.own.2, ?_⟩, hput.last,
    ⟨d, hdeletion.entry, hmodels, hid, hdeleted⟩, ⟨commit, l, hput.commit, hl, hname, ?_⟩,
    commit', base, hdeletion.commit, hbase, ?_⟩
  · rw [hput.record, Option.isSome_map] at hstored
    exact hstored
  · exact fun hm => absurd (hpast j hm) (Nat.not_lt.mpr hle)
  · by_contra hlate
    have hunused := hprepares.unused hdeleted hmodels id
    rw [hid, hput.stands base (by omega)] at hunused
    rw [hunused] at hstored
    cases hstored

-- What it takes to store the model of books, and to find it again.
def toil (n : Nat) : List Errand := List.replicate 9 (.work n .go (.ok none) ⟨0, 0⟩)

def prologue : List Errand :=
  [.ask modelOfModels, .put 0 .messagePack Context.background
    (Document.ofBody modelOfModels "com.ex.Book" (.object [])) .go .cancelled] ++ toil 0 ++
  [.commit 0 .go, .ask "com.ex.Book", .note 1, .consult 1 .go, .keep 1, .ask modelOfModels]

def putBook : Errand :=
  .put 1 .messagePack Context.background (Document.ofBody "com.ex.Book" "a" (.object [])) .go
    .cancelled

def dropModel : Errand :=
  .delete 2 Context.background modelOfModels "com.ex.Book" .go .cancelled

-- A book is put while its model is deleted. Neither writes what the other one does.
def skewed : List Errand :=
  prologue ++ [putBook, dropModel] ++ toil 2 ++ toil 3 ++ [.commit 2 .go, .commit 3 .go]

-- A book is put after its model was deleted. It was looked up before.
def belated : List Errand :=
  prologue ++ [dropModel] ++ toil 2 ++ [.commit 2 .go, putBook] ++ toil 3 ++ [.commit 3 .go]

theorem keys_skewed : (run .mvcc skewed).office.keys = [Key.document "com.ex.Book" "a"] := by
  cbv

theorem keys_belated : (run .embedded belated).office.keys = [Key.document "com.ex.Book" "a"] := by
  cbv

-- On either backend a book is left without its model.
theorem orphaned_of_overlap :
    (Key.document "com.ex.Book" "a" ∈ (run .mvcc skewed).office.keys ∧
      Key.document modelOfModels "com.ex.Book" ∉ (run .mvcc skewed).office.keys) ∧
    Key.document "com.ex.Book" "a" ∈ (run .embedded belated).office.keys ∧
      Key.document modelOfModels "com.ex.Book" ∉ (run .embedded belated).office.keys := by
  have hne : Key.document modelOfModels "com.ex.Book" ≠ Key.document "com.ex.Book" "a" :=
    fun heq => absurd (Key.document_inj.mp heq).1 (by decide)
  rw [keys_skewed, keys_belated]
  simp [hne]

theorem model_of_stored_skewed :
    Key.document "com.ex.Book" "a" ∈ (run .mvcc skewed).office.keys ∧
      ∃ i j, Overlap (run .mvcc skewed) "com.ex.Book" "a" i j := by
  have hstored : Key.document "com.ex.Book" "a" ∈ (run .mvcc skewed).office.keys := by
    rw [keys_skewed]
    exact List.mem_singleton_self _
  refine ⟨hstored, ?_⟩
  rcases model_of_stored .mvcc skewed (by decide) hstored with hmodel | hoverlap
  · rw [keys_skewed, List.mem_singleton, Key.document_inj] at hmodel
    exact absurd hmodel.1 (by decide)
  · exact hoverlap

end Bureau

end DocStore
