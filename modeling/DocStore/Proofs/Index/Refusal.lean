import DocStore.Proofs.Index.Unique

-- Why a document is kept out of the index: a value of a unique field has an owner already, as far
-- as claims and entries tell.
namespace DocStore

theorem bind_eq_ok_iff {α β : Type} {m : Except Error α} {f : α → Except Error β} {b : β} :
    (m >>= f) = .ok b ↔ ∃ a, m = .ok a ∧ f a = .ok b := by
  cases m <;> simp [bind, Except.bind]

theorem bind_eq_error_iff {α β : Type} {m : Except Error α} {f : α → Except Error β} {e : Error} :
    (m >>= f) = .error e ↔ m = .error e ∨ ∃ a, m = .ok a ∧ f a = .error e := by
  cases m <;> simp [bind, Except.bind]

theorem Error.isConflict_of_isCancelled {e : Error} (h : e.isCancelled = true) :
    e.isConflict = false := by
  cases e with
  | cancelled | deadlineExceeded => rfl
  | validation | conflict | notFound | writeConflict | serialization | internal => cases h

theorem Record.isConflict_of_decode {record : Bytes} {e : Error}
    (h : decode record = .error e) : e.isConflict = false := by
  cases record with
  | nil =>
      cases h
      rfl
  | cons b payload =>
      simp only [decode] at h
      repeat' split at h
      all_goals
        cases h
        try rfl

-- A view that fails with no conflict, whatever it tells.
def View.Mild (view : View) : Prop := ∀ e, view.Fails e → e.isConflict = false

theorem View.Shows.mild {view : View} {map : SortedMap Bytes Bytes} (h : view.Shows map) :
    view.Mild := fun e he => Error.isConflict_of_isCancelled (h.fails e he)

theorem View.Mild.isConflict_of_stored? {view : View} (h : view.Mild) {model id : String}
    {e : Error} (he : Store.stored? model id view = .error e) : e.isConflict = false := by
  rcases bind_eq_error_iff.mp he with hget | ⟨record, -, hrest⟩
  · exact h e (.inl ⟨_, hget⟩)
  · cases record with
    | none => cases hrest
    | some record =>
        rcases bind_eq_error_iff.mp hrest with hdecode | ⟨doc, -, hdoc⟩
        · exact Record.isConflict_of_decode hdecode
        · cases hdoc

namespace Index

variable {view : View} {map : SortedMap Bytes Bytes} {model : Model} {doc : Document}
  {e : IndexEntry} {owner : Bytes} {error : Error}

-- A claim of the value, or an entry with it, names an owner.
def Names (map : SortedMap Bytes Bytes) (model : String) (e : IndexEntry) (owner : Bytes) : Prop :=
  map.get? (Key.claim model e.path e.encoded) = some owner ∨
    Key.separator ∉ owner ∧ (map.get? (Key.fieldValue model e.path e.encoded ++ owner)).isSome

-- Whoever is stored under the name of an owner has the value. There may be nobody.
def Owns (map : SortedMap Bytes Bytes) (model : String) (e : IndexEntry) (owner : Bytes) : Prop :=
  ∀ id, owner = Bytes.ofString id → ∃ stored, Store.stored? model id (View.ofMap map) = .ok stored ∧
    ∀ other, stored = some other → e ∈ IndexEntry.ofBody other.val

-- A value is refused to a document for the sake of an owner.
structure Taken (map : SortedMap Bytes Bytes) (model id : String) (e : IndexEntry)
    (owner : Bytes) : Prop where
  other : owner ≠ Bytes.ofString id
  named : Names map model e owner
  owns : Owns map model e owner

theorem owns_of_holdsValue (hview : view.Shows map) {name : String}
    (h : holdsValue view name owner e = .ok true) : Owns map name e owner := by
  rintro id rfl
  rw [holdsValue_eq] at h
  cases hstored : Store.stored? name id view with
  | error error => simp [hstored, Except.map] at h
  | ok stored =>
      refine ⟨stored, hview.stored? hstored, ?_⟩
      rintro other rfl
      simpa [hstored, Except.map] using h

theorem isConflict_of_holdsValue (hview : view.Mild) {name : String}
    (h : holdsValue view name owner e = .error error) : error.isConflict = false := by
  cases howner : Bytes.toString? owner with
  | none => simp [holdsValue, howner] at h
  | some id =>
      rw [Bytes.toString?_eq_some_iff.mp howner, holdsValue_eq] at h
      cases hstored : Store.stored? name id view with
      | error error' =>
          simp only [hstored, Except.map, Except.error.injEq] at h
          exact h ▸ hview.isConflict_of_stored? hstored
      | ok stored => simp [hstored, Except.map] at h

theorem checkOwner_conflict (hview : view.Shows map)
    (h : checkOwner view doc e owner = .error error) (hconflict : error.isConflict = true) :
    error = takenError e owner ∧ owner ≠ Bytes.ofString doc.id ∧ Owns map doc.model e owner := by
  simp only [checkOwner] at h
  split at h
  · next hother =>
    rcases bind_eq_error_iff.mp h with hfailed | ⟨holds, hholds, hrest⟩
    · rw [isConflict_of_holdsValue hview.mild hfailed] at hconflict
      cases hconflict
    · cases holds with
      | false => cases hrest
      | true => exact ⟨(Except.error.inj hrest).symm, hother, owns_of_holdsValue hview hholds⟩
  · cases h

theorem checkOwners_error {items : List (Except Error Pair)}
    (h : checkOwners view doc e items = .error error) :
    .error error ∈ items ∨ ∃ pair owner, .ok pair ∈ items ∧
      Key.splitEntry? (Key.field doc.model e.path) pair.1 = some (e.encoded, owner) ∧
        checkOwner view doc e owner = .error error := by
  induction items with
  | nil => cases h
  | cons item rest ih =>
      match item with
      | .error error' =>
          cases h
          exact .inl List.mem_cons_self
      | .ok (key, value) =>
          have hlater (hrest : checkOwners view doc e rest = .error error) :
              .error error ∈ .ok (key, value) :: rest ∨
                ∃ pair owner, .ok pair ∈ .ok (key, value) :: rest ∧
                  Key.splitEntry? (Key.field doc.model e.path) pair.1 = some (e.encoded, owner) ∧
                    checkOwner view doc e owner = .error error := by
            refine (ih hrest).imp (List.mem_cons_of_mem _) ?_
            rintro ⟨pair, owner, hm, hpair⟩
            exact ⟨pair, owner, List.mem_cons_of_mem _ hm, hpair⟩
          simp only [checkOwners] at h
          split at h
          · next encoded owner hsplit =>
            split at h
            · next heq =>
              rcases bind_eq_error_iff.mp h with hfirst | ⟨_, -, hrest⟩
              · exact .inr ⟨(key, value), owner, List.mem_cons_self, heq ▸ hsplit, hfirst⟩
              · exact hlater hrest
            · exact hlater h
          · exact hlater h

-- A value that does not pass the check has an owner, or had one.
theorem taken_of_checkUnique (hview : view.Shows map)
    (h : checkUnique view doc e = .error error) (hconflict : error.isConflict = true) :
    ∃ owner, error = takenError e owner ∧ Taken map doc.model doc.id e owner := by
  have howner : ∀ owner, Names map doc.model e owner → checkOwner view doc e owner = .error error →
      ∃ owner, error = takenError e owner ∧ Taken map doc.model doc.id e owner := by
    intro owner hnames hcheck
    obtain ⟨herror, hother, howns⟩ := checkOwner_conflict hview hcheck hconflict
    exact ⟨owner, herror, hother, hnames, howns⟩
  have hlooked : ¬view.Fails error := by
    intro hfails
    rw [hview.mild _ hfails] at hconflict
    cases hconflict
  have hentries : checkOwners view doc e
      (view.entries (KeyRange.ofPrefix (Key.fieldValue doc.model e.path e.encoded))) =
        .error error →
      ∃ owner, error = takenError e owner ∧ Taken map doc.model doc.id e owner := by
    intro hcheck
    rcases checkOwners_error hcheck with hm | ⟨⟨key, value⟩, owner, hm, hsplit, hcheck⟩
    · exact absurd (.inr ⟨_, hm⟩) hlooked
    · obtain ⟨hin, -⟩ := (KeyRange.mem_select_iff _ _).mp (hview.pairs _ _ hm)
      obtain ⟨rfl, howns⟩ := Key.splitEntry?_eq_some_iff.mp hsplit
      refine howner owner (.inr ⟨howns, ?_⟩) hcheck
      rw [Key.fieldValue, List.append_assoc, List.singleton_append]
      exact Option.isSome_of_eq_some (map.get?_eq_some_iff.mpr hin)
  rcases bind_eq_error_iff.mp h with hget | ⟨claim, hclaim, hrest⟩
  · exact absurd (.inl ⟨_, hget⟩) hlooked
  · cases claim with
    | none => exact hentries hrest
    | some owner =>
        rcases bind_eq_error_iff.mp hrest with hfirst | ⟨_, -, hrest⟩
        · exact howner owner (.inl (hview.get _ _ hclaim).symm) hfirst
        · exact hentries hrest

theorem exists_of_checkAll_error {entries : List IndexEntry}
    (h : checkAll view doc entries = .error error) :
    ∃ e ∈ entries, checkUnique view doc e = .error error := by
  induction entries with
  | nil => cases h
  | cons first rest ih =>
      rcases bind_eq_error_iff.mp h with hfirst | ⟨_, -, hrest⟩
      · exact ⟨first, List.mem_cons_self, hfirst⟩
      · obtain ⟨e, he, hcheck⟩ := ih hrest
        exact ⟨e, List.mem_cons_of_mem _ he, hcheck⟩

-- A conflict keeps a document out of the index only for the sake of a value of a unique field, and
-- of somebody else who is its owner.
theorem taken_of_add (hview : view.Shows map) (h : add view model doc = .error error)
    (hconflict : error.isConflict = true) :
    ∃ e ∈ IndexEntry.ofBody doc.val, model.isUnique e.path = true ∧
      ∃ owner, error = takenError e owner ∧ Taken map doc.model doc.id e owner := by
  rcases bind_eq_error_iff.mp h with hall | ⟨_, -, hrest⟩
  · obtain ⟨e, he, hcheck⟩ := exists_of_checkAll_error hall
    obtain ⟨hbody, hunique⟩ := List.mem_filter.mp he
    exact ⟨e, hbody, hunique, taken_of_checkUnique hview hcheck hconflict⟩
  · cases hrest

-- A document is never kept in the index.
theorem isConflict_of_remove (hview : view.Mild)
    (h : remove view model doc = .error error) : error.isConflict = false := by
  have hentries : ∀ entries : List IndexEntry,
      removeEntries view model doc entries = .error error → error.isConflict = false := by
    intro entries
    induction entries with
    | nil => intro h; cases h
    | cons e rest ih =>
        intro h
        have hlater : ∀ held : Bool, (do
            let writes ← removeEntries view model doc rest
            return (Key.entry doc.model e.path e.encoded doc.id, none) ::
              (if held then (Key.claim doc.model e.path e.encoded, none) :: writes else writes)) =
            .error error → error.isConflict = false := by
          intro held h
          rcases bind_eq_error_iff.mp h with hrest | ⟨_, -, hdone⟩
          · exact ih hrest
          · cases hdone
        simp only [removeEntries] at h
        split at h
        · rcases bind_eq_error_iff.mp h with hheld | ⟨held, -, hrest⟩
          · cases hget : view.get (Key.claim doc.model e.path e.encoded) with
            | error error' =>
                simp only [hget, Except.map, Except.error.injEq] at hheld
                exact hheld ▸ hview _ (.inl ⟨_, hget⟩)
            | ok claim => simp [hget, Except.map] at hheld
          · exact hlater held hrest
        · exact hlater false h
  exact hentries _ h

end Index

end DocStore
