import DocStore.Proofs.Bytes
import DocStore.Proofs.Index
import DocStore.Proofs.Index.Entry
import DocStore.Proofs.Store.Ensures

-- What the check of unique fields finds out about other documents.
namespace DocStore.Index

variable {view : View} {map : SortedMap Bytes Bytes} {model : Model} {doc : Document}
  {e : IndexEntry}

-- A stored document does not hold a value.
def Lacks (map : SortedMap Bytes Bytes) (model id : String) (e : IndexEntry) : Prop :=
  ∃ other, Store.stored? model id (View.ofMap map) = .ok (some other) ∧
    e ∉ IndexEntry.ofBody other.val

theorem Lacks.congr {other : SortedMap Bytes Bytes} {name id : String} (h : Lacks map name id e)
    (hsame : map.get? (Key.document name id) = other.get? (Key.document name id)) :
    Lacks other name id e := by
  simpa only [Lacks, Store.stored?_ofMap, hsame] using h

theorem holdsValue_eq (view : View) (model id : String) (e : IndexEntry) :
    holdsValue view model (Bytes.ofString id) e = (Store.stored? model id view).map (fun stored =>
      match stored with
      | none => true
      | some other => decide (e ∈ IndexEntry.ofBody other.val)) := by
  have hholds : ∀ other : Document,
      ((IndexEntry.leavesAt other.val e.path).any (fun leaf =>
        ScalarKind.of? leaf == some e.kind && Key.encode? leaf == some e.encoded)) =
      decide (e ∈ IndexEntry.ofBody other.val) := by
    intro other
    rw [Bool.eq_iff_iff, decide_eq_true_iff, IndexEntry.mem_ofBody_iff]
    simp only [List.any_eq_true, Bool.and_eq_true, beq_iff_eq]
    exact exists_congr (fun v => and_congr_right (fun _ => and_comm))
  simp only [holdsValue, Bytes.toString?_ofString, Store.stored?, bind, Except.bind]
  cases view.get (Key.document model id) with
  | error error => rfl
  | ok record =>
      cases record with
      | none => rfl
      | some record =>
          simp only
          cases Record.decode record with
          | error error => rfl
          | ok other =>
              simp only [hholds]
              rfl

theorem lacks_of_holdsValue (hview : view.Shows map) {name id : String}
    (h : holdsValue view name (Bytes.ofString id) e = .ok false) : Lacks map name id e := by
  rw [holdsValue_eq] at h
  cases hstored : Store.stored? name id view with
  | error error => simp [hstored, Except.map] at h
  | ok stored =>
      rw [hstored] at h
      cases stored with
      | none => simp [Except.map] at h
      | some other => exact ⟨other, hview.stored? hstored, by simpa [Except.map] using h⟩

theorem lacks_of_checkOwner (hview : view.Shows map) {id : String} (hne : id ≠ doc.id)
    (h : checkOwner view doc e (Bytes.ofString id) = .ok ()) : Lacks map doc.model id e := by
  have hother : Bytes.ofString id ≠ Bytes.ofString doc.id :=
    fun heq => hne (Bytes.ofString_inj.mp heq)
  simp only [checkOwner, if_pos hother, bind, Except.bind] at h
  cases hholds : holdsValue view doc.model (Bytes.ofString id) e with
  | error error => simp [hholds] at h
  | ok holds =>
      cases holds with
      | true => simp [hholds] at h
      | false => exact lacks_of_holdsValue hview hholds

theorem checkOwners_ok {items : List (Except Error Pair)}
    (h : checkOwners view doc e items = .ok ()) :
    (∀ error, .error error ∉ items) ∧ ∀ pair owner, .ok pair ∈ items →
      Key.splitEntry? (Key.field doc.model e.path) pair.1 = some (e.encoded, owner) →
        checkOwner view doc e owner = .ok () := by
  induction items with
  | nil => simp
  | cons item rest ih =>
      cases item with
      | error error => simp [checkOwners] at h
      | ok pair =>
          obtain ⟨key, value⟩ := pair
          simp only [checkOwners, bind, Except.bind] at h
          have hfirst : checkOwners view doc e rest = .ok () ∧
              ∀ owner, Key.splitEntry? (Key.field doc.model e.path) key =
                some (e.encoded, owner) → checkOwner view doc e owner = .ok () := by
            split at h
            · next encoded owner hsplit =>
              split at h
              · next heq =>
                cases hcheck : checkOwner view doc e owner with
                | error error => simp [hcheck] at h
                | ok _ =>
                    refine ⟨by simpa [hcheck] using h, fun owner' hsplit' => ?_⟩
                    rw [hsplit, Option.some.injEq, Prod.mk.injEq] at hsplit'
                    rw [← hsplit'.2, hcheck]
              · next hne =>
                refine ⟨h, fun owner' hsplit' => ?_⟩
                rw [hsplit, Option.some.injEq, Prod.mk.injEq] at hsplit'
                exact absurd hsplit'.1 hne
            · next hnone => exact ⟨h, fun owner hsplit => by rw [hnone] at hsplit; cases hsplit⟩
          obtain ⟨hrest, hhead⟩ := hfirst
          obtain ⟨herror, htail⟩ := ih hrest
          constructor
          · intro error hm
            exact herror error (by simpa using hm)
          · intro pair owner hm hsplit
            rcases List.mem_cons.mp hm with heq | hm
            · cases heq
              exact hhead owner hsplit
            · exact htail pair owner hm hsplit

-- A value that passes the check belongs to no other document that is in the index.
theorem lacks_of_checkUnique (hview : view.Shows map) (h : checkUnique view doc e = .ok ())
    {id : String} (hne : id ≠ doc.id)
    (hentry : (map.get? (Key.entry doc.model e.path e.encoded id)).isSome) :
    Lacks map doc.model id e := by
  simp only [checkUnique, bind, Except.bind] at h
  have howners : checkOwners view doc e
      (view.entries (KeyRange.ofPrefix (Key.fieldValue doc.model e.path e.encoded))) = .ok () := by
    split at h
    · cases h
    · split at h
      · split at h
        · cases h
        · exact h
      · exact h
  obtain ⟨herror, hpairs⟩ := checkOwners_ok howners
  obtain ⟨value, hvalue⟩ := Option.isSome_iff_exists.mp hentry
  have hm : (Key.entry doc.model e.path e.encoded id, value) ∈
      (KeyRange.ofPrefix (Key.fieldValue doc.model e.path e.encoded)).select map := by
    rw [KeyRange.mem_select_iff, KeyRange.contains_ofPrefix]
    exact ⟨(map.get?_eq_some_iff).mp hvalue, List.prefix_append _ _⟩
  rcases hview.entries (KeyRange.ofPrefix (Key.fieldValue doc.model e.path e.encoded)) with
    hall | ⟨error, hm'⟩
  · have hitem := List.mem_map_of_mem (f := Except.ok (ε := Error)) hm
    rw [← hall] at hitem
    exact lacks_of_checkOwner hview hne (hpairs _ _ hitem (Key.splitEntry?_entry ..))
  · exact absurd hm' (herror error)

theorem checkAll_ok {entries : List IndexEntry} (h : checkAll view doc entries = .ok ()) :
    ∀ e ∈ entries, checkUnique view doc e = .ok () := by
  induction entries with
  | nil => simp
  | cons first rest ih =>
      simp only [checkAll, bind, Except.bind] at h
      cases hfirst : checkUnique view doc first with
      | error error => simp [hfirst] at h
      | ok _ =>
          simp only [hfirst] at h
          intro e he
          rcases List.mem_cons.mp he with rfl | he
          · exact hfirst
          · exact ih h e he

-- Whoever puts a document into the index claims each of its unique values, and no other document in
-- the index holds it.
theorem add_unique (hview : view.Shows map) {writes : List Write}
    (h : add view model doc = .ok writes) (he : e ∈ IndexEntry.ofBody doc.val)
    (hunique : model.isUnique e.path = true) :
    Key.claim doc.model e.path e.encoded ∈ writes.map (·.1) ∧
      ∀ id, id ≠ doc.id → (map.get? (Key.entry doc.model e.path e.encoded id)).isSome →
        Lacks map doc.model id e := by
  simp only [add, bind, Except.bind] at h
  split at h
  · cases h
  · next hall =>
    cases h
    constructor
    · have hclaim : ((Key.claim doc.model e.path e.encoded, some (Bytes.ofString doc.id)) : Write) ∈
          (IndexEntry.ofBody doc.val).flatMap (fun e =>
            let write : Write :=
              (Key.entry doc.model e.path e.encoded doc.id, some Key.entryMarker)
            if model.isUnique e.path then
              [(Key.claim doc.model e.path e.encoded, some (Bytes.ofString doc.id)), write]
            else [write]) := List.mem_flatMap.mpr ⟨e, he, by simp [hunique]⟩
      exact List.mem_map_of_mem hclaim
    · intro id hne hentry
      have hcheck := checkAll_ok hall e (List.mem_filter.mpr ⟨he, by simpa using hunique⟩)
      exact lacks_of_checkUnique hview hcheck hne hentry

end DocStore.Index
