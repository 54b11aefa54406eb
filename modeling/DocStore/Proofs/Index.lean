import DocStore.Index.Maintenance
import DocStore.Proofs.Key
import DocStore.Proofs.SortedMap

namespace DocStore

-- The keys under which the index is to hold a document.
def Document.entryKeys (doc : Document) : List Bytes :=
  (IndexEntry.ofBody doc.val).map (fun e => Key.entry doc.model e.path e.encoded doc.id)

theorem Document.head?_of_mem_entryKeys {doc : Document} {key : Bytes} (h : key ∈ doc.entryKeys) :
    key.head? = some Key.entryTag := by
  obtain ⟨e, -, rfl⟩ := List.mem_map.mp h
  exact Key.head?_entry ..

namespace Index

variable {view : View} {model : Model} {doc : Document} {writes : List Write} {key : Bytes}

private theorem removeEntries_spec {entries : List IndexEntry}
    (h : removeEntries view model doc entries = .ok writes) :
    (∀ w ∈ writes, w.2 = none ∧
      (w.1.head? = some Key.claimTag ∨
        w.1 ∈ entries.map (fun e => Key.entry doc.model e.path e.encoded doc.id))) ∧
      ∀ e ∈ entries, Key.entry doc.model e.path e.encoded doc.id ∈ writes.map (·.1) := by
  induction entries generalizing writes with
  | nil =>
      cases h
      simp
  | cons e rest ih =>
      have hstep : ∃ (held : Bool) (others : List Write),
          removeEntries view model doc rest = .ok others ∧
          writes = (Key.entry doc.model e.path e.encoded doc.id, none) ::
            (if held then (Key.claim doc.model e.path e.encoded, none) :: others else others) := by
        simp only [removeEntries, bind, Except.bind] at h
        cases hrest : removeEntries view model doc rest with
        | error error =>
            simp only [hrest] at h
            repeat' split at h
            all_goals cases h
        | ok others =>
            simp only [hrest] at h
            split at h
            · split at h
              · cases h
              · next held _ => exact ⟨held, others, rfl, (Except.ok.inj h).symm⟩
            · exact ⟨false, others, rfl, (Except.ok.inj h).symm⟩
      obtain ⟨held, others, hothers, rfl⟩ := hstep
      obtain ⟨hwrites, hentries⟩ := ih hothers
      constructor
      · intro w hw
        rcases List.mem_cons.mp hw with rfl | hw
        · exact ⟨rfl, .inr (by simp)⟩
        · have hcases : w = (Key.claim doc.model e.path e.encoded, none) ∨ w ∈ others := by
            cases held with
            | false => exact .inr hw
            | true => exact List.mem_cons.mp hw
          rcases hcases with rfl | hw
          · exact ⟨rfl, .inl (Key.head?_claim ..)⟩
          · exact ⟨(hwrites w hw).1, (hwrites w hw).2.imp_right (List.mem_cons_of_mem _)⟩
      · intro other hm
        rcases List.mem_cons.mp hm with rfl | hm
        · simp
        · have hin := hentries other hm
          cases held with
          | false => exact List.mem_cons_of_mem _ hin
          | true => exact List.mem_cons_of_mem _ (List.mem_cons_of_mem _ hin)

-- What takes a document out of the index leaves none of its entries there, and no others out.
theorem get?_insertAll_remove (h : remove view model doc = .ok writes)
    (buffered : SortedMap Bytes (Option Bytes)) (hkey : key.head? ≠ some Key.claimTag) :
    (buffered.insertAll writes).get? key =
      if key ∈ doc.entryKeys then some none else buffered.get? key := by
  obtain ⟨hwrites, hentries⟩ := removeEntries_spec h
  split
  · next hm =>
    obtain ⟨e, he, rfl⟩ := List.mem_map.mp hm
    exact buffered.get?_insertAll_of_mem (hentries e he) (fun w hw _ => (hwrites w hw).1)
  · next hm =>
    refine buffered.get?_insertAll_of_notMem (fun hin => ?_)
    obtain ⟨w, hw, rfl⟩ := List.mem_map.mp hin
    exact (hwrites w hw).2.elim hkey hm

theorem remove_deletes (h : remove view model doc = .ok writes) : ∀ w ∈ writes, w.2 = none :=
  fun w hw => ((removeEntries_spec h).1 w hw).1

theorem add_spec (h : add view model doc = .ok writes) :
    (∀ w ∈ writes, (w.1.head? = some Key.claimTag ∧ w.2 = some (Bytes.ofString doc.id)) ∨
      (w.1 ∈ doc.entryKeys ∧ w.2 = some Key.entryMarker)) ∧
      ∀ key ∈ doc.entryKeys, key ∈ writes.map (·.1) := by
  simp only [add, bind, Except.bind] at h
  split at h
  · cases h
  · cases h
    constructor
    · intro w hw
      obtain ⟨e, he, hw⟩ := List.mem_flatMap.mp hw
      have hentry : Key.entry doc.model e.path e.encoded doc.id ∈ doc.entryKeys :=
        List.mem_map_of_mem he
      split at hw
      · rcases List.mem_cons.mp hw with rfl | hw
        · exact .inl ⟨Key.head?_claim .., rfl⟩
        · rw [List.mem_singleton.mp hw]
          exact .inr ⟨hentry, rfl⟩
      · rw [List.mem_singleton.mp hw]
        exact .inr ⟨hentry, rfl⟩
    · intro key hm
      obtain ⟨e, he, rfl⟩ := List.mem_map.mp hm
      rw [List.mem_map]
      refine ⟨(Key.entry doc.model e.path e.encoded doc.id, some Key.entryMarker),
        List.mem_flatMap.mpr ⟨e, he, ?_⟩, rfl⟩
      split <;> simp

-- What puts a document into the index puts all of its entries there, and no others.
theorem get?_insertAll_add (h : add view model doc = .ok writes)
    (buffered : SortedMap Bytes (Option Bytes)) (hkey : key.head? ≠ some Key.claimTag) :
    (buffered.insertAll writes).get? key =
      if key ∈ doc.entryKeys then some (some Key.entryMarker) else buffered.get? key := by
  obtain ⟨hwrites, hentries⟩ := add_spec h
  split
  · next hm =>
    refine buffered.get?_insertAll_of_mem (hentries key hm) (fun w hw heq => ?_)
    rcases hwrites w hw with ⟨hclaim, -⟩ | ⟨-, hvalue⟩
    · exact absurd (heq ▸ hclaim) hkey
    · exact hvalue
  · next hm =>
    refine buffered.get?_insertAll_of_notMem (fun hin => ?_)
    obtain ⟨w, hw, rfl⟩ := List.mem_map.mp hin
    exact (hwrites w hw).elim (fun hclaim => hkey hclaim.1) (fun hentry => hm hentry.1)

-- What is claimed for a document is claimed in its name.
theorem claim_of_mem_add (h : add view model doc = .ok writes) {value : Option Bytes}
    (hm : (key, value) ∈ writes) (hkey : key.head? = some Key.claimTag) :
    value = some (Bytes.ofString doc.id) := by
  rcases (add_spec h).1 _ hm with ⟨-, hvalue⟩ | ⟨hentry, -⟩
  · exact hvalue
  · have hhead := Document.head?_of_mem_entryKeys hentry
    rw [hkey] at hhead
    exact absurd hhead (by decide)

end Index

end DocStore
