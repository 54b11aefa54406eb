import DocStore.Proofs.Store.Documents

-- Content that is written at once: some documents, and the index entries of each.
namespace DocStore

-- The place that a document is stored in.
def Document.place (doc : Document) : String × String := (doc.model, doc.id)

-- What puts a document into the index.
def Document.entryWrites (doc : Document) : List (Bytes × Bytes) :=
  doc.entryKeys.map (fun key => (key, Key.entryMarker))

theorem Document.keys_entryWrites (doc : Document) :
    doc.entryWrites.map (·.1) = doc.entryKeys := by
  simp [entryWrites, Function.comp_def]

def stocked : List Document → SortedMap Bytes Bytes
  | [] => .empty
  | doc :: docs =>
    ((stocked docs).insert (Key.document doc.model doc.id)
      (Record.encode .messagePack doc)).insertAll doc.entryWrites

variable {docs : List Document}

-- The entries of a document are in no document's place.
theorem get?_stocked_document (docs : List Document) (model id : String) :
    (stocked docs).get? (Key.document model id) =
      (docs.find? (fun doc => doc.place = (model, id))).map (Record.encode .messagePack) := by
  induction docs with
  | nil => rfl
  | cons doc docs ih =>
      have hentry : Key.document model id ∉
          doc.entryWrites.map (·.1) := by
        rw [doc.keys_entryWrites]
        intro hm
        have hhead := Document.head?_of_mem_entryKeys hm
        rw [Key.head?_document] at hhead
        exact absurd hhead (by decide)
      rw [stocked, SortedMap.get?_insertAll_of_notMem _ hentry, SortedMap.get?_insert, ih]
      simp only [Key.document_inj, List.find?_cons, Document.place, Prod.mk.injEq]
      split
      · next heq => simp [heq]
      · next hne => simp [hne]

theorem isSome_get?_stocked_entry {key : Bytes} (hkey : key.head? = some Key.entryTag) :
    ((stocked docs).get? key).isSome ↔ ∃ doc ∈ docs, key ∈ doc.entryKeys := by
  induction docs with
  | nil => simp [stocked, SortedMap.get?_empty]
  | cons doc docs ih =>
      have hdocument : Key.document doc.model doc.id ≠ key := by
        rintro rfl
        rw [Key.head?_document] at hkey
        exact absurd hkey (by decide)
      rw [stocked]
      by_cases hm : key ∈ doc.entryKeys
      · simp [SortedMap.isSome_get?_insertAll _ (doc.keys_entryWrites.symm ▸ hm), hm]
      · rw [SortedMap.get?_insertAll_of_notMem _ (doc.keys_entryWrites.symm ▸ hm), SortedMap.get?_insert,
          if_neg hdocument, ih]
        simp [hm]

-- Documents that can be read back are stored.
theorem stored?_stocked
    (hread : ∀ doc ∈ docs, Record.decode (Record.encode .messagePack doc) = .ok doc)
    (model id : String) : Store.stored? model id (View.ofMap (stocked docs)) =
      .ok (docs.find? (fun doc => doc.place = (model, id))) := by
  rw [Store.stored?_ofMap, get?_stocked_document]
  cases hfind : docs.find? (fun doc => doc.place = (model, id)) with
  | none => rfl
  | some doc =>
      simp only [Option.map_some, hread doc (List.mem_of_find?_eq_some hfind)]
      rfl

theorem placed_stocked
    (hread : ∀ doc ∈ docs, Record.decode (Record.encode .messagePack doc) = .ok doc) :
    Placed (stocked docs) := by
  intro model id
  refine ⟨_, stored?_stocked hread model id, fun doc hdoc => ?_⟩
  have hplace := List.find?_some hdoc
  simpa [Document.place] using hplace

-- With one document in each place, the index holds the entries of these documents, and no others.
theorem indexed_stocked
    (hread : ∀ doc ∈ docs, Record.decode (Record.encode .messagePack doc) = .ok doc)
    (hplaces : (docs.map Document.place).Nodup) : Indexed (stocked docs) := by
  have hfind : ∀ doc ∈ docs, docs.find? (fun other => other.place = doc.place) = some doc := by
    intro doc hdoc
    rw [List.find?_eq_some_iff_append]
    obtain ⟨front, back, rfl⟩ := List.append_of_mem hdoc
    refine ⟨by simp, front, back, rfl, fun other hother => ?_⟩
    simp only [List.map_append, List.map_cons] at hplaces
    have hdisjoint := (List.nodup_append.mp hplaces).2.2 _ (List.mem_map_of_mem hother) doc.place
      List.mem_cons_self
    simpa using hdisjoint
  intro key hkey
  rw [isSome_get?_stocked_entry hkey]
  constructor
  · rintro ⟨doc, hdoc, hm⟩
    exact ⟨doc.model, doc.id, doc, by rw [stored?_stocked hread]; exact congrArg _ (hfind doc hdoc),
      hm⟩
  · rintro ⟨model, id, doc, hstored, hm⟩
    rw [stored?_stocked hread, Except.ok.injEq] at hstored
    exact ⟨doc, List.mem_of_find?_eq_some hstored, hm⟩

end DocStore
