import Mathlib
import DocStore.Proofs.Search.Order

-- A page of a search holds what is kept when candidates are looked at one at a time.
namespace DocStore

-- An index entry takes no document's place.
theorem Legible.insert_entry {map : SortedMap Bytes Bytes} (h : Legible map)
    (model path : String) (encoded value : Bytes) (id : String) :
    Legible (map.insert (Key.entry model path encoded id) value) := by
  intro other otherId record hget
  have hne : Key.entry model path encoded id ≠ Key.document other otherId := by
    intro heq
    have hhead := congrArg List.head? heq
    rw [Key.head?_entry, Key.head?_document] at hhead
    exact absurd hhead (by decide)
  rw [SortedMap.get?_insert, if_neg hne] at hget
  exact h other otherId record hget

namespace Search

-- A page ends with its last document if there is no room for a further one, and else with nothing.
theorem lastKey_take {room : Nat} (hroom : 0 < room) (kept : List (Candidate × Document)) :
    (kept.take room).length < room ∧ lastKey room (kept.take room) = none ∨
      (kept.take room).length = room ∧ ∃ front c doc, kept.take room = front ++ [(c, doc)] ∧
        lastKey room (kept.take room) = some c.key := by
  have hlength : (kept.take room).length ≤ room := List.length_take_le ..
  generalize kept.take room = page at hlength
  rcases Nat.lt_or_eq_of_le hlength with hlt | heq
  · exact .inl ⟨hlt, if_neg (Nat.not_le.mpr hlt)⟩
  · have hne : page ≠ [] := by
      rw [← List.length_pos_iff]
      omega
    obtain ⟨front, ⟨c, doc⟩, rfl⟩ := (List.eq_nil_or_concat' page).resolve_left hne
    exact .inr ⟨heq, front, c, doc, rfl, lastKey_concat _ heq.ge⟩

-- Whatever the index holds, as long as the records can be read, a page is what a plain loop gives.
-- It goes through the ids that are found behind the cursor for the first filter, one at a time,
-- keeps those that pass the probes of the other filters and whose documents satisfy all of them,
-- and stops when the page is full. Then, and only then, the page ends with the last document.
theorem page_of_walk {config : Config} (hconfig : config.check = .ok ())
    {map : SortedMap Bytes Bytes} (hlegible : Legible map) {request : SearchRequest}
    (hcheck : request.check = .ok ()) {driving : Filter} {others : List Filter}
    (hfilters : request.filters = driving :: others) {after : Option Bytes}
    (hcursor : request.cursor.mapM Cursor.decode = .ok after)
    (hafter : ∀ key ∈ after, (Plan.ofFilter request.model driving).range.contains key = true) :
    (∀ doc, (plansOf request).all (fun plan => plan.acceptsDocument doc) = true ↔
      ∀ f ∈ request.filters, f.Matches doc) ∧
    ∃ candidates kept last,
      find (View.ofMap map) request.model driving after = .ok candidates ∧
      walk (View.ofMap map) request.model (plansOf request) (config.search.pageSize request.limit)
        candidates = .ok kept ∧
      page (View.ofMap map) config.search request = .ok (answer request (kept.map (·.2)) last) ∧
      (kept.length < config.search.pageSize request.limit ∧ last = none ∨
        kept.length = config.search.pageSize request.limit ∧
          ∃ front c doc, kept = front ++ [(c, doc)] ∧ last = some c.key) := by
  refine ⟨fun doc => by rw [List.all_eq_true, accepted_iff hcheck], ?_⟩
  have hroom : ([] : List Document).length < config.search.pageSize request.limit :=
    Config.pageSize_pos hconfig request.limit
  obtain ⟨cs, hfind, -⟩ := find_spec map request.model driving hafter
  have hpage : page (View.ofMap map) config.search request = _ :=
    page_eq_fill hcheck hfilters hcursor hfind
  rw [fill_ofMap hlegible request.model (plansOf request) cs hroom] at hpage
  exact ⟨_, _, _, hfind, walk_ofMap hlegible request.model (plansOf request) _ cs, hpage,
    lastKey_take hroom _⟩

-- The candidate that the entry of a title gives.
def listed (title id : String) : Candidate :=
  ⟨id, Key.entry "com.ex.Book" "val.title" (Bytes.ofString title) id⟩

-- Content with an entry that has no document.
def shelf : SortedMap Bytes Bytes :=
  (stocked [titled "a" "abc", titled "b" "a", titled "c" "ab", titled "d" "b"]).insert
    (listed "aa" "e").key Key.entryMarker

-- A search for titles behind a place in the index, where the least title does not count.
def browsing : SearchRequest :=
  ⟨"com.ex.Book", [Filter.present "title", .greaterThan "title" (.string "a")],
    some (Cursor.encode (listed "a0" "").key), some 2, false, []⟩

theorem legible_shelf : Legible shelf := by
  have hread : ∀ doc ∈ [titled "a" "abc", titled "b" "a", titled "c" "ab", titled "d" "b"],
      Record.decode (Record.encode .messagePack doc) = .ok doc := by
    simp only [List.forall_mem_cons]
    exact ⟨by cbv, by cbv, by cbv, by cbv, by simp⟩
  exact (placed_stocked hread).labelled.legible.insert_entry _ _ _ _ _

-- The entry without a document passes the probe, and leaves its place on the page to another one.
theorem page_of_walk_shelf : page (View.ofMap shelf) Config.standard.search browsing =
    .ok ⟨some (Cursor.encode (listed "ab" "c").key), ["a", "c"], []⟩ := by
  have hconfig : Config.standard.check = .ok () := by cbv
  have hcheck : browsing.check = .ok () := by cbv
  have hcursor : browsing.cursor.mapM Cursor.decode = .ok (some (listed "a0" "").key) := by cbv
  have hrange : (Plan.ofFilter "com.ex.Book" (Filter.present "title")).range.contains
      (listed "a0" "").key = true := by cbv
  obtain ⟨-, candidates, kept, last, hfind, hwalk, hpage, hlast⟩ :=
    page_of_walk hconfig legible_shelf hcheck rfl hcursor
      (fun key hkey => Option.some.inj hkey ▸ hrange)
  have hcandidates : find (View.ofMap shelf) browsing.model (Filter.present "title")
      (some (listed "a0" "").key) = .ok [.ok (listed "aa" "e"), .ok (listed "abc" "a"),
        .ok (listed "ab" "c"), .ok (listed "a" "b"), .ok (listed "b" "d")] := by cbv
  obtain rfl := Except.ok.inj (hcandidates.symm.trans hfind)
  have hkept : walk (View.ofMap shelf) browsing.model (plansOf browsing)
      (Config.standard.search.pageSize browsing.limit) [.ok (listed "aa" "e"),
        .ok (listed "abc" "a"), .ok (listed "ab" "c"), .ok (listed "a" "b"),
        .ok (listed "b" "d")] = .ok [(listed "abc" "a", titled "a" "abc"),
          (listed "ab" "c", titled "c" "ab")] := by cbv
  obtain rfl := Except.ok.inj (hkept.symm.trans hwalk)
  rcases hlast with ⟨hroom, -⟩ | ⟨-, front, c, doc, hkept, rfl⟩
  · exact absurd hroom (by decide)
  · have hend : [(listed "abc" "a", titled "a" "abc")] ++ [(listed "ab" "c", titled "c" "ab")] =
        front ++ [(c, doc)] := hkept
    obtain ⟨-, hpair⟩ := List.append_inj' hend rfl
    cases hpair
    exact hpage

end Search

end DocStore
