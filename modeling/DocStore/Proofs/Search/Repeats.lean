import DocStore.Proofs.Search.Pages
import Mathlib.Data.List.Nodup

-- How often a search lists a document. A scan passes over the further entries of a document that it
-- has given, but a page does not know what the pages before it hold.
namespace DocStore

-- What a plan accepts is an index entry of its field.
theorem Plan.exists_of_accept? {plan : Plan} {key : Bytes} {id : String}
    (h : plan.accept? key = some id) :
    ∃ encoded, key = Key.entry plan.model plan.path encoded id := by
  unfold accept? at h
  split at h
  · next encoded owner hsplit =>
    split at h
    · obtain ⟨rfl, -⟩ := Key.splitEntry?_eq_some_iff.mp hsplit
      rw [Bytes.toString?_eq_some_iff] at h
      refine ⟨encoded, ?_⟩
      simp [Key.entry, Key.fieldValue, h]
    · cases h
  · cases h

namespace Search

variable {map : SortedMap Bytes Bytes} {request : SearchRequest} {driving : Filter}
  {others : List Filter} {plan : Plan} {id : String}

-- How many entries a plan accepts as those of a document.
def timesGiven (plan : Plan) (id : String) (pairs : List Pair) : Nat :=
  pairs.countP (fun pair => plan.accept? pair.1 == some id)

theorem timesGiven_append (plan : Plan) (id : String) (passed later : List Pair) :
    timesGiven plan id (passed ++ later) = timesGiven plan id passed + timesGiven plan id later :=
  List.countP_append

theorem Passes.count_le {after last : Option Bytes} {docs : List Document}
    {passed later : List Pair} (h : Passes map request plan after docs last passed later)
    (id : String) : (docs.map (·.id)).count id ≤ timesGiven plan id passed := by
  by_cases hid : id ∈ docs.map (·.id)
  · obtain ⟨doc, hdoc, rfl⟩ := List.mem_map.mp hid
    obtain ⟨pair, hpair, haccept⟩ := h.given doc hdoc
    rw [List.count_eq_one_of_mem h.once hid]
    exact List.countP_pos_iff.mpr ⟨pair, hpair, by simp [haccept]⟩
  · rw [List.count_eq_zero.mpr hid]
    exact Nat.zero_le _

-- The pages that follow a cursor list a document at most once for each of its entries behind it.
theorem count_le_of_pages {config : Config} (hconfig : config.check = .ok ())
    (hcheck : request.check = .ok ()) (hplaced : Placed map)
    (hfilters : request.filters = driving :: others) {cursor : Option String}
    {pages : List SearchResponse}
    (hpages : Pages (View.ofMap map) config.search request cursor pages) {after : Option Bytes}
    (hcursor : cursor.mapM Cursor.decode = .ok after) (id : String) :
    (pages.flatMap (·.found)).count id ≤ timesGiven (Plan.ofFilter request.model driving) id
      ((behind (Plan.ofFilter request.model driving) after).select map) := by
  induction hpages generalizing after with
  | last hpage _ =>
      obtain ⟨after', docs, last, passed, later, hcursor', rfl, hpasses⟩ :=
        passes_of_page hconfig hcheck hplaced.labelled hfilters hpage
      obtain rfl : after = after' := Except.ok.inj (hcursor.symm.trans hcursor')
      rw [hpasses.split, timesGiven_append, List.flatMap_singleton, found_answer]
      exact Nat.le_trans (hpasses.count_le id) (Nat.le_add_right ..)
  | more hpage hnext _ ih =>
      obtain ⟨after', docs, last, passed, later, hcursor', rfl, hpasses⟩ :=
        passes_of_page hconfig hcheck hplaced.labelled hfilters hpage
      obtain rfl : after = after' := Except.ok.inj (hcursor.symm.trans hcursor')
      rw [cursor_answer, Option.map_eq_some_iff] at hnext
      obtain ⟨key, rfl, rfl⟩ := hnext
      have hrest := ih (mapM_decode_encode (some key))
      rw [(hpasses.goesOn key rfl).2.2] at hrest
      rw [hpasses.split, timesGiven_append, List.flatMap_cons, List.count_append, found_answer]
      exact Nat.add_le_add (hpasses.count_le id) hrest

-- The pages that follow an entry list exactly the documents to be found that have an entry behind
-- it. So a document that was listed before comes up again if it has another entry there.
theorem found_behind_iff {config : Config} (hconfig : config.check = .ok ())
    (hcheck : request.check = .ok ()) (hplaced : Placed map) (hindexed : Indexed map)
    (hfilters : request.filters = driving :: others) {after : Option Bytes}
    (hafter : ∀ key ∈ after, (Plan.ofFilter request.model driving).range.contains key = true)
    {pages : List SearchResponse}
    (hpages : Pages (View.ofMap map) config.search request (after.map Cursor.encode) pages)
    (id : String) :
    (∃ r ∈ pages, id ∈ r.found) ↔
      (∃ doc, Finds map request.model (plansOf request) id doc) ∧
        ∃ pair ∈ (behind (Plan.ofFilter request.model driving) after).select map,
          (Plan.ofFilter request.model driving).accept? pair.1 = some id := by
  constructor
  · rintro ⟨r, hr, hid⟩
    obtain ⟨cursor, hpage⟩ := hpages.page_of_mem hr
    obtain ⟨docs, last, rfl, hfound⟩ := page_sound hconfig hcheck hplaced hpage
    have hlisted := hid
    rw [found_answer] at hlisted
    obtain ⟨doc, hdoc, rfl⟩ := List.mem_map.mp hlisted
    have hbounded := count_le_of_pages hconfig hcheck hplaced hfilters hpages
      (mapM_decode_encode after) doc.id
    have hpositive := List.count_pos_iff.mpr (List.mem_flatMap.mpr ⟨_, hr, hid⟩)
    obtain ⟨pair, hpair, haccept⟩ := List.countP_pos_iff.mp (Nat.lt_of_lt_of_le hpositive hbounded)
    exact ⟨⟨doc, hfound doc hdoc⟩, pair, hpair, by simpa using haccept⟩
  · rintro ⟨⟨doc, hdoc⟩, hgiven⟩
    obtain ⟨pages', hpages', hcovers⟩ :=
      exists_pages hconfig hcheck hplaced hindexed hfilters hafter
    obtain rfl := hpages.unique hpages'
    exact hcovers id doc hdoc hgiven

-- A search lists a document once on a page, and over all pages at most once for each of its entries
-- in the range that is scanned. The cursor that a page ends with is accepted.
theorem repeats_bounded {config : Config} (hconfig : config.check = .ok ())
    (hcheck : request.check = .ok ()) (hplaced : Placed map)
    (hfilters : request.filters = driving :: others) :
    (∀ cursor r, page (View.ofMap map) config.search { request with cursor := cursor } = .ok r →
      r.found.Nodup ∧ ∀ next, r.cursor = some next → ∃ r',
        page (View.ofMap map) config.search { request with cursor := some next } = .ok r') ∧
    ∀ pages, Pages (View.ofMap map) config.search request none pages → ∀ id,
      (pages.flatMap (·.found)).count id ≤ timesGiven (Plan.ofFilter request.model driving) id
        ((Plan.ofFilter request.model driving).range.select map) := by
  have hnone : (none : Option String).mapM Cursor.decode = .ok none := rfl
  refine ⟨fun cursor r hpage => ?_, fun pages hpages id =>
    count_le_of_pages hconfig hcheck hplaced hfilters hpages hnone id⟩
  obtain ⟨_, docs, last, _, _, -, rfl, hpasses⟩ :=
    passes_of_page hconfig hcheck hplaced.labelled hfilters hpage
  refine ⟨by rw [found_answer]; exact hpasses.once, fun next hnext => ?_⟩
  rw [cursor_answer, Option.map_eq_some_iff] at hnext
  obtain ⟨key, rfl, rfl⟩ := hnext
  obtain ⟨docs', last', _, _, hpage', -⟩ :=
    exists_passes hconfig hcheck hplaced.labelled hfilters (mapM_decode_encode (some key))
      (fun other hother => Option.some.inj hother ▸ (hpasses.goesOn key rfl).2.1)
  exact ⟨_, hpage'⟩

-- An entry that a plan accepts is that of an indexed scalar of the stored document.
theorem exists_leaf (hplaced : Placed map) (hindexed : Indexed map) {pair : Pair}
    (hpair : pair ∈ plan.range.select map) (haccept : plan.accept? pair.1 = some id) :
    ∃ doc, Store.stored? plan.model id (View.ofMap map) = .ok (some doc) ∧
      ∃ v ∈ IndexEntry.leavesAt doc.val plan.path, ∃ encoded, Key.encode? v = some encoded ∧
        pair.1 = Key.entry plan.model plan.path encoded id := by
  obtain ⟨encoded, hkey⟩ := Plan.exists_of_accept? haccept
  have hget : (map.get? pair.1).isSome := by
    rw [map.get?_eq_some_iff.mpr ((KeyRange.mem_select_iff _ _).mp hpair).1]
    rfl
  rw [hkey] at hget
  obtain ⟨model, owner, doc, hstored, hentry⟩ := (hindexed _ (Key.head?_entry ..)).mp hget
  obtain ⟨_, hdoc, hplace⟩ := hplaced model owner
  rw [hstored, Except.ok.injEq] at hdoc
  obtain ⟨rfl, rfl⟩ := hplace doc hdoc.symm
  obtain ⟨e, he, heq⟩ := List.mem_map.mp hentry
  obtain ⟨hmodel, hpath, rfl, hid⟩ := Key.entry_inj.mp heq
  obtain ⟨v, hv, hencoded, -⟩ := IndexEntry.mem_ofBody_iff.mp he
  exact ⟨doc, hmodel ▸ hid ▸ hstored, v, hpath ▸ hv, e.encoded, hencoded, hkey⟩

-- A document with a single value has at most one entry.
theorem timesGiven_le_one (hplaced : Placed map) (hindexed : Indexed map)
    (hsingle : ∀ doc, Store.stored? plan.model id (View.ofMap map) = .ok (some doc) →
      (IndexEntry.leavesAt doc.val plan.path).length ≤ 1) :
    timesGiven plan id (plan.range.select map) ≤ 1 := by
  have hsame : ∀ p ∈ plan.range.select map, ∀ q ∈ plan.range.select map,
      plan.accept? p.1 = some id → plan.accept? q.1 = some id → p.1 = q.1 := by
    intro p hp q hq hacceptp hacceptq
    obtain ⟨doc, hstored, v, hv, encoded, hencoded, hkey⟩ :=
      exists_leaf hplaced hindexed hp hacceptp
    obtain ⟨doc', hstored', w, hw, encoded', hencoded', hkey'⟩ :=
      exists_leaf hplaced hindexed hq hacceptq
    obtain rfl : doc = doc' := by simpa [hstored] using hstored'
    obtain rfl : v = w := by
      match hleaves : IndexEntry.leavesAt doc.val plan.path, hsingle doc hstored with
      | [], _ => simp [hleaves] at hv
      | [x], _ =>
          rw [hleaves, List.mem_singleton] at hv hw
          rw [hv, hw]
    rw [hkey, hkey', Option.some.inj (hencoded.symm.trans hencoded')]
  have hasc := (plan.range.ascending_select map).filter
    (fun pair => plan.accept? pair.1 == some id)
  rw [timesGiven, List.countP_eq_length_filter]
  match hgiven : (plan.range.select map).filter (fun pair => plan.accept? pair.1 == some id) with
  | [] | [_] => simp [hgiven]
  | p :: q :: rest =>
      have hp : p ∈ (plan.range.select map).filter _ := hgiven ▸ List.mem_cons_self
      have hq : q ∈ (plan.range.select map).filter _ :=
        hgiven ▸ List.mem_cons_of_mem _ List.mem_cons_self
      simp only [List.mem_filter, beq_iff_eq] at hp hq
      rw [hgiven] at hasc
      have hlt : p.1 < q.1 := (List.pairwise_cons.mp hasc).1 q List.mem_cons_self
      rw [hsame p hp.1 q hq.1 hp.2 hq.2] at hlt
      exact absurd hlt Std.lt_irrefl

-- Where no document has more than one value in the field of the first filter, a search lists no
-- document twice.
theorem found_once {config : Config} (hconfig : config.check = .ok ())
    (hcheck : request.check = .ok ()) (hplaced : Placed map) (hindexed : Indexed map)
    (hfilters : request.filters = driving :: others)
    (hsingle : ∀ id doc, Store.stored? request.model id (View.ofMap map) = .ok (some doc) →
      (IndexEntry.leavesAt doc.val (Plan.indexPath driving.key)).length ≤ 1)
    {pages : List SearchResponse}
    (hpages : Pages (View.ofMap map) config.search request none pages) :
    (pages.flatMap (·.found)).Nodup := by
  obtain ⟨hmodel, hpath⟩ := Plan.names_ofFilter request.model driving
  refine List.nodup_iff_count_le_one.mpr fun id => ?_
  have hbounded := (repeats_bounded hconfig hcheck hplaced hfilters).2 pages hpages id
  refine Nat.le_trans hbounded (timesGiven_le_one hplaced hindexed fun doc hstored => ?_)
  rw [hpath]
  exact hsingle id doc (hmodel ▸ hstored)

end Search

end DocStore
