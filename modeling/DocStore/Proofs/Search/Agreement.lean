import DocStore.Proofs.Search.Repeats

-- A filter is answered in three ways: by a scan of its range, by looking for one id in that range,
-- and for a single value by looking up one key. Whatever the index holds, they agree.
namespace DocStore

namespace Plan

variable {plan : Plan} {f : Filter} {model id : String} {encoded key : Bytes}

-- A plan for a single value goes through the entries of that value and compares nothing else.
theorem equal_skipping (plan : Plan) (skip : Value) : (plan.skipping skip).equal = plan.equal := by
  unfold skipping
  split
  · simp only
    split <;> rfl
  · rfl

theorem range_of_equal (h : (ofFilter model f).equal = some encoded) :
    (ofFilter model f).range = KeyRange.ofPrefix
        (Key.fieldValue (ofFilter model f).model (ofFilter model f).path encoded) ∧
      (ofFilter model f).comparison = .anything := by
  simp only [ofFilter, ofOperator] at h ⊢
  split at h
  · next operand _ _ _ _ =>
    simp only [equalTo] at h ⊢
    split at h
    · obtain rfl : _ = encoded := Option.some.inj h
      exact ⟨rfl, rfl⟩
    · cases h
  · simp only [startingWith] at h
    split at h
    · rw [equal_skipping] at h
      cases h
    · cases h
  · simp only [comparing] at h
    split at h <;> cases h
  · simp only [comparing] at h
    split at h <;> cases h
  · cases h

end Plan

namespace Search

variable {map : SortedMap Bytes Bytes} {request : SearchRequest} {f : Filter} {model id : String}
  {plans : List Plan}

-- An entry of a document that a plan accepts lies in the range of the plan.
def Given (map : SortedMap Bytes Bytes) (plan : Plan) (id : String) : Prop :=
  plan.isVoid = false ∧ ∃ pair ∈ plan.range.select map, plan.accept? pair.1 = some id

-- Looking up the key of a single value finds what a scan of its entries does. Entries of other
-- values may lie among them, and are not accepted.
theorem lookup_iff {encoded : Bytes} (h : (Plan.ofFilter model f).equal = some encoded) :
    (map.get? (Key.entry (Plan.ofFilter model f).model (Plan.ofFilter model f).path encoded
        id)).isSome ↔
      ∃ pair ∈ (Plan.ofFilter model f).range.select map,
        (Plan.ofFilter model f).accept? pair.1 = some id := by
  obtain ⟨hrange, hanything⟩ := Plan.range_of_equal h
  generalize Plan.ofFilter model f = plan at *
  have haccept : ∀ e, plan.accept? (Key.entry plan.model plan.path e id) = some id ↔
      e = encoded := by
    intro e
    rw [Plan.accept?_entry, h, hanything, eq_comm (a := e)]
    simp [Comparison.admits]
  constructor
  · intro hsome
    obtain ⟨value, hvalue⟩ := Option.isSome_iff_exists.mp hsome
    refine ⟨(_, value), (KeyRange.mem_select_iff _ _).mpr
      ⟨map.get?_eq_some_iff.mp hvalue, ?_⟩, (haccept encoded).mpr rfl⟩
    rw [hrange, KeyRange.contains_ofPrefix, Key.entry]
    exact List.prefix_append _ _
  · rintro ⟨⟨key, value⟩, hpair, hid⟩
    obtain ⟨e, rfl⟩ := Plan.exists_of_accept? hid
    obtain rfl := (haccept e).mp hid
    exact Option.isSome_of_eq_some
      (map.get?_eq_some_iff.mpr ((KeyRange.mem_select_iff _ _).mp hpair).1)

-- A probe finds an id exactly if a scan of the range of the filter gives it.
theorem probe_iff : probe (View.ofMap map) (Plan.ofFilter model f) id = .ok true ↔
    Given map (Plan.ofFilter model f) id := by
  rw [probe_ofMap, Given, Except.ok.injEq, Bool.and_eq_true, Bool.not_eq_true']
  refine and_congr_right fun _ => ?_
  cases h : (Plan.ofFilter model f).equal with
  | some encoded => exact lookup_iff h
  | none => simp

theorem probeAll_iff : probeAll (View.ofMap map) id plans = .ok true ↔
    ∀ plan ∈ plans, probe (View.ofMap map) plan id = .ok true := by
  induction plans with
  | nil => simp [probeAll]
  | cons plan rest ih =>
      obtain ⟨held, hheld⟩ : ∃ held, probe (View.ofMap map) plan id = .ok held :=
        ⟨_, probe_ofMap map plan id⟩
      simp only [probeAll, hheld, bind, Except.bind, List.forall_mem_cons, ← ih]
      cases held <;> simp [pure, Except.pure]

-- A single filter is matched by a document that its index entries give and that satisfies it.
theorem exists_isMatch (hlabelled : Labelled map) (model : String) (f : Filter) (id : String) :
    ∃ held, isMatch (View.ofMap map) model f id = .ok held ∧
      (held = true ↔ Given map (Plan.ofFilter model f) id ∧
        ∃ doc, Store.stored? model id (View.ofMap map) = .ok (some doc) ∧
          (Plan.ofFilter model f).acceptsDocument doc = true) := by
  rw [← probe_iff]
  obtain ⟨held, hheld⟩ : ∃ held, probe (View.ofMap map) (Plan.ofFilter model f) id = .ok held :=
    ⟨_, probe_ofMap map _ id⟩
  have hget : (View.ofMap map).get (Key.document model id) =
      .ok (map.get? (Key.document model id)) := rfl
  simp only [isMatch, hheld, hget, bind, Except.bind, Except.ok.injEq]
  cases held with
  | false => exact ⟨false, rfl, by simp⟩
  | true =>
      simp only [ite_true, true_and]
      cases hrecord : map.get? (Key.document model id) with
      | none => exact ⟨false, rfl, by simp [Store.stored?_ofMap, hrecord]⟩
      | some record =>
          obtain ⟨doc, hdecode, hstored, -⟩ := hlabelled.record hrecord
          simp only [hdecode]
          exact ⟨_, rfl, by simp [hstored]⟩

theorem isMatch_iff (hlabelled : Labelled map) :
    isMatch (View.ofMap map) model f id = .ok true ↔ Given map (Plan.ofFilter model f) id ∧
      ∃ doc, Store.stored? model id (View.ofMap map) = .ok (some doc) ∧
        (Plan.ofFilter model f).acceptsDocument doc = true := by
  obtain ⟨held, hheld, hiff⟩ := exists_isMatch hlabelled model f id
  rw [hheld, Except.ok.injEq, hiff]

-- What a search is to list: the documents that match every filter by itself.
theorem matches_iff (hlabelled : Labelled map) (hne : request.filters ≠ []) :
    (∀ f ∈ request.filters, isMatch (View.ofMap map) request.model f id = .ok true) ↔
      (∃ doc, Finds map request.model (plansOf request) id doc) ∧
        ∀ plan ∈ plansOf request, Given map plan id := by
  simp only [isMatch_iff hlabelled, plansOf, List.forall_mem_map]
  constructor
  · intro hall
    obtain ⟨driving, hdriving⟩ := List.exists_mem_of_ne_nil _ hne
    obtain ⟨-, doc, hstored, -⟩ := hall driving hdriving
    refine ⟨⟨doc, hstored, List.forall_mem_map.mpr fun f hf => ?_⟩, fun f hf => (hall f hf).1⟩
    obtain ⟨-, doc', hstored', haccepts⟩ := hall f hf
    rw [hstored, Except.ok.injEq, Option.some.injEq] at hstored'
    exact hstored' ▸ haccepts
  · rintro ⟨⟨doc, hdoc⟩, hgiven⟩ f hf
    exact ⟨hgiven f hf, doc, hdoc.stored, List.forall_mem_map.mp hdoc.accepted f hf⟩

-- The pages of a search come to an end. They list what its index entries give for every filter, as
-- far as the documents satisfy all of them.
theorem exists_pages_matching {config : Config} (hconfig : config.check = .ok ())
    (hcheck : request.check = .ok ()) (hlabelled : Labelled map) :
    ∃ pages, Pages (View.ofMap map) config.search request none pages ∧
      ∀ id, (∃ r ∈ pages, id ∈ r.found) ↔
        ∀ f ∈ request.filters, isMatch (View.ofMap map) request.model f id = .ok true := by
  have hne := (SearchRequest.valid_of_check hcheck).1
  obtain ⟨driving, others, hfilters⟩ := List.exists_cons_of_ne_nil hne
  have htail : (plansOf request).tail = others.map (Plan.ofFilter request.model) := by
    simp [plansOf, hfilters]
  have hprobes : ∀ id, (∀ plan ∈ plansOf request, Given map plan id) ↔
      Given map (Plan.ofFilter request.model driving) id ∧
        probeAll (View.ofMap map) id (plansOf request).tail = .ok true := by
    intro id
    rw [probeAll_iff, htail, plansOf, hfilters]
    simp only [List.map_cons, List.forall_mem_cons, List.forall_mem_map, probe_iff]
  obtain ⟨pages, hpages, hcovers⟩ := exists_pages_of_labelled hconfig hcheck
    hlabelled hfilters (show ∀ key ∈ (none : Option Bytes), _ from by simp)
  refine ⟨pages, hpages, fun id => ?_⟩
  rw [matches_iff hlabelled hne, hprobes]
  constructor
  · rintro ⟨r, hr, hid⟩
    obtain ⟨cursor, hpage⟩ := hpages.page_of_mem hr
    obtain ⟨after, docs, last, passed, later, hcursor, rfl, hpasses⟩ :=
      passes_of_page hconfig hcheck hlabelled hfilters hpage
    rw [found_answer] at hid
    obtain ⟨doc, hdoc, rfl⟩ := List.mem_map.mp hid
    have hfinds := hpasses.found doc hdoc
    have haccepts := hfinds.accepted _ (driving_mem_plansOf hfilters)
    simp only [Plan.acceptsDocument, Bool.and_eq_true, Bool.not_eq_true'] at haccepts
    obtain ⟨pair, hpair, hgives⟩ := hpasses.given doc hdoc
    obtain ⟨after', hcursor', hafter⟩ := cursor_of_page hcheck hfilters hpage
    obtain rfl : after = after' := Except.ok.inj (hcursor.symm.trans hcursor')
    -- the entries behind a cursor are entries of the whole range
    have hbehind := (KeyRange.mem_select_iff _ _).mp
      (hpasses.split ▸ List.mem_append_left later hpair)
    exact ⟨⟨doc, hfinds⟩, ⟨haccepts.1, pair, (KeyRange.mem_select_iff _ _).mpr
      ⟨hbehind.1, contains_of_behind hafter hbehind.2⟩, hgives⟩, hpasses.probed doc hdoc⟩
  · rintro ⟨⟨doc, hdoc⟩, ⟨-, hgiven⟩, hprobed⟩
    exact hcovers id doc hdoc hprobed hgiven

-- Another order of the filters makes no other request valid.
theorem check_of_perm {other : SearchRequest} (hcheck : request.check = .ok ())
    (hmodel : other.model = request.model) (hperm : other.filters.Perm request.filters) :
    other.check = .ok () := by
  obtain ⟨hne, hvalid⟩ := SearchRequest.valid_of_check hcheck
  have hfaults : other.filters.findSome? Filter.fault? = none :=
    List.findSome?_eq_none_iff.mpr fun f hf => hvalid f (hperm.mem_iff.mp hf)
  have hempty : (request.model.isEmpty || request.filters.isEmpty) = false := by
    cases h : request.model.isEmpty || request.filters.isEmpty with
    | false => rfl
    | true => simp [SearchRequest.check, SearchRequest.fault?, h] at hcheck
  have hempty' : (other.model.isEmpty || other.filters.isEmpty) = false := by
    rw [hmodel, ← hempty, List.isEmpty_eq_false_iff.mpr hne,
      List.isEmpty_eq_false_iff.mpr fun h => hne (List.perm_nil.mp (h ▸ hperm.symm))]
  simp only [SearchRequest.check, SearchRequest.fault?, hempty', hfaults]
  rfl

-- Whatever the index holds, as long as the records can be read, the pages of a search come to an
-- end, and the ids on them are those that match every filter by itself. So they are the same for
-- every order of the filters, and for every size of the pages.
theorem found_iff_isMatch {config : Config} (hconfig : config.check = .ok ())
    {request : SearchRequest} (hcheck : request.check = .ok ()) {map : SortedMap Bytes Bytes}
    (hlabelled : Labelled map) :
    (∃ pages, Pages (View.ofMap map) config.search request none pages) ∧
    (∀ pages, Pages (View.ofMap map) config.search request none pages → ∀ id,
      (∃ r ∈ pages, id ∈ r.found) ↔
        ∀ f ∈ request.filters, isMatch (View.ofMap map) request.model f id = .ok true) ∧
    ∀ other : SearchRequest, other.model = request.model → other.filters.Perm request.filters →
      ∃ pages pages', Pages (View.ofMap map) config.search request none pages ∧
        Pages (View.ofMap map) config.search other none pages' ∧
        ∀ id, (∃ r ∈ pages, id ∈ r.found) ↔ ∃ r ∈ pages', id ∈ r.found := by
  obtain ⟨pages, hpages, hfound⟩ := exists_pages_matching hconfig hcheck hlabelled
  refine ⟨⟨pages, hpages⟩, fun others hothers => hpages.unique hothers ▸ hfound,
    fun other hmodel hperm => ?_⟩
  obtain ⟨pages', hpages', hfound'⟩ :=
    exists_pages_matching hconfig (check_of_perm hcheck hmodel hperm) hlabelled
  refine ⟨pages, pages', hpages, hpages', fun id => ?_⟩
  rw [hfound id, hfound' id, hmodel]
  exact forall_congr' fun f => by rw [hperm.mem_iff]

-- A store with one book, whose index has an entry for a number that is not the one of the book, and
-- none for the number that is.
def misfiled : SortedMap Bytes Bytes :=
  (SortedMap.empty.insert (Key.document "com.ex.Book" "a")
    (Record.encode .messagePack (Document.ofBody "com.ex.Book" "a" (Office.book "1")))).insert
      (Key.entry "com.ex.Book" "val.isbn" (Bytes.ofString "2") "a") Key.entryMarker

-- Searches for books that have a number, and for a number that is greater than another one.
def numbered (bound : String) : SearchRequest :=
  ⟨"com.ex.Book", [Filter.present "isbn", ⟨"isbn", none, some (.string bound), none, none, none⟩],
    none, none, false, []⟩

theorem labelled_misfiled : Labelled misfiled := by
  intro model id record hget
  have hdocument : Key.entry "com.ex.Book" "val.isbn" (Bytes.ofString "2") "a" ≠
      Key.document model id := by
    intro h
    have hhead := congrArg List.head? h
    rw [Key.head?_entry, Key.head?_document] at hhead
    exact absurd hhead (by decide)
  rw [misfiled, SortedMap.get?_insert, if_neg hdocument, SortedMap.get?_insert,
    SortedMap.get?_empty] at hget
  split at hget
  · next heq =>
    obtain ⟨rfl, rfl⟩ := Key.document_inj.mp heq
    obtain rfl := Option.some.inj hget
    exact ⟨Document.ofBody "com.ex.Book" "a" (Office.book "1"), by cbv, rfl⟩
  · cases hget

-- The wrong entry is good enough for both filters as long as the number of the book is, and no
-- longer.
theorem found_iff_isMatch_of_misfiling :
    (∃ pages, Pages (View.ofMap misfiled) Config.standard.search (numbered "0") none pages ∧
      ∃ r ∈ pages, "a" ∈ r.found) ∧
    ∃ pages, Pages (View.ofMap misfiled) Config.standard.search (numbered "1") none pages ∧
      ¬∃ r ∈ pages, "a" ∈ r.found := by
  have hconfig : Config.standard.check = .ok () := by cbv
  constructor
  · have hcheck : (numbered "0").check = .ok () := by cbv
    obtain ⟨⟨pages, hpages⟩, hfound, -⟩ := found_iff_isMatch hconfig hcheck labelled_misfiled
    refine ⟨pages, hpages, (hfound pages hpages "a").mpr ?_⟩
    simp only [numbered, List.forall_mem_cons]
    exact ⟨by cbv, by cbv, by simp⟩
  · have hcheck : (numbered "1").check = .ok () := by cbv
    obtain ⟨⟨pages, hpages⟩, hfound, -⟩ := found_iff_isMatch hconfig hcheck labelled_misfiled
    refine ⟨pages, hpages, fun h => ?_⟩
    have hmatch := (hfound pages hpages "a").mp h
      ⟨"isbn", none, some (.string "1"), none, none, none⟩ (by simp [numbered])
    have hmiss : isMatch (View.ofMap misfiled) "com.ex.Book"
        ⟨"isbn", none, some (.string "1"), none, none, none⟩ "a" = .ok false := by cbv
    rw [numbered, hmiss] at hmatch
    cases hmatch

end Search

end DocStore
