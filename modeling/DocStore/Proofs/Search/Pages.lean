import Mathlib
import DocStore.Config
import DocStore.Proofs.Base64
import DocStore.Proofs.Search.Page
import DocStore.Proofs.Store.UniqueHolders

-- What all pages of a search hold together.
namespace DocStore

theorem Cursor.decode_encode (key : Bytes) : decode (encode key) = .ok key := by
  simp only [decode, encode, String.toList_ofList, Base64.decode?_encode]

-- Settings that pass the check leave room for a document on every page.
theorem Config.pageSize_pos {config : Config} (h : config.check = .ok ()) (limit : Option Nat) :
    0 < config.search.pageSize limit := by
  have hpositive : 0 < config.search.defaultLimit ∧ 0 < config.search.maxLimit := by
    by_contra hnot
    have hempty : (config.search.defaultLimit = 0 || config.search.maxLimit = 0) = true := by
      simp only [Bool.or_eq_true, decide_eq_true_eq]
      omega
    simp only [check, fault?, hempty, ite_true] at h
    split at h
    · cases h
    · next hnone =>
      split at hnone <;> cases hnone
  match limit with
  | none | some 0 => exact hpositive.1
  | some (n + 1) => exact Nat.lt_min.mpr ⟨Nat.succ_pos n, hpositive.2⟩

-- The ids of the documents on a page.
def SearchResponse.found (r : SearchResponse) : List String :=
  r.ids ++ r.documents.map (·.id)

-- A request that passes the check has filters, and they are all valid.
theorem SearchRequest.valid_of_check {request : SearchRequest} (h : request.check = .ok ()) :
    request.filters ≠ [] ∧ ∀ f ∈ request.filters, f.fault? = none := by
  unfold check at h
  split at h
  · cases h
  · next hnone =>
    unfold fault? at hnone
    split at hnone
    · cases hnone
    · next hsome =>
      refine ⟨fun hnil => hsome (by simp [hnil]), List.findSome?_eq_none_iff.mp hnone⟩

namespace Search

-- What a page answers that holds some documents and may end with an entry.
def answer (request : SearchRequest) (docs : List Document) (last : Option Bytes) :
    SearchResponse :=
  let cursor := last.map Cursor.encode
  if request.full then ⟨cursor, [], docs⟩ else ⟨cursor, docs.map (·.id), []⟩

theorem found_answer (request : SearchRequest) (docs : List Document) (last : Option Bytes) :
    (answer request docs last).found = docs.map (·.id) := by
  unfold answer SearchResponse.found
  split <;> simp

theorem cursor_answer (request : SearchRequest) (docs : List Document) (last : Option Bytes) :
    (answer request docs last).cursor = last.map Cursor.encode := by
  unfold answer
  split <;> rfl

def plansOf (request : SearchRequest) : List Plan :=
  request.filters.map (Plan.ofFilter request.model)

theorem model_of_mem_plansOf {request : SearchRequest} {plan : Plan}
    (h : plan ∈ plansOf request) : plan.model = request.model := by
  obtain ⟨f, -, rfl⟩ := List.mem_map.mp h
  exact (Plan.names_ofFilter request.model f).1

theorem driving_mem_plansOf {request : SearchRequest} {driving : Filter} {others : List Filter}
    (h : request.filters = driving :: others) :
    Plan.ofFilter request.model driving ∈ plansOf request := by
  rw [plansOf, h]
  exact List.mem_cons_self

-- The part of the range of a plan that lies behind an entry.
def behind (plan : Plan) : Option Bytes → KeyRange
  | none => plan.range
  | some key => ⟨key.successor, plan.range.stop⟩

variable {map : SortedMap Bytes Bytes} {request : SearchRequest} {driving : Filter}
  {others : List Filter}

theorem find_spec (map : SortedMap Bytes Bytes) (model : String) (f : Filter) {after : Option Bytes}
    (hafter : ∀ key ∈ after, (Plan.ofFilter model f).range.contains key = true) :
    ∃ cs : List Candidate, find (View.ofMap map) model f after = .ok (cs.map .ok) ∧
      ((Plan.ofFilter model f).isVoid = true ∧ cs = [] ∨
        (Plan.ofFilter model f).isVoid = false ∧ Candidate.Lists (Plan.ofFilter model f) []
          ((behind (Plan.ofFilter model f) after).select map) cs) := by
  obtain ⟨cs, hcs, hlists⟩ := Candidate.ofEntries_lists (Plan.ofFilter model f) []
    ((behind (Plan.ofFilter model f) after).select map)
  have hfind : find (View.ofMap map) model f after =
      .ok (if (Plan.ofFilter model f).isVoid then [] else cs.map .ok) := by
    rw [← hcs]
    cases after with
    | none => rfl
    | some key =>
        simp only [find, hafter key rfl, ite_true]
        rfl
  cases hvoid : (Plan.ofFilter model f).isVoid with
  | true => exact ⟨[], by simp [hfind, hvoid], .inl ⟨rfl, rfl⟩⟩
  | false => exact ⟨cs, by simp [hfind, hvoid], .inr ⟨rfl, hlists⟩⟩

theorem find_foreign (view : View) (model : String) (f : Filter) {key : Bytes}
    (hkey : (Plan.ofFilter model f).range.contains key = false) :
    find view model f (some key) = .error SearchFault.foreignCursor.toError := by
  simp only [find, hkey]
  rfl

-- A page is filled from its candidates.
theorem page_eq_fill (hcheck : request.check = .ok ()) (hfilters : request.filters = driving :: others)
    {view : View} {config : SearchConfig} {cursor : Option String} {after : Option Bytes}
    (hcursor : cursor.mapM Cursor.decode = .ok after) {candidates : List (Except Error Candidate)}
    (hfind : find view request.model driving after = .ok candidates) :
    page view config { request with cursor := cursor } =
      (fill view request.model (plansOf request) (config.pageSize request.limit) []
        candidates).map (fun filled => answer request filled.1 filled.2) := by
  have hcheck' : ({ request with cursor := cursor } : SearchRequest).check = .ok () := hcheck
  simp only [plansOf, hfilters] at hcheck' ⊢
  simp only [page, hcheck', hcursor, hfind, bind, Except.bind]
  cases fill view request.model _ _ [] candidates <;> rfl

-- A page whose candidates are known holds documents that are to be found, and leaves none of them
-- out on the way to where it ends.
theorem page_spec {config : Config} (hconfig : config.check = .ok ())
    (hcheck : request.check = .ok ()) (hlabelled : Labelled map)
    (hfilters : request.filters = driving :: others) {cursor : Option String}
    {after : Option Bytes} (hcursor : cursor.mapM Cursor.decode = .ok after)
    {cs : List Candidate}
    (hfind : find (View.ofMap map) request.model driving after = .ok (cs.map .ok)) :
    ∃ docs last, page (View.ofMap map) config.search { request with cursor := cursor } =
        .ok (answer request docs last) ∧
      (∀ doc ∈ docs, Finds map request.model (plansOf request) doc.id doc ∧
        probeAll (View.ofMap map) doc.id (plansOf request).tail = .ok true) ∧
      ∃ front back, cs = front ++ back ∧ (docs.map (·.id)).Sublist (front.map (·.id)) ∧
        (∀ c ∈ front, probeAll (View.ofMap map) c.id (plansOf request).tail = .ok true →
          ∀ doc, Finds map request.model (plansOf request) c.id doc → doc ∈ docs) ∧
        ((last = none ∧ back = []) ∨ ∃ c ∈ front.getLast?, last = some c.key) := by
  have hlimit : ([] : List Document).length < config.search.pageSize request.limit :=
    Config.pageSize_pos hconfig request.limit
  obtain ⟨docs, last, hfill, hfound, hcovers⟩ :=
    fill_spec hlabelled request.model (plansOf request) cs hlimit
  refine ⟨docs, last, ?_, hfound, hcovers⟩
  rw [page_eq_fill hcheck hfilters hcursor hfind, hfill]
  rfl

-- An entry behind another one of a range is in the range.
theorem contains_of_behind {plan : Plan} {after : Option Bytes}
    (hafter : ∀ key ∈ after, plan.range.contains key = true) {key : Bytes}
    (h : (behind plan after).contains key = true) : plan.range.contains key = true := by
  cases after with
  | none => exact h
  | some last =>
      have hbehind := KeyRange.contains_after (hafter last rfl) key
      rw [show ({ plan.range with start := last.successor } : KeyRange).contains key = true from h]
        at hbehind
      rw [eq_comm, Bool.and_eq_true] at hbehind
      exact hbehind.1

-- A page goes over the entries of a range up to some place. They give all that the page holds, each
-- document once, and of what they give, all that is to be found and passes the probes is on the
-- page. It ends at the end of the range or with the last of these entries.
structure Passes (map : SortedMap Bytes Bytes) (request : SearchRequest) (plan : Plan)
    (after : Option Bytes) (docs : List Document) (last : Option Bytes)
    (passed later : List Pair) : Prop where
  split : (behind plan after).select map = passed ++ later
  found : ∀ doc ∈ docs, Finds map request.model (plansOf request) doc.id doc
  probed : ∀ doc ∈ docs, probeAll (View.ofMap map) doc.id (plansOf request).tail = .ok true
  once : (docs.map (·.id)).Nodup
  given : ∀ doc ∈ docs, ∃ pair ∈ passed, plan.accept? pair.1 = some doc.id
  all : ∀ id doc, Finds map request.model (plansOf request) id doc →
    probeAll (View.ofMap map) id (plansOf request).tail = .ok true →
    (∃ pair ∈ passed, plan.accept? pair.1 = some id) → id ∈ docs.map (·.id)
  ends : last = none → later = []
  goesOn : ∀ key, last = some key → passed ≠ [] ∧ plan.range.contains key = true ∧
    (behind plan (some key)).select map = later

-- The index rules out nothing that is to be found, if it is complete.
theorem Finds.probes (hplaced : Placed map) (hindexed : Indexed map) {id : String} {doc : Document}
    (hdoc : Finds map request.model (plansOf request) id doc) :
    probeAll (View.ofMap map) id (plansOf request).tail = .ok true := by
  have hothers : Finds map request.model (plansOf request).tail id doc :=
    ⟨hdoc.stored, fun plan hplan => hdoc.accepted plan (List.mem_of_mem_tail hplan)⟩
  exact probeAll_of_finds hplaced hindexed hothers
    (fun plan hplan => model_of_mem_plansOf (List.mem_of_mem_tail hplan))

-- With a cursor in the range of the first filter, the page that follows it is answered.
theorem exists_passes {config : Config} (hconfig : config.check = .ok ())
    (hcheck : request.check = .ok ()) (hlabelled : Labelled map)
    (hfilters : request.filters = driving :: others) {cursor : Option String}
    {after : Option Bytes} (hcursor : cursor.mapM Cursor.decode = .ok after)
    (hafter : ∀ key ∈ after, (Plan.ofFilter request.model driving).range.contains key = true) :
    ∃ docs last passed later,
      page (View.ofMap map) config.search { request with cursor := cursor } =
        .ok (answer request docs last) ∧
      Passes map request (Plan.ofFilter request.model driving) after docs last passed later := by
  obtain ⟨cs, hfind, hcs⟩ := find_spec map request.model driving hafter
  obtain ⟨docs, last, hpage, hfound, front, back, hsplit, horder, hfront, hends⟩ :=
    page_spec hconfig hcheck hlabelled hfilters hcursor hfind
  rcases hcs with ⟨hvoid, rfl⟩ | ⟨-, hlists⟩
  · -- nothing is looked at, and nothing is to be found
    obtain ⟨rfl, rfl⟩ := List.append_eq_nil_iff.mp hsplit.symm
    obtain rfl : docs = [] := by simpa using horder
    obtain rfl : last = none := by simpa using hends
    refine ⟨[], none, _, [], hpage, (List.append_nil _).symm, by simp, by simp, by simp, by simp,
      fun id doc hdoc => ?_, by simp, by simp⟩
    have haccepts := hdoc.accepted _ (driving_mem_plansOf hfilters)
    simp [Plan.acceptsDocument, hvoid] at haccepts
  · subst hsplit
    obtain ⟨passed, later, hpairs, hlisted, hgiven, hnone, hsome⟩ := hlists.cut hends
    refine ⟨docs, last, passed, later, hpage, hpairs, fun doc hdoc => (hfound doc hdoc).1,
      fun doc hdoc => (hfound doc hdoc).2, ?_, fun doc hdoc => ?_,
      fun id doc hdoc hprobed hgives => ?_, hnone, fun key hkey => ?_⟩
    · exact (horder.trans ((List.sublist_append_left ..).map _)).nodup hlists.once
    · obtain ⟨c, hc, hid⟩ := List.mem_map.mp (horder.subset (List.mem_map_of_mem hdoc))
      exact hid ▸ hgiven c hc
    · obtain ⟨pair, hpair, hid⟩ := hgives
      obtain ⟨c, hc, rfl⟩ := List.mem_map.mp (hlisted pair hpair id hid)
      rw [← hlabelled.id_eq hdoc.stored]
      exact List.mem_map_of_mem (hfront c hc hprobed doc hdoc)
    · obtain ⟨before, value, rfl⟩ := hsome key hkey
      rw [List.append_assoc, List.singleton_append] at hpairs
      have hm : (key, value) ∈ (behind (Plan.ofFilter request.model driving) after).select map := by
        simp [hpairs]
      refine ⟨by simp, contains_of_behind hafter ((KeyRange.mem_select_iff _ _).mp hm).2, ?_⟩
      rw [← KeyRange.select_after hpairs]
      cases after <;> rfl

-- A page that is answered has a cursor in the range of the first filter, or none.
theorem cursor_of_page {config : SearchConfig} (hcheck : request.check = .ok ())
    (hfilters : request.filters = driving :: others) {cursor : Option String} {r : SearchResponse}
    (hpage : page (View.ofMap map) config { request with cursor := cursor } = .ok r) :
    ∃ after, cursor.mapM Cursor.decode = .ok after ∧
      ∀ key ∈ after, (Plan.ofFilter request.model driving).range.contains key = true := by
  have hcheck' : ({ request with cursor := cursor } : SearchRequest).check = .ok () := hcheck
  cases hcursor : cursor.mapM Cursor.decode with
  | error e => simp [page, hcheck', hcursor, bind, Except.bind] at hpage
  | ok after =>
      refine ⟨after, rfl, fun key hkey => ?_⟩
      obtain rfl : after = some key := hkey
      by_contra hforeign
      have hfind := find_foreign (View.ofMap map) request.model driving (by simpa using hforeign)
      simp only [hfilters] at hcheck'
      simp [page, hcheck', hcursor, hfilters, hfind, bind, Except.bind] at hpage

-- Whatever the cursor, a page that is answered goes over a part of the range.
theorem passes_of_page {config : Config} (hconfig : config.check = .ok ())
    (hcheck : request.check = .ok ()) (hlabelled : Labelled map)
    (hfilters : request.filters = driving :: others) {cursor : Option String} {r : SearchResponse}
    (hpage : page (View.ofMap map) config.search { request with cursor := cursor } = .ok r) :
    ∃ after docs last passed later, cursor.mapM Cursor.decode = .ok after ∧
      r = answer request docs last ∧
      Passes map request (Plan.ofFilter request.model driving) after docs last passed later := by
  obtain ⟨after, hcursor, hafter⟩ := cursor_of_page hcheck hfilters hpage
  obtain ⟨docs, last, passed, later, hpage', hpasses⟩ :=
    exists_passes hconfig hcheck hlabelled hfilters hcursor hafter
  rw [hpage, Except.ok.injEq] at hpage'
  exact ⟨after, docs, last, passed, later, hcursor, hpage', hpasses⟩

-- It holds what is to be found, and nothing else.
theorem page_sound {config : Config} (hconfig : config.check = .ok ())
    (hcheck : request.check = .ok ()) (hplaced : Placed map) {cursor : Option String}
    {r : SearchResponse}
    (hpage : page (View.ofMap map) config.search { request with cursor := cursor } = .ok r) :
    ∃ docs last, r = answer request docs last ∧
      ∀ doc ∈ docs, Finds map request.model (plansOf request) doc.id doc := by
  obtain ⟨driving, others, hfilters⟩ :=
    List.exists_cons_of_ne_nil (SearchRequest.valid_of_check hcheck).1
  obtain ⟨_, docs, last, _, _, -, hr, hpasses⟩ :=
    passes_of_page hconfig hcheck hplaced.labelled hfilters hpage
  exact ⟨docs, last, hr, hpasses.found⟩

-- The pages from a cursor on, until there is no next one.
inductive Pages (view : View) (config : SearchConfig) (request : SearchRequest) :
    Option String → List SearchResponse → Prop where
  | last {cursor : Option String} {r : SearchResponse} :
    page view config { request with cursor := cursor } = .ok r → r.cursor = none →
      Pages view config request cursor [r]
  | more {cursor : Option String} {r : SearchResponse} {next : String}
      {rest : List SearchResponse} :
    page view config { request with cursor := cursor } = .ok r → r.cursor = some next →
      Pages view config request (some next) rest → Pages view config request cursor (r :: rest)

theorem Pages.page_of_mem {view : View} {config : SearchConfig} {cursor : Option String}
    {pages : List SearchResponse} (h : Pages view config request cursor pages)
    {r : SearchResponse} (hr : r ∈ pages) :
    ∃ cursor, page view config { request with cursor := cursor } = .ok r := by
  induction h with
  | last hpage _ => exact ⟨_, List.mem_singleton.mp hr ▸ hpage⟩
  | more hpage _ _ ih =>
      rcases List.mem_cons.mp hr with rfl | hr
      · exact ⟨_, hpage⟩
      · exact ih hr

-- Each page tells whether there is a next one, and which.
theorem Pages.unique {view : View} {config : SearchConfig} {cursor : Option String}
    {pages other : List SearchResponse} (h : Pages view config request cursor pages)
    (hother : Pages view config request cursor other) : pages = other := by
  induction h generalizing other with
  | last hpage hend =>
      cases hother with
      | last hpage' _ => rw [Except.ok.inj (hpage.symm.trans hpage')]
      | more hpage' hnext _ =>
          obtain rfl := Except.ok.inj (hpage.symm.trans hpage')
          cases hend.symm.trans hnext
  | more hpage hnext _ ih =>
      cases hother with
      | last hpage' hend =>
          obtain rfl := Except.ok.inj (hpage.symm.trans hpage')
          cases hend.symm.trans hnext
      | more hpage' hnext' hrest' =>
          obtain rfl := Except.ok.inj (hpage.symm.trans hpage')
          obtain rfl := Option.some.inj (hnext.symm.trans hnext')
          rw [ih hrest']

theorem mapM_decode_encode (after : Option Bytes) :
    (after.map Cursor.encode).mapM Cursor.decode = .ok after := by
  cases after with
  | none => rfl
  | some key =>
      simp only [Option.map_some, Option.mapM_some, Cursor.decode_encode]
      rfl

-- The pages that follow an entry come to an end, and hold everything that is to be found there and
-- passes the probes.
theorem exists_pages_of_labelled {config : Config} (hconfig : config.check = .ok ())
    (hcheck : request.check = .ok ()) (hlabelled : Labelled map)
    (hfilters : request.filters = driving :: others) {after : Option Bytes}
    (hafter : ∀ key ∈ after, (Plan.ofFilter request.model driving).range.contains key = true) :
    ∃ pages, Pages (View.ofMap map) config.search request (after.map Cursor.encode) pages ∧
      ∀ id doc, Finds map request.model (plansOf request) id doc →
        probeAll (View.ofMap map) id (plansOf request).tail = .ok true →
        (∃ pair ∈ (behind (Plan.ofFilter request.model driving) after).select map,
          (Plan.ofFilter request.model driving).accept? pair.1 = some id) →
        ∃ r ∈ pages, id ∈ r.found := by
  induction h : ((behind (Plan.ofFilter request.model driving) after).select map).length
    using Nat.strongRecOn generalizing after with
  | _ n ih =>
      obtain ⟨docs, last, passed, later, hpage, hpasses⟩ :=
        exists_passes hconfig hcheck hlabelled hfilters (mapM_decode_encode after) hafter
      have hpassed := hpasses.all
      rw [← found_answer request docs last] at hpassed
      rw [hpasses.split] at h ⊢
      cases hlast : last with
      | none =>
          subst hlast
          refine ⟨[answer request docs none], .last hpage (cursor_answer ..), ?_⟩
          rintro id doc hdoc hprobed hgiven
          rw [hpasses.ends rfl, List.append_nil] at hgiven
          exact ⟨_, List.mem_singleton_self _, hpassed id doc hdoc hprobed hgiven⟩
      | some key =>
          subst hlast
          obtain ⟨hne, hkey, hlater⟩ := hpasses.goesOn key rfl
          have hlength : later.length < n := by
            have hpos := List.length_pos_iff.mpr hne
            rw [← h, List.length_append]
            omega
          obtain ⟨rest, hrest, hcovers⟩ := ih later.length hlength
            (fun other hmem => Option.some.inj hmem ▸ hkey) (by rw [hlater])
          refine ⟨_, .more hpage (cursor_answer ..) hrest, ?_⟩
          rintro id doc hdoc hprobed ⟨pair, hpair, hid⟩
          rcases List.mem_append.mp hpair with hpair | hpair
          · exact ⟨_, List.mem_cons_self, hpassed id doc hdoc hprobed ⟨pair, hpair, hid⟩⟩
          · obtain ⟨r, hr, hfound⟩ := hcovers id doc hdoc hprobed ⟨pair, hlater ▸ hpair, hid⟩
            exact ⟨r, List.mem_cons_of_mem _ hr, hfound⟩

-- With a complete index, they hold everything that is to be found there.
theorem exists_pages {config : Config} (hconfig : config.check = .ok ())
    (hcheck : request.check = .ok ()) (hplaced : Placed map) (hindexed : Indexed map)
    (hfilters : request.filters = driving :: others) {after : Option Bytes}
    (hafter : ∀ key ∈ after, (Plan.ofFilter request.model driving).range.contains key = true) :
    ∃ pages, Pages (View.ofMap map) config.search request (after.map Cursor.encode) pages ∧
      ∀ id doc, Finds map request.model (plansOf request) id doc →
        (∃ pair ∈ (behind (Plan.ofFilter request.model driving) after).select map,
          (Plan.ofFilter request.model driving).accept? pair.1 = some id) →
        ∃ r ∈ pages, id ∈ r.found := by
  obtain ⟨pages, hpages, hcovers⟩ :=
    exists_pages_of_labelled hconfig hcheck hplaced.labelled hfilters hafter
  exact ⟨pages, hpages, fun id doc hdoc => hcovers id doc hdoc (hdoc.probes hplaced hindexed)⟩

-- The plans of a request accept the documents that satisfy its filters.
theorem accepted_iff (hcheck : request.check = .ok ()) (doc : Document) :
    (∀ plan ∈ plansOf request, plan.acceptsDocument doc = true) ↔
      ∀ f ∈ request.filters, f.Matches doc := by
  have hvalid := (SearchRequest.valid_of_check hcheck).2
  simp only [plansOf, List.forall_mem_map]
  exact forall₂_congr fun f hf =>
    Plan.acceptsDocument_iff (Filter.wellFormed_of_fault? (hvalid f hf)) doc

-- What is to be found are the stored documents that satisfy every filter.
theorem finds_iff (hcheck : request.check = .ok ()) (id : String) (doc : Document) :
    Finds map request.model (plansOf request) id doc ↔
      Store.stored? request.model id (View.ofMap map) = .ok (some doc) ∧
        ∀ f ∈ request.filters, f.Matches doc := by
  rw [← accepted_iff hcheck]
  exact ⟨fun h => ⟨h.stored, h.accepted⟩, fun h => ⟨h.1, h.2⟩⟩

-- Every page of a search holds stored documents that satisfy every filter. If the index holds the
-- entries of the stored documents and no others, then the pages come to an end, and together they
-- hold all of these documents.
theorem pages_exact {config : Config} (hconfig : config.check = .ok ()) {request : SearchRequest}
    (hcheck : request.check = .ok ()) {map : SortedMap Bytes Bytes} (hplaced : Placed map) :
    (∀ cursor r, page (View.ofMap map) config.search { request with cursor := cursor } = .ok r →
      (∀ id ∈ r.ids, ∃ doc, Store.stored? request.model id (View.ofMap map) = .ok (some doc) ∧
        ∀ f ∈ request.filters, f.Matches doc) ∧
      ∀ doc ∈ r.documents,
        Store.stored? request.model doc.id (View.ofMap map) = .ok (some doc) ∧
          ∀ f ∈ request.filters, f.Matches doc) ∧
    (Indexed map → (∃ pages, Pages (View.ofMap map) config.search request none pages) ∧
      ∀ pages, Pages (View.ofMap map) config.search request none pages →
        ∀ id, (∃ r ∈ pages, id ∈ r.found) ↔
          ∃ doc, Store.stored? request.model id (View.ofMap map) = .ok (some doc) ∧
            ∀ f ∈ request.filters, f.Matches doc) := by
  have hsound : ∀ cursor r,
      page (View.ofMap map) config.search { request with cursor := cursor } = .ok r →
        (∀ id ∈ r.ids, ∃ doc, Finds map request.model (plansOf request) id doc) ∧
        ∀ doc ∈ r.documents, Finds map request.model (plansOf request) doc.id doc := by
    intro cursor r hpage
    obtain ⟨docs, last, rfl, hfound⟩ := page_sound hconfig hcheck hplaced hpage
    unfold answer
    split
    · exact ⟨by simp, hfound⟩
    · refine ⟨fun id hid => ?_, by simp⟩
      obtain ⟨doc, hdoc, rfl⟩ := List.mem_map.mp hid
      exact ⟨doc, hfound doc hdoc⟩
  simp only [← finds_iff hcheck]
  refine ⟨hsound, fun hindexed => ?_⟩
  obtain ⟨driving, others, hfilters⟩ :=
    List.exists_cons_of_ne_nil (SearchRequest.valid_of_check hcheck).1
  have hnone : ∀ key ∈ (none : Option Bytes),
      (Plan.ofFilter request.model driving).range.contains key = true := by simp
  obtain ⟨pages, hpages, hcovers⟩ :=
    exists_pages hconfig hcheck hplaced hindexed hfilters hnone
  refine ⟨⟨pages, hpages⟩, fun other hother id => ?_⟩
  obtain rfl : pages = other := hpages.unique hother
  constructor
  · rintro ⟨r, hr, hid⟩
    obtain ⟨cursor, hpage⟩ := hpages.page_of_mem hr
    obtain ⟨hids, hdocs⟩ := hsound cursor r hpage
    rcases List.mem_append.mp hid with hid | hid
    · exact hids id hid
    · obtain ⟨doc, hdoc, rfl⟩ := List.mem_map.mp hid
      exact ⟨doc, hdocs doc hdoc⟩
  · rintro ⟨doc, hdoc⟩
    have haccepts := hdoc.accepted _ (driving_mem_plansOf hfilters)
    have hmodel := model_of_mem_plansOf (driving_mem_plansOf hfilters)
    have hstored := hdoc.stored
    rw [← hmodel] at hstored
    obtain ⟨-, encoded, value, hvalue, hcontains, haccept, -⟩ :=
      exists_entry hplaced hindexed hstored haccepts
    exact hcovers id doc hdoc
      ⟨_, (KeyRange.mem_select_iff _ _).mpr ⟨map.get?_eq_some_iff.mp hvalue, hcontains⟩, haccept⟩

-- A search for greater numbers than the first book has.
def greaterNumbers : SearchRequest :=
  ⟨"com.ex.Book", [⟨"isbn", none, some (.string "1"), none, none, none⟩], none, some 1, false, []⟩

open Office in
-- It finds the second book, and no other one.
theorem pages_exact_of_shelving :
    ∃ pages, Pages (View.ofMap (run .mvcc (opening ++ shelving)).current) Config.standard.search
        greaterNumbers none pages ∧
      ∀ id, (∃ r ∈ pages, id ∈ r.found) ↔ id = "b" := by
  have hsound := sound_run .mvcc (opening ++ shelving)
  have hplaced := placed_of_recorded hsound.recorded readable_shelving
  have hindexed := indexed_of_recorded hsound.recorded readable_shelving
  have hconfig : Config.standard.check = .ok () := by cbv
  have hcheck : greaterNumbers.check = .ok () := by cbv
  obtain ⟨-, hpages⟩ := pages_exact hconfig hcheck hplaced
  obtain ⟨⟨pages, hpages'⟩, hfound⟩ := hpages hindexed
  refine ⟨pages, hpages', fun id => (hfound pages hpages' id).trans ?_⟩
  have hstored : Store.stored? "com.ex.Book" id
      (View.ofMap (run .mvcc (opening ++ shelving)).current) =
        .ok (Follows.left none (History.ofLog [entered declare declaration,
          entered (shelve "a" "1") (book "1"), entered (shelve "b" "2") (book "2")]
            "com.ex.Book" id)) := by
    rw [← hsound.stored?_eq, stored?_eq_left readable_shelving, history, log_shelving]
  have hpath : Plan.indexPath "isbn" = "val.isbn" := by cbv
  have hfirst : IndexEntry.leavesAt (book "1") "val.isbn" = [.string "1"] := by cbv
  have hsecond : IndexEntry.leavesAt (book "2") "val.isbn" = [.string "2"] := by cbv
  have hless : Bytes.ofString "1" < Bytes.ofString "2" := by
    have hone : Bytes.ofString "1" = [49] := by cbv
    have htwo : Bytes.ofString "2" = [50] := by cbv
    rw [hone, htwo]
    decide
  simp only [greaterNumbers, hstored, List.mem_singleton, forall_eq, Filter.Matches, hpath]
  constructor
  · rintro ⟨doc, hdoc, v, hv, hadmits⟩
    by_contra hid
    by_cases ha : id = "a"
    · subst ha
      obtain rfl : fresh (shelve "a" "1") (book "1") = doc := Option.some.inj (Except.ok.inj hdoc)
      obtain rfl := List.mem_singleton.mp (hfirst ▸ hv)
      rcases hadmits.greater _ rfl with ⟨s, t, hs, ht, hlt⟩ | ⟨x, y, hx, -⟩
      · cases hs
        cases ht
        exact Std.lt_irrefl hlt
      · cases hx
    · have hnone : History.ofLog [entered declare declaration,
          entered (shelve "a" "1") (book "1"), entered (shelve "b" "2") (book "2")]
            "com.ex.Book" id = [] := by
        simp [History.ofLog, entered, shelve, declare, Job.model, Job.id, Document.ofBody,
          Ne.symm ha, Ne.symm hid, modelOfModels]
      rw [hnone] at hdoc
      cases hdoc
  · rintro rfl
    have hadmits : Filter.Admits ⟨"isbn", none, some (.string "1"), none, none, none⟩
        (.string "2") := by
      refine ⟨by simp, ?_, by simp, by simp⟩
      rintro operand ⟨⟩
      exact .inl ⟨"1", "2", rfl, rfl, hless⟩
    refine ⟨fresh (shelve "b" "2") (book "2"), rfl, .string "2", ?_, hadmits⟩
    exact hsecond ▸ List.mem_singleton_self _

end Search

end DocStore
