import DocStore.Proofs.Store.NoLostUpdate

-- Two writers that are about to store the same value of a unique field cannot both succeed: either
-- the second one sees the first, or both write the claim of the value.
namespace DocStore

-- The index entries of others are left alone.
theorem Job.Prepares.get?_entry_other {job : Job} {base : SortedMap Bytes Bytes}
    {writes : SortedMap Bytes (Option Bytes)} {answer : Option (Option Document)} {change : Change}
    (h : job.Prepares base writes answer change) (hplaced : Placed base) {id : String}
    (hne : id ≠ job.id) (path : String) (encoded : Bytes) :
    writes.get? (Key.entry job.model path encoded id) = none := by
  have hother : ∀ d : Document, d.id = job.id →
      Key.entry job.model path encoded id ∉ d.entryKeys := by
    intro d hd hm
    obtain ⟨e, -, heq⟩ := List.mem_map.mp hm
    obtain ⟨-, -, -, hid⟩ := Key.entry_inj.mp heq
    exact hne (hid.symm.trans hd)
  have hnone : ∀ stored : Option Document, (∀ d, stored = some d → d.id = job.id) →
      Key.entry job.model path encoded id ∉ (stored.map Document.entryKeys).getD [] := by
    intro stored hstored
    cases stored with
    | none => simp
    | some d => exact hother d (hstored d rfl)
  obtain ⟨_, hold, hplace⟩ := hplaced job.model job.id
  rw [h.reads, Except.ok.injEq] at hold
  rw [h.entries _ (Key.head?_entry ..), if_neg, if_neg]
  · exact hnone _ (fun d hd => (hplace d (hold.symm.trans hd)).2)
  · exact hnone _ (fun d hd => (h.makes.new_eq hd).2)

namespace Booked

variable {log : List Entry} {commits : CommitLog} {base : Nat} {model id : String}

-- The earlier commits make the earlier changes.
theorem take (h : Booked log commits) (version : Nat) :
    ∃ earlier, earlier <+: log ∧ Booked earlier (commits.take version) := by
  induction h with
  | start => exact ⟨[], List.prefix_rfl, by simpa using .start⟩
  | @enter log commits e commit hlog hjoins ih =>
      rcases Nat.lt_or_ge commits.length version with hlt | hle
      · refine ⟨log ++ [e], List.prefix_rfl, ?_⟩
        rw [List.take_of_length_le (by simp; omega)]
        exact hlog.enter hjoins
      · obtain ⟨earlier, hearlier, hbooked⟩ := ih
        rw [List.take_append_of_le_length hle]
        exact ⟨earlier, hearlier.trans (List.prefix_append _ _), hbooked⟩

theorem placed_mapAt (h : Booked log commits) (hread : ∀ e ∈ log, e.Readable) (version : Nat) :
    Placed (commits.mapAt version) := by
  obtain ⟨earlier, hearlier, hbooked⟩ := h.take version
  rw [CommitLog.mapAt_eq_current_take]
  exact placed_of_recorded hbooked.recorded (fun e he => hread e (hearlier.subset he))

theorem indexed_mapAt (h : Booked log commits) (hread : ∀ e ∈ log, e.Readable) (version : Nat) :
    Indexed (commits.mapAt version) := by
  obtain ⟨earlier, hearlier, hbooked⟩ := h.take version
  rw [CommitLog.mapAt_eq_current_take]
  exact indexed_of_recorded hbooked.recorded (fun e he => hread e (hearlier.subset he))

-- A document is as it was at some version, or one of the commits since then made it what it is now.
theorem latest (h : Booked log commits) (hread : ∀ e ∈ log, e.Readable) (base : Nat)
    (model id : String) :
    (∀ later, base < later → commits.written? later (Key.document model id) = none) ∨
    ∃ e ∈ log, (e.job.model = model ∧ e.job.id = id) ∧
      Store.stored? model id (View.ofMap commits.current) = .ok e.change.new ∧
      ∃ version before writes, base < version ∧
        (∀ key, commits.written? version key = writes.get? key) ∧
        e.job.Prepares before writes e.answer e.change := by
  induction h with
  | start => exact .inl (fun later hlater => CommitLog.written?_of_length_lt (by simp; omega))
  | @enter log commits e commit hlog hjoins ih =>
      have hturns := hjoins.turns
      obtain ⟨version, -, hprepares, -⟩ := hjoins
      have hlast : ∀ key,
          CommitLog.written? (commits ++ [commit]) (commits.length + 1) key =
            commit.writes.get? key := CommitLog.written?_append_length commits commit
      rcases Nat.lt_or_ge commits.length base with hlt | hle
      · -- nothing has been committed since then
        exact .inl (fun later hlater => CommitLog.written?_of_length_lt (by simp; omega))
      by_cases hown : model = e.job.model ∧ id = e.job.id
      · obtain ⟨rfl, rfl⟩ := hown
        exact .inr ⟨e, by simp, ⟨rfl, rfl⟩, hturns.stored?_own (hread e (by simp)), _, _, _,
          Nat.lt_succ_of_le hle, hlast, hprepares⟩
      · rcases ih (fun e he => hread e (List.mem_append_left _ he)) with
          hnone | ⟨e', he', hname, hstored, version', before, writes, hlater, hwritten, hprepares'⟩
        · refine .inl (fun later hlater => ?_)
          rcases Nat.lt_trichotomy later (commits.length + 1) with hl | rfl | hl
          · rw [CommitLog.written?_append_of_le commit (by omega)]
            exact hnone later hlater
          · rw [hlast, hprepares.document, if_neg]
            exact fun heq => hown (Key.document_inj.mp heq)
          · exact CommitLog.written?_of_length_lt (by simpa using hl)
        · have hversion : version' ≤ commits.length := by
            have hkey := hprepares'.own
            rw [← hwritten] at hkey
            exact CommitLog.le_length_of_written? hkey
          refine .inr ⟨e', List.mem_append_left _ he', hname, ?_, version', before, writes, hlater,
            fun key => ?_, hprepares'⟩
          · rw [hturns.stored?_other hown]
            exact hstored
          · rw [CommitLog.written?_append_of_le commit hversion]
            exact hwritten key

-- What is stored anew has no value of a unique field that another document has. If that document
-- was there when the writer opened, the writer has seen it; if not, both claim the value.
theorem notMem_of_joins (h : Booked log commits) (hread : ∀ e ∈ log, e.Readable) {e : Entry}
    {commit : Commit} (hjoins : e.Joins commits commit) {x : IndexEntry}
    (hunique : ∀ e' ∈ log ++ [e], e'.job.model = e.job.model →
      e'.job.declared.isUnique x.path = true)
    {d : Document} (hd : e.change.new = some d) (hx : x ∈ IndexEntry.ofBody d.val)
    {other : String} (hne : other ≠ e.job.id) {b : Document}
    (hb : Store.stored? e.job.model other (View.ofMap commits.current) = .ok (some b)) :
    x ∉ IndexEntry.ofBody b.val := by
  intro hxb
  obtain ⟨base, hbase, hprepares, huntouched⟩ := hjoins
  obtain ⟨hclaim, hothers⟩ := hprepares.unique d hd x hx (hunique e (by simp) rfl)
  have hplaced := h.placed_mapAt hread base
  rcases h.latest hread base e.job.model other with
    hnone | ⟨e', he', ⟨hmodel, -⟩, hstored, version, before, writes, hlater, hwritten, hprepares'⟩
  · have hsame : (commits.mapAt base).get? (Key.document e.job.model other) =
        commits.current.get? (Key.document e.job.model other) :=
      CommitLog.get?_current_of_unwritten hbase hnone
    have hold : Store.stored? e.job.model other (View.ofMap (commits.mapAt base)) =
        .ok (some b) := by
      rw [Store.stored?_ofMap, hsame, ← Store.stored?_ofMap]
      exact hb
    obtain ⟨_, hb', hplace⟩ := hplaced e.job.model other
    rw [hold, Except.ok.injEq] at hb'
    obtain ⟨hbmodel, hbid⟩ := hplace b hb'.symm
    have hentry : Key.entry e.job.model x.path x.encoded other ∈ b.entryKeys := by
      rw [← hbmodel, ← hbid]
      exact List.mem_map_of_mem hxb
    have hindexed := (h.indexed_mapAt hread base _ (Key.head?_entry ..)).mpr ⟨_, _, b, hold, hentry⟩
    obtain ⟨b', hb', hlacks⟩ :=
      hothers other hne (hprepares.get?_entry_other hplaced hne _ _) hindexed
    rw [hold, Except.ok.injEq, Option.some.injEq] at hb'
    rw [← hb'] at hlacks
    exact hlacks hxb
  · rw [hb, Except.ok.injEq] at hstored
    obtain ⟨hclaim', -⟩ := hprepares'.unique b hstored.symm x hxb
      (hunique e' (List.mem_append_left _ he') hmodel)
    have hmem : Key.claim e.job.model x.path x.encoded ∈ commit.writes.keys := by
      rw [SortedMap.mem_keys_iff]
      exact hclaim
    rw [hmodel, ← hwritten, huntouched _ hmem version hlater] at hclaim'
    cases hclaim'

-- Where every writer of a model holds a path to be unique, no value there is in two documents.
theorem one_holder (h : Booked log commits) (hread : ∀ e ∈ log, e.Readable) {x : IndexEntry}
    (hunique : ∀ e ∈ log, e.job.model = model → e.job.declared.isUnique x.path = true)
    {other : String} (hne : id ≠ other) {a b : Document}
    (ha : Store.stored? model id (View.ofMap commits.current) = .ok (some a))
    (hb : Store.stored? model other (View.ofMap commits.current) = .ok (some b))
    (hxa : x ∈ IndexEntry.ofBody a.val) : x ∉ IndexEntry.ofBody b.val := by
  induction h with
  | start => simp [Store.stored?_ofMap] at ha
  | @enter log commits e commit hlog hjoins ih =>
      have hearlier : ∀ e ∈ log, e.Readable := fun e he => hread e (List.mem_append_left _ he)
      have hturns := hjoins.turns
      have hown := hturns.stored?_own (hread e (by simp))
      by_cases hia : model = e.job.model ∧ id = e.job.id
      · obtain ⟨rfl, rfl⟩ := hia
        rw [hown, Except.ok.injEq] at ha
        rw [hturns.stored?_other (fun heq => hne heq.2.symm)] at hb
        exact hlog.notMem_of_joins hearlier hjoins hunique ha hxa hne.symm hb
      rw [hturns.stored?_other hia] at ha
      by_cases hib : model = e.job.model ∧ other = e.job.id
      · obtain ⟨rfl, rfl⟩ := hib
        rw [hown, Except.ok.injEq] at hb
        exact fun hxb => hlog.notMem_of_joins hearlier hjoins hunique hb hxb hne ha hxa
      rw [hturns.stored?_other hib] at hb
      exact ih hearlier (fun e he => hunique e (List.mem_append_left _ he)) ha hb

end Booked

namespace Office

variable {kind : BackendKind} {x : Office}

-- The document of a model is written at most once, and whoever comes to the documents of the model
-- follows what has been written.
structure Fixed (kind : BackendKind) (events : List Event) (name : String) : Prop where
  once : ((run kind events).history modelOfModels name).length ≤ 1
  followed : ∀ before job signal stop, before ++ [.take job signal stop] <+: events →
    job.model = name → ∃ earlier doc, earlier <+: before ∧
      (run kind earlier).stored? modelOfModels name = .ok (some doc) ∧
      Model.ofDocument doc = .ok job.declared

-- A model is fixed that was set up before anybody came to its documents.
theorem Fixed.of_setup {setup rest : List Event} {name : String} {doc : Document}
    (honce : ((run kind (setup ++ rest)).history modelOfModels name).length ≤ 1)
    (hdoc : (run kind setup).stored? modelOfModels name = .ok (some doc))
    (hsetup : ∀ job signal stop, Event.take job signal stop ∈ setup → job.model ≠ name)
    (hrest : ∀ job signal stop, Event.take job signal stop ∈ rest → job.model = name →
      Model.ofDocument doc = .ok job.declared) : Fixed kind (setup ++ rest) name where
  once := honce
  followed before job signal stop hbefore hname := by
    rcases Nat.lt_or_ge before.length setup.length with hlt | hge
    · have hin : before ++ [.take job signal stop] <+: setup :=
        List.prefix_of_prefix_length_le hbefore (List.prefix_append _ _) (by simp; omega)
      exact absurd hname (hsetup job signal stop (hin.subset (by simp)))
    · obtain ⟨more, rfl⟩ : setup <+: before :=
        List.prefix_of_prefix_length_le (List.prefix_append _ _)
          ((List.prefix_append _ _).trans hbefore) hge
      rw [List.append_assoc, List.prefix_append_right_inj] at hbefore
      exact ⟨setup, doc, List.prefix_append _ _, hdoc,
        hrest job signal stop (hbefore.subset (by simp)) hname⟩

-- What the changes of a document have left is stored.
theorem stored?_eq_left {events : List Event} (hread : ∀ e ∈ (run kind events).log, e.Readable)
    (model id : String) : (run kind events).stored? model id =
      .ok (Follows.left none ((run kind events).history model id)) := by
  have hsound := sound_run kind events
  rw [hsound.stored?_eq]
  exact (hsound.recorded.follows hread model id).2

-- A document that is written at most once stays as it is.
theorem stored?_of_once {events earlier : List Event} {model id : String}
    (hread : ∀ e ∈ (run kind events).log, e.Readable)
    (honce : ((run kind events).history model id).length ≤ 1) (h : earlier <+: events)
    {doc : Document} (hdoc : (run kind earlier).stored? model id = .ok (some doc)) :
    (run kind events).stored? model id = .ok (some doc) := by
  have hlog := log_prefix kind h
  rw [stored?_eq_left (fun e he => hread e (hlog.subset he)), Except.ok.injEq] at hdoc
  have hhistory : (run kind earlier).history model id <+: (run kind events).history model id :=
    hlog.filter _
  have hsame : (run kind earlier).history model id = (run kind events).history model id := by
    refine hhistory.eq_of_length_le (Nat.le_trans honce ?_)
    rw [Nat.succ_le_iff, List.length_pos_iff]
    intro hnil
    rw [hnil] at hdoc
    cases hdoc
  rw [stored?_eq_left hread, ← hsame, hdoc]

-- However writers are interleaved, no value at a path that a model declares unique is in two of its
-- documents. It is provided that the model is not changed, and that the records which were written
-- can be read.
theorem unique_holders (kind : BackendKind) (events : List Event) {name : String}
    (hread : ∀ e ∈ (run kind events).log, e.Readable) (hfixed : Fixed kind events name)
    {doc : Document} {model : Model}
    (hdoc : (run kind events).stored? modelOfModels name = .ok (some doc))
    (hmodel : Model.ofDocument doc = .ok model) {path : String}
    (hunique : model.isUnique path = true) {id other : String} (hne : id ≠ other)
    {a b : Document} (ha : (run kind events).stored? name id = .ok (some a))
    (hb : (run kind events).stored? name other = .ok (some b)) {v w : Value}
    (hv : v ∈ IndexEntry.leavesAt a.val path) (hw : w ∈ IndexEntry.leavesAt b.val path) :
    ¬(ScalarKind.of? v = ScalarKind.of? w ∧ Key.encode? v = Key.encode? w) := by
  rintro ⟨hkind, hencoded⟩
  have hsound := sound_run kind events
  have hjobs : ∀ e ∈ (run kind events).log, e.job.model = name →
      e.job.declared.isUnique path = true := by
    intro e he hname
    obtain ⟨before, signal, stop, hbefore⟩ := (jobs_run kind events).log e he
    obtain ⟨earlier, doc', hearlier, hdoc', hmodel'⟩ :=
      hfixed.followed before e.job signal stop hbefore hname
    have hprefix := (hearlier.trans (List.prefix_append _ _)).trans hbefore
    have hstored := stored?_of_once hread hfixed.once hprefix hdoc'
    rw [hdoc, Except.ok.injEq, Option.some.injEq] at hstored
    rw [← hstored, hmodel, Except.ok.injEq] at hmodel'
    rw [← hmodel']
    exact hunique
  obtain ⟨x, hxa, rfl, hencoded', hkind'⟩ := IndexEntry.exists_of_mem_leavesAt hv
  have hxb : x ∈ IndexEntry.ofBody b.val :=
    IndexEntry.mem_ofBody_iff.mpr ⟨w, hw, hencoded ▸ hencoded', hkind ▸ hkind'⟩
  rw [hsound.stored?_eq] at ha hb
  exact hsound.booked.one_holder hread hjobs hne ha hb hxa hxb

-- Books have numbers, and no two books the same one.
def bookModel : Model := ⟨"com.ex.Book", none, [("val.isbn", .unique)], []⟩

def declaration : Value := .object [("index", .object [("isbn", .string "unique")])]

def book (isbn : String) : Value := .object [("isbn", .string isbn)]

def declare : Job :=
  .put .messagePack Context.background (Model.bare modelOfModels)
    (Document.ofBody modelOfModels "com.ex.Book" declaration)

def shelve (id isbn : String) : Job :=
  .put .messagePack Context.background bookModel (Document.ofBody "com.ex.Book" id (book isbn))

-- What is stored of a new document.
def fresh (job : Job) (val : Value) : Document :=
  ⟨job.id, job.model, some 1, some ⟨⟨0, 0⟩, ⟨0, 0⟩⟩, val, none, none⟩

def entered (job : Job) (val : Value) : Entry :=
  ⟨job, some (some (fresh job val)), ⟨none, some (fresh job val)⟩⟩

def steps (n : Nat) : List Event := List.replicate 9 (.work n .go (.ok none) ⟨0, 0⟩)

def opening : List Event := .take declare .go .cancelled :: steps 0 ++ [.commit 0 .go]

-- Two books with the same number come at once. The second one then takes another number.
def shelving : List Event :=
  [.take (shelve "a" "1") .go .cancelled, .take (shelve "b" "1") .go .cancelled] ++
    steps 1 ++ steps 2 ++ [.commit 1 .go, .commit 2 .go, .take (shelve "b" "2") .go .cancelled] ++
    steps 3 ++ [.commit 3 .go]

theorem log_opening : (run .mvcc opening).log = [entered declare declaration] := by cbv

theorem log_shelving : (run .mvcc (opening ++ shelving)).log =
    [entered declare declaration, entered (shelve "a" "1") (book "1"),
      entered (shelve "b" "2") (book "2")] := by
  cbv

theorem readable_entered {job : Job} {val : Value} (h : (job, val) ∈ [(declare, declaration),
    (shelve "a" "1", book "1"), (shelve "b" "2", book "2")]) : (entered job val).Readable := by
  intro d hd
  obtain rfl : fresh job val = d := Option.some.inj hd
  show Record.decode (job.record (fresh job val)) = .ok (fresh job val)
  simp only [List.mem_cons, Prod.mk.injEq, List.not_mem_nil, or_false] at h
  rcases h with ⟨rfl, rfl⟩ | ⟨rfl, rfl⟩ | ⟨rfl, rfl⟩ <;> cbv

theorem readable_shelving : ∀ e ∈ (run .mvcc (opening ++ shelving)).log, e.Readable := by
  rw [log_shelving]
  intro e he
  simp only [List.mem_cons, List.not_mem_nil, or_false] at he
  rcases he with rfl | rfl | rfl <;> exact readable_entered (by simp)

theorem fixed_shelving : Fixed .mvcc (opening ++ shelving) "com.ex.Book" := by
  have htake : ∀ n job signal stop, Event.take job signal stop ∉ steps n := by
    intro n job signal stop hm
    exact absurd (List.eq_of_mem_replicate hm) (by simp)
  have hmodel : Model.ofDocument (fresh declare declaration) = .ok bookModel := by cbv
  have hread : ∀ e ∈ (run .mvcc opening).log, e.Readable := by
    rw [log_opening]
    intro e he
    rw [List.mem_singleton.mp he]
    exact readable_entered (by simp)
  have hdoc : (run .mvcc opening).stored? modelOfModels "com.ex.Book" =
      .ok (some (fresh declare declaration)) := by
    rw [stored?_eq_left hread, history, log_opening]
    rfl
  refine .of_setup ?_ hdoc ?_ ?_
  · rw [history, log_shelving]
    decide
  · intro job signal stop hm
    simp only [opening, List.mem_cons, List.mem_append, Event.take.injEq, htake, List.not_mem_nil,
      or_false, reduceCtorEq] at hm
    obtain ⟨rfl, -, -⟩ := hm
    decide
  · intro job signal stop hm _
    simp only [shelving, List.mem_cons, List.mem_append, Event.take.injEq, htake,
      List.not_mem_nil, or_false, false_or, reduceCtorEq] at hm
    rcases hm with (⟨rfl, -, -⟩ | ⟨rfl, -, -⟩) | ⟨rfl, -, -⟩ <;> exact hmodel

-- The second book is stored under another number, and no book but the first one has number 1.
theorem unique_holders_of_race :
    (run .mvcc (opening ++ shelving)).stored? "com.ex.Book" "b" =
      .ok (some (fresh (shelve "b" "2") (book "2"))) ∧
    ∀ id b, "a" ≠ id → (run .mvcc (opening ++ shelving)).stored? "com.ex.Book" id = .ok (some b) →
      .string "1" ∉ IndexEntry.leavesAt b.val "val.isbn" := by
  have hstored : ∀ model id doc, Follows.left none (History.ofLog [entered declare declaration,
        entered (shelve "a" "1") (book "1"), entered (shelve "b" "2") (book "2")] model id) = doc →
      (run .mvcc (opening ++ shelving)).stored? model id = .ok doc := by
    intro model id doc hdoc
    rw [stored?_eq_left readable_shelving, history, log_shelving, hdoc]
  have hdeclaration := hstored modelOfModels "com.ex.Book" (some (fresh declare declaration)) rfl
  have hmodel : Model.ofDocument (fresh declare declaration) = .ok bookModel := by cbv
  have hunique : bookModel.isUnique "val.isbn" = true := by decide
  have ha := hstored "com.ex.Book" "a" (some (fresh (shelve "a" "1") (book "1"))) rfl
  have hleaf : .string "1" ∈ IndexEntry.leavesAt (book "1") "val.isbn" := by
    have hleaves : IndexEntry.leavesAt (book "1") "val.isbn" = [.string "1"] := by cbv
    rw [hleaves]
    exact List.mem_singleton_self _
  refine ⟨hstored "com.ex.Book" "b" _ rfl, fun id b hne hb hm => ?_⟩
  exact unique_holders .mvcc (opening ++ shelving) readable_shelving fixed_shelving hdeclaration
    hmodel hunique hne ha hb hleaf hm ⟨rfl, rfl⟩

end Office

end DocStore
