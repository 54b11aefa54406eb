import DocStore.Proofs.Search.Batch

-- What one page of a search holds.
namespace DocStore

namespace Candidate

variable {plan : Plan}

-- Every id that an entry gives is a candidate, and each candidate is new and has an entry. The
-- entries up to the one that gave a candidate give that candidate and those before it.
structure Lists (plan : Plan) (seen : List String) (pairs : List Pair) (cs : List Candidate) :
    Prop where
  all : ∀ pair ∈ pairs, ∀ id, plan.accept? pair.1 = some id → id ∈ seen ∨ id ∈ cs.map (·.id)
  once : (cs.map (·.id)).Nodup
  new : ∀ c ∈ cs, c.id ∉ seen
  given : ∀ c ∈ cs, ∃ pair ∈ pairs, plan.accept? pair.1 = some c.id
  upTo : ∀ front c back, cs = front ++ c :: back → ∃ before value after,
    pairs = before ++ (c.key, value) :: after ∧
      (∀ pair ∈ before ++ [(c.key, value)], ∀ id, plan.accept? pair.1 = some id →
        id ∈ seen ∨ id ∈ (front ++ [c]).map (·.id)) ∧
      ∀ x ∈ front ++ [c], ∃ pair ∈ before ++ [(c.key, value)], plan.accept? pair.1 = some x.id

-- An entry that gives nothing new.
theorem Lists.skip {seen : List String} {pairs : List Pair} {cs : List Candidate}
    (h : Lists plan seen pairs cs) {pair : Pair}
    (hpair : ∀ id, plan.accept? pair.1 = some id → id ∈ seen) :
    Lists plan seen (pair :: pairs) cs where
  all p hp id hid := by
    rcases List.mem_cons.mp hp with rfl | hp
    · exact .inl (hpair id hid)
    · exact h.all p hp id hid
  once := h.once
  new := h.new
  given c hc := by
    obtain ⟨p, hp, hid⟩ := h.given c hc
    exact ⟨p, List.mem_cons_of_mem _ hp, hid⟩
  upTo front c back hcs := by
    obtain ⟨before, value, after, hpairs, hall, hgiven⟩ := h.upTo front c back hcs
    refine ⟨pair :: before, value, after, by rw [hpairs, List.cons_append], fun p hp id hid => ?_,
      fun x hx => ?_⟩
    · rcases List.mem_cons.mp hp with rfl | hp
      · exact .inl (hpair id hid)
      · exact hall p hp id hid
    · obtain ⟨p, hp, hid⟩ := hgiven x hx
      exact ⟨p, List.mem_cons_of_mem _ hp, hid⟩

theorem Lists.give {seen : List String} {pairs : List Pair} {cs : List Candidate} {id : String}
    (h : Lists plan (id :: seen) pairs cs) (hnew : id ∉ seen) {key value : Bytes}
    (hid : plan.accept? key = some id) :
    Lists plan seen ((key, value) :: pairs) (⟨id, key⟩ :: cs) where
  all p hp other hother := by
    rcases List.mem_cons.mp hp with rfl | hp
    · rw [hid, Option.some.injEq] at hother
      simp [hother]
    · have hlisted := h.all p hp other hother
      simp only [List.mem_cons, List.map_cons] at hlisted ⊢
      tauto
  once := by
    refine List.nodup_cons.mpr ⟨fun hm => ?_, h.once⟩
    obtain ⟨c, hc, hsame⟩ := List.mem_map.mp hm
    exact h.new c hc (hsame ▸ List.mem_cons_self)
  new c hc := by
    rcases List.mem_cons.mp hc with rfl | hc
    · exact hnew
    · exact fun hm => h.new c hc (List.mem_cons_of_mem _ hm)
  given c hc := by
    rcases List.mem_cons.mp hc with rfl | hc
    · exact ⟨_, List.mem_cons_self, hid⟩
    · obtain ⟨p, hp, hp'⟩ := h.given c hc
      exact ⟨p, List.mem_cons_of_mem _ hp, hp'⟩
  upTo front c back hcs := by
    cases front with
    | nil =>
        obtain ⟨rfl, rfl⟩ := List.cons.inj hcs
        refine ⟨[], value, pairs, rfl, fun p hp other hother => ?_, fun x hx => ?_⟩
        · obtain rfl := List.mem_singleton.mp hp
          rw [hid, Option.some.injEq] at hother
          simp [hother]
        · obtain rfl := List.mem_singleton.mp hx
          exact ⟨_, List.mem_singleton_self _, hid⟩
    | cons first front =>
        obtain ⟨rfl, hrest⟩ := List.cons.inj hcs
        obtain ⟨before, value', after, hpairs, hall, hgiven⟩ := h.upTo front c back hrest
        refine ⟨(key, value) :: before, value', after, by rw [hpairs, List.cons_append],
          fun p hp other hother => ?_, fun x hx => ?_⟩
        · rcases List.mem_cons.mp hp with rfl | hp
          · rw [hid, Option.some.injEq] at hother
            simp [hother]
          · have hlisted := hall p hp other hother
            simp only [List.mem_cons, List.cons_append, List.map_cons] at hlisted ⊢
            tauto
        · rcases List.mem_cons.mp hx with rfl | hx
          · exact ⟨_, List.mem_cons_self, hid⟩
          · obtain ⟨p, hp, hp'⟩ := hgiven x hx
            exact ⟨p, List.mem_cons_of_mem _ hp, hp'⟩

-- Candidates up to the last one, or up to another one and its entry, have the entries up to there.
theorem Lists.cut {pairs : List Pair} {front back : List Candidate} {last : Option Bytes}
    (h : Lists plan [] pairs (front ++ back))
    (hends : (last = none ∧ back = []) ∨ ∃ c ∈ front.getLast?, last = some c.key) :
    ∃ passed later, pairs = passed ++ later ∧
      (∀ pair ∈ passed, ∀ id, plan.accept? pair.1 = some id → id ∈ front.map (·.id)) ∧
      (∀ c ∈ front, ∃ pair ∈ passed, plan.accept? pair.1 = some c.id) ∧
      (last = none → later = []) ∧
      ∀ key, last = some key → ∃ before value, passed = before ++ [(key, value)] := by
  rcases hends with ⟨rfl, rfl⟩ | ⟨c, hc, rfl⟩
  · rw [List.append_nil] at h
    refine ⟨pairs, [], by simp, fun pair hpair id hid => ?_, h.given, fun _ => rfl, by simp⟩
    exact (h.all pair hpair id hid).resolve_left List.not_mem_nil
  · obtain ⟨front, rfl⟩ := List.getLast?_eq_some_iff.mp hc
    obtain ⟨before, value, later, hpairs, hlisted, hgiven⟩ := h.upTo front c back (by simp)
    refine ⟨before ++ [(c.key, value)], later, by simp [hpairs], fun pair hpair id hid => ?_,
      hgiven, by simp, fun key hkey => ⟨before, value, by rw [Option.some.inj hkey]⟩⟩
    exact (hlisted pair hpair id hid).resolve_left List.not_mem_nil

theorem ofEntries_lists (plan : Plan) (seen : List String) (pairs : List Pair) :
    ∃ cs : List Candidate, ofEntries plan seen (pairs.map .ok) = cs.map .ok ∧
      Lists plan seen pairs cs := by
  induction pairs generalizing seen with
  | nil => exact ⟨[], rfl, by simp, by simp, by simp, by simp, by simp⟩
  | cons pair pairs ih =>
      obtain ⟨key, value⟩ := pair
      simp only [List.map_cons, ofEntries]
      cases hid : plan.accept? key with
      | none =>
          obtain ⟨cs, hcs, hlists⟩ := ih seen
          exact ⟨cs, hcs, hlists.skip (by simp [hid])⟩
      | some id =>
          by_cases hseen : id ∈ seen
          · obtain ⟨cs, hcs, hlists⟩ := ih seen
            refine ⟨cs, by simpa [hseen] using hcs, hlists.skip ?_⟩
            simpa [hid] using hseen
          · obtain ⟨cs, hcs, hlists⟩ := ih (id :: seen)
            exact ⟨⟨id, key⟩ :: cs, by simp [hseen, hcs], hlists.give hseen hid⟩

end Candidate

-- Every record can be read, and has the id of the place that it is in.
def Labelled (map : SortedMap Bytes Bytes) : Prop :=
  ∀ model id record, map.get? (Key.document model id) = some record →
    ∃ doc, Record.decode record = .ok doc ∧ doc.id = id

theorem Placed.labelled {map : SortedMap Bytes Bytes} (h : Placed map) : Labelled map := by
  intro model id record hget
  obtain ⟨stored, hstored, hplace⟩ := h model id
  rw [Store.stored?_ofMap, hget] at hstored
  cases hdecode : Record.decode record with
  | error e => simp [hdecode, Except.map] at hstored
  | ok doc =>
      obtain rfl : some doc = stored := by simpa [hdecode, Except.map] using hstored
      exact ⟨doc, rfl, (hplace doc rfl).2⟩

theorem Labelled.legible {map : SortedMap Bytes Bytes} (h : Labelled map) : Legible map := by
  intro model id record hget
  obtain ⟨doc, hdecode, -⟩ := h model id record hget
  exact ⟨doc, hdecode⟩

-- What is in the place of a document is the record of that document.
theorem Labelled.record {map : SortedMap Bytes Bytes} (h : Labelled map) {model id : String}
    {record : Bytes} (hget : map.get? (Key.document model id) = some record) :
    ∃ doc, Record.decode record = .ok doc ∧
      Store.stored? model id (View.ofMap map) = .ok (some doc) ∧ doc.id = id := by
  obtain ⟨doc, hdecode, hid⟩ := h model id record hget
  refine ⟨doc, hdecode, ?_, hid⟩
  rw [Store.stored?_ofMap, hget]
  simp only [hdecode]
  rfl

theorem Labelled.id_eq {map : SortedMap Bytes Bytes} (h : Labelled map) {model id : String}
    {doc : Document} (hstored : Store.stored? model id (View.ofMap map) = .ok (some doc)) :
    doc.id = id := by
  cases hget : map.get? (Key.document model id) with
  | none =>
      rw [Store.stored?_ofMap, hget] at hstored
      cases hstored
  | some record =>
      obtain ⟨doc', -, hstored', hid⟩ := h.record hget
      rw [hstored, Except.ok.injEq, Option.some.injEq] at hstored'
      exact hstored' ▸ hid

namespace Search

variable {map : SortedMap Bytes Bytes} {model : String} {plans : List Plan}

-- A document is stored that every plan accepts.
structure Finds (map : SortedMap Bytes Bytes) (model : String) (plans : List Plan) (id : String)
    (doc : Document) : Prop where
  stored : Store.stored? model id (View.ofMap map) = .ok (some doc)
  accepted : ∀ plan ∈ plans, plan.acceptsDocument doc = true

-- A document that a plan accepts has an entry in the range of the plan, which gives its id.
theorem exists_entry (hplaced : Placed map) (hindexed : Indexed map) {id : String}
    {doc : Document} {plan : Plan}
    (hstored : Store.stored? plan.model id (View.ofMap map) = .ok (some doc))
    (haccepts : plan.acceptsDocument doc = true) :
    plan.isVoid = false ∧ ∃ encoded value,
      map.get? (Key.entry plan.model plan.path encoded id) = some value ∧
        plan.range.contains (Key.entry plan.model plan.path encoded id) = true ∧
        plan.accept? (Key.entry plan.model plan.path encoded id) = some id ∧
        ∀ e ∈ plan.equal, e = encoded := by
  obtain ⟨_, hdoc, hplace⟩ := hplaced plan.model id
  rw [hstored, Except.ok.injEq] at hdoc
  obtain ⟨hmodel, rfl⟩ := hplace doc hdoc.symm
  simp only [Plan.acceptsDocument, Bool.and_eq_true, Bool.not_eq_true', List.any_eq_true]
    at haccepts
  obtain ⟨hvoid, v, hv, hleaf⟩ := haccepts
  obtain ⟨e, he, hpath, hencoded, -⟩ := IndexEntry.exists_of_mem_leavesAt hv
  obtain ⟨-, hcontains, hequal, hadmits⟩ := (Plan.acceptsLeaf_iff hencoded).mp hleaf
  have hentry : Key.entry plan.model plan.path e.encoded doc.id ∈ doc.entryKeys := by
    rw [← hmodel, ← hpath]
    exact List.mem_map_of_mem he
  obtain ⟨value, hvalue⟩ := Option.isSome_iff_exists.mp
    ((hindexed _ (Key.head?_entry ..)).mpr ⟨_, _, doc, hstored, hentry⟩)
  refine ⟨hvoid, e.encoded, value, hvalue, hcontains, ?_, hequal⟩
  have hall : plan.equal.all (fun x => x == e.encoded) = true := by
    cases hp : plan.equal with
    | none => rfl
    | some x => simpa using hequal x hp
  rw [Plan.accept?_entry, hall, hadmits]
  rfl

-- The index rules out no document that is to be found.
theorem probeAll_of_finds (hplaced : Placed map) (hindexed : Indexed map) {id : String}
    {doc : Document} (hfinds : Finds map model plans id doc)
    (hmodel : ∀ plan ∈ plans, plan.model = model) :
    probeAll (View.ofMap map) id plans = .ok true := by
  have hprobe : ∀ plan ∈ plans, probe (View.ofMap map) plan id = .ok true := by
    intro plan hplan
    have hstored := hfinds.stored
    rw [← hmodel plan hplan] at hstored
    obtain ⟨hvoid, encoded, value, hvalue, hcontains, haccept, hequal⟩ :=
      exists_entry hplaced hindexed hstored (hfinds.accepted plan hplan)
    rw [probe_ofMap, hvoid]
    cases hp : plan.equal with
    | some e =>
        rw [← hequal e hp] at hvalue
        simp [hvalue]
    | none =>
        have hm : (Key.entry plan.model plan.path encoded id, value) ∈ plan.range.select map :=
          (KeyRange.mem_select_iff _ _).mpr ⟨map.get?_eq_some_iff.mp hvalue, hcontains⟩
        have hany : (plan.range.select map).any (fun pair => plan.accept? pair.1 == some id) =
            true := List.any_eq_true.mpr ⟨_, hm, by simp [haccept]⟩
        simp [hany]
  clear hfinds hmodel
  induction plans with
  | nil => rfl
  | cons plan rest ih =>
      simp only [probeAll, hprobe plan (by simp), bind, Except.bind, ite_true]
      exact ih (fun p hp => hprobe p (List.mem_cons_of_mem _ hp))

-- Chosen are the candidates that pass the probes and whose documents are found.
theorem chosen_eq_some_iff (hlabelled : Labelled map) {c : Candidate}
    {pair : Candidate × Document} : chosen map model plans c = some pair ↔
      pair.1 = c ∧ pair.2.id = c.id ∧ probeAll (View.ofMap map) c.id plans.tail = .ok true ∧
        Finds map model plans c.id pair.2 := by
  rw [probeAll_eq, Except.ok.injEq]
  cases hpasses : passes map plans.tail c with
  | false => simp [chosen_of_ruledOut hpasses]
  | true =>
      cases hget : map.get? (Key.document model c.id) with
      | none =>
          simp only [chosen_of_missing hget, reduceCtorEq, true_and, false_iff]
          rintro ⟨-, -, hfinds⟩
          have hstored := hfinds.stored
          rw [Store.stored?_ofMap, hget] at hstored
          cases hstored
      | some record =>
          obtain ⟨doc, hdecode, hstored, hid⟩ := hlabelled.record hget
          rw [chosen_of_record hpasses hget hdecode, Option.ite_none_right_eq_some,
            List.all_eq_true, Option.some.injEq]
          constructor
          · rintro ⟨haccepts, rfl⟩
            exact ⟨rfl, hid, rfl, hstored, haccepts⟩
          · rintro ⟨hc, -, -, hfinds⟩
            have hsame := hfinds.stored
            rw [hstored, Except.ok.injEq, Option.some.injEq] at hsame
            rw [hsame]
            exact ⟨hfinds.accepted, Prod.ext hc.symm rfl⟩

theorem ids_chosen_sublist (hlabelled : Labelled map) (cs : List Candidate) :
    ((cs.filterMap (chosen map model plans)).map (·.2.id)).Sublist (cs.map (·.id)) := by
  induction cs with
  | nil => exact .slnil
  | cons c cs ih =>
      cases hc : chosen map model plans c with
      | none =>
          rw [List.filterMap_cons_none hc]
          exact ih.cons c.id
      | some pair =>
          rw [List.filterMap_cons_some hc, List.map_cons, List.map_cons,
            ((chosen_eq_some_iff hlabelled).mp hc).2.1]
          exact ih.cons_cons c.id

-- The first candidates that are chosen come from the front of all. The last of them ends that front
-- if there are as many as there is room for, and otherwise nothing stands behind it.
theorem exists_front (choice : Candidate → Option (Candidate × Document)) {room : Nat}
    (hroom : 0 < room) (cs : List Candidate) : ∃ front back, cs = front ++ back ∧
      (cs.filterMap choice).take room = front.filterMap choice ∧
      ((front.filterMap choice).length < room ∧ back = [] ∨
        room ≤ (front.filterMap choice).length ∧
          ∃ before c, front = before ++ [c] ∧ (choice c).isSome) := by
  induction cs generalizing room with
  | nil => exact ⟨[], [], rfl, by simp, .inl ⟨hroom, rfl⟩⟩
  | cons c cs ih =>
      cases hchoice : choice c with
      | none =>
          obtain ⟨front, back, rfl, htake, hends⟩ := ih hroom
          refine ⟨c :: front, back, rfl, by simpa [hchoice] using htake, ?_⟩
          rw [List.filterMap_cons_none hchoice]
          refine hends.imp_right (And.imp_right ?_)
          rintro ⟨before, x, rfl, hx⟩
          exact ⟨c :: before, x, rfl, hx⟩
      | some pair =>
          cases room with
          | zero => cases hroom
          | succ room =>
              rcases Nat.eq_zero_or_pos room with rfl | hpos
              · exact ⟨[c], cs, rfl, by simp [hchoice], .inr ⟨by simp [hchoice], [], c, rfl,
                  by simp [hchoice]⟩⟩
              · obtain ⟨front, back, rfl, htake, hends⟩ := ih hpos
                refine ⟨c :: front, back, rfl, by simpa [hchoice] using htake, ?_⟩
                rw [List.filterMap_cons_some hchoice, List.length_cons]
                refine hends.imp (And.imp_left Nat.succ_lt_succ)
                  (And.imp Nat.succ_le_succ ?_)
                rintro ⟨before, x, rfl, hx⟩
                exact ⟨c :: before, x, rfl, hx⟩

-- A page is filled from the front of the candidates. It holds all of them that are to be found, in
-- their order, and it ends with the entry of the last of them, or at the end.
theorem fill_spec (hlabelled : Labelled map) (model : String) (plans : List Plan) {limit : Nat}
    (cs : List Candidate) {kept : List Document} (hkept : kept.length < limit) : ∃ docs last,
      fill (View.ofMap map) model plans limit kept (cs.map .ok) = .ok (kept ++ docs, last) ∧
      (∀ doc ∈ docs, Finds map model plans doc.id doc ∧
        probeAll (View.ofMap map) doc.id plans.tail = .ok true) ∧
      ∃ front back, cs = front ++ back ∧ (docs.map (·.id)).Sublist (front.map (·.id)) ∧
        (∀ c ∈ front, probeAll (View.ofMap map) c.id plans.tail = .ok true →
          ∀ doc, Finds map model plans c.id doc → doc ∈ docs) ∧
        ((last = none ∧ back = []) ∨ ∃ c ∈ front.getLast?, last = some c.key) := by
  have hroom : 0 < limit - kept.length := by omega
  have hfill := fill_ofMap hlabelled.legible model plans cs hkept
  obtain ⟨front, back, rfl, htake, hends⟩ := exists_front (chosen map model plans) hroom cs
  rw [htake] at hfill
  refine ⟨_, _, hfill, ?_, front, back, rfl, ?_, ?_, ?_⟩
  · intro doc hdoc
    obtain ⟨pair, hpair, rfl⟩ := List.mem_map.mp hdoc
    obtain ⟨c, -, hc⟩ := List.mem_filterMap.mp hpair
    obtain ⟨-, hid, hpasses, hfinds⟩ := (chosen_eq_some_iff hlabelled).mp hc
    rw [hid]
    exact ⟨hfinds, hpasses⟩
  · rw [List.map_map]
    exact ids_chosen_sublist hlabelled front
  · intro c hc hpasses doc hfinds
    have hchosen : chosen map model plans c = some (c, doc) :=
      (chosen_eq_some_iff hlabelled).mpr ⟨rfl, hlabelled.id_eq hfinds.stored, hpasses, hfinds⟩
    exact List.mem_map_of_mem (List.mem_filterMap.mpr ⟨c, hc, hchosen⟩)
  · rcases hends with ⟨hlt, rfl⟩ | ⟨hle, before, c, rfl, hc⟩
    · exact .inl ⟨if_neg (Nat.not_le.mpr hlt), rfl⟩
    · obtain ⟨pair, hpair⟩ := Option.isSome_iff_exists.mp hc
      rw [List.filterMap_append, List.filterMap_cons_some hpair, List.filterMap_nil] at hle ⊢
      exact .inr ⟨c, by simp, by rw [lastKey_concat pair hle, fst_of_chosen hpair]⟩

end Search

end DocStore
