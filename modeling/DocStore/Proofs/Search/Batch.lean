import DocStore.Proofs.Search.Filter
import DocStore.Proofs.Store.Documents
import DocStore.Search

-- How a page is filled. Candidates are confirmed in batches, with the outcome of taking them one at
-- a time.
namespace DocStore

-- Every record can be read.
def Legible (map : SortedMap Bytes Bytes) : Prop :=
  ∀ model id record, map.get? (Key.document model id) = some record →
    ∃ doc, Record.decode record = .ok doc

namespace Search

-- The document of a candidate that no probe rules out and that satisfies every filter.
def choose (view : View) (model : String) (plans : List Plan) (c : Candidate) :
    Except Error (Option Document) := do
  if ← probeAll view c.id plans.tail then
    match ← view.get (Key.document model c.id) with
    | some record =>
      let doc ← Record.decode record
      return if plans.all (fun plan => plan.acceptsDocument doc) then some doc else none
    | none => return none
  else return none

-- Chooses from candidates, one at a time, as long as there is room.
def walk (view : View) (model : String) (plans : List Plan) :
    Nat → List (Except Error Candidate) → Except Error (List (Candidate × Document))
  | 0, _ => .ok []
  | _ + 1, [] => .ok []
  | _ + 1, .error e :: _ => .error e
  | room + 1, .ok c :: rest => do
    match ← choose view model plans c with
    | some doc => return (c, doc) :: (← walk view model plans room rest)
    | none => walk view model plans (room + 1) rest

-- Where a page ends that holds some documents, and has room for a number of them.
def lastKey (room : Nat) (kept : List (Candidate × Document)) : Option Bytes :=
  if room ≤ kept.length then kept.getLast?.map (·.1.key) else none

theorem lastKey_cons (room : Nat) (pair : Candidate × Document)
    (kept : List (Candidate × Document)) : lastKey room (pair :: kept) =
      (lastKey (room - 1) kept).orElse
        (fun _ => if room ≤ 1 then some pair.1.key else none) := by
  cases kept with
  | nil => simp [lastKey]
  | cons next kept =>
      simp only [lastKey, List.length_cons, List.getLast?_cons_cons]
      by_cases hfull : room ≤ kept.length + 1 + 1
      · rw [if_pos hfull, if_pos (by omega), List.getLast?_eq_some_getLast (List.cons_ne_nil _ _)]
        rfl
      · rw [if_neg hfull, if_neg (by omega), if_neg (by omega)]
        rfl

theorem lastKey_append {room : Nat} {kept : List (Candidate × Document)}
    (h : kept.length < room) (more : List (Candidate × Document)) :
    lastKey room (kept ++ more) = lastKey (room - kept.length) more := by
  simp only [lastKey, List.length_append]
  by_cases hfull : room - kept.length ≤ more.length
  · have hne : more ≠ [] := by
      rintro rfl
      simp only [List.length_nil] at hfull
      omega
    rw [if_pos hfull, if_pos (by omega), List.getLast?_append_of_ne_nil _ hne]
  · rw [if_neg hfull, if_neg (by omega)]

-- A page that is full ends with its last document.
theorem lastKey_concat {room : Nat} {front : List (Candidate × Document)}
    (pair : Candidate × Document) (h : room ≤ (front ++ [pair]).length) :
    lastKey room (front ++ [pair]) = some pair.1.key := by
  rw [lastKey, if_pos h, List.getLast?_concat]
  rfl

variable {map : SortedMap Bytes Bytes} {model : String} {plans : List Plan} {c : Candidate}

theorem anyEntry_map (plan : Plan) (id : String) (pairs : List Pair) :
    anyEntry plan id (pairs.map .ok) =
      .ok (pairs.any (fun pair => plan.accept? pair.1 == some id)) := by
  induction pairs with
  | nil => rfl
  | cons pair pairs ih =>
      obtain ⟨key, value⟩ := pair
      simp only [List.map_cons, anyEntry, List.any_cons, ih]
      split
      · next h => simp [h]
      · next h => simp [h]

theorem probe_ofMap (map : SortedMap Bytes Bytes) (plan : Plan) (id : String) :
    probe (View.ofMap map) plan id = .ok (!plan.isVoid &&
      match plan.equal with
      | some encoded => (map.get? (Key.entry plan.model plan.path encoded id)).isSome
      | none => (plan.range.select map).any (fun pair => plan.accept? pair.1 == some id)) := by
  simp only [probe, View.ofMap, anyEntry_map]
  cases plan.isVoid <;> cases plan.equal <;> rfl

theorem probeAll_ofMap (map : SortedMap Bytes Bytes) (id : String) (plans : List Plan) :
    ∃ passes, probeAll (View.ofMap map) id plans = .ok passes := by
  induction plans with
  | nil => exact ⟨true, rfl⟩
  | cons plan rest ih =>
      obtain ⟨passes, hrest⟩ := ih
      obtain ⟨held, hheld⟩ : ∃ held, probe (View.ofMap map) plan id = .ok held :=
        ⟨_, probe_ofMap map plan id⟩
      simp only [probeAll, hheld, bind, Except.bind]
      cases held with
      | true => exact ⟨passes, hrest⟩
      | false => exact ⟨false, rfl⟩

-- No probe rules a candidate out.
def passes (map : SortedMap Bytes Bytes) (others : List Plan) (c : Candidate) : Bool :=
  (probeAll (View.ofMap map) c.id others).toOption.getD false

theorem probeAll_eq (map : SortedMap Bytes Bytes) (others : List Plan) (c : Candidate) :
    probeAll (View.ofMap map) c.id others = .ok (passes map others c) := by
  obtain ⟨held, hheld⟩ := probeAll_ofMap map c.id others
  rw [passes, hheld]
  rfl

-- A candidate and its document, if it is chosen.
def chosen (map : SortedMap Bytes Bytes) (model : String) (plans : List Plan) (c : Candidate) :
    Option (Candidate × Document) :=
  if passes map plans.tail c then do
    let record ← map.get? (Key.document model c.id)
    let doc ← (Record.decode record).toOption
    if plans.all (fun plan => plan.acceptsDocument doc) then some (c, doc) else none
  else none

theorem chosen_of_ruledOut (h : passes map plans.tail c = false) :
    chosen map model plans c = none := by
  simp [chosen, h]

theorem chosen_of_missing (h : map.get? (Key.document model c.id) = none) :
    chosen map model plans c = none := by
  simp [chosen, h]

theorem chosen_of_record {record : Bytes} {doc : Document} (hpasses : passes map plans.tail c = true)
    (hget : map.get? (Key.document model c.id) = some record)
    (hdecode : Record.decode record = .ok doc) : chosen map model plans c =
      if plans.all (fun plan => plan.acceptsDocument doc) then some (c, doc) else none := by
  simp [chosen, hpasses, hget, hdecode, Except.toOption]

theorem fst_of_chosen {pair : Candidate × Document} (h : chosen map model plans c = some pair) :
    pair.1 = c := by
  simp only [chosen, Option.bind_eq_bind, Option.ite_none_right_eq_some,
    Option.bind_eq_some_iff, Option.some.injEq] at h
  obtain ⟨-, record, -, doc, -, -, rfl⟩ := h
  rfl

theorem choose_ofMap (hlegible : Legible map) (model : String) (plans : List Plan)
    (c : Candidate) :
    choose (View.ofMap map) model plans c = .ok ((chosen map model plans c).map (·.2)) := by
  have hget : (View.ofMap map).get (Key.document model c.id) =
      .ok (map.get? (Key.document model c.id)) := rfl
  simp only [choose, probeAll_eq, hget, bind, Except.bind]
  cases hpasses : passes map plans.tail c with
  | false =>
      rw [chosen_of_ruledOut hpasses]
      rfl
  | true =>
      cases hrecord : map.get? (Key.document model c.id) with
      | none =>
          rw [chosen_of_missing hrecord]
          rfl
      | some record =>
          obtain ⟨doc, hdecode⟩ := hlegible model c.id record hrecord
          simp only [chosen_of_record hpasses hrecord hdecode, hdecode, ite_true]
          split <;> rfl

-- One at a time, the first candidates are kept that are chosen.
theorem walk_ofMap (hlegible : Legible map) (model : String) (plans : List Plan) (room : Nat)
    (cs : List Candidate) : walk (View.ofMap map) model plans room (cs.map .ok) =
      .ok ((cs.filterMap (chosen map model plans)).take room) := by
  induction cs generalizing room with
  | nil => cases room <;> simp [walk]
  | cons c cs ih =>
      cases room with
      | zero => simp [walk]
      | succ room =>
          simp only [List.map_cons, walk, choose_ofMap hlegible, bind, Except.bind]
          cases hchosen : chosen map model plans c with
          | none => simp [hchosen, ih]
          | some pair =>
              obtain rfl := fst_of_chosen hchosen
              simp [hchosen, ih, pure, Except.pure]

-- A batch takes the next candidates that pass the probes, until it is full or none is left.
theorem takeBatch_ofMap (map : SortedMap Bytes Bytes) (others : List Plan) (room : Nat)
    (cs : List Candidate) : ∃ taken rest,
      takeBatch (View.ofMap map) others room (cs.map .ok) =
        .ok (taken.filter (passes map others), rest.map .ok) ∧
      cs = taken ++ rest ∧ (taken.filter (passes map others)).length ≤ room ∧
      ((taken.filter (passes map others)).length < room → rest = []) := by
  induction cs generalizing room with
  | nil => cases room <;> exact ⟨[], [], rfl, rfl, by simp, by simp⟩
  | cons c cs ih =>
      cases room with
      | zero => exact ⟨[], c :: cs, rfl, rfl, by simp, by simp⟩
      | succ room =>
          simp only [List.map_cons, takeBatch, probeAll_eq, bind, Except.bind]
          cases hpasses : passes map others c with
          | true =>
              obtain ⟨taken, rest, htake, hcs, hlength, hrest⟩ := ih room
              refine ⟨c :: taken, rest, ?_, by rw [hcs, List.cons_append], ?_, ?_⟩
              · simp [htake, hpasses, pure, Except.pure]
              · simpa [hpasses] using hlength
              · simpa [hpasses] using hrest
          | false =>
              obtain ⟨taken, rest, htake, hcs, hlength, hrest⟩ := ih (room + 1)
              refine ⟨c :: taken, rest, ?_, by rw [hcs, List.cons_append], ?_, ?_⟩
              · simpa [hpasses] using htake
              · simpa [hpasses] using hlength
              · simpa [hpasses] using hrest

theorem mapM_get (batch : List Candidate) :
    batch.mapM (fun c => (View.ofMap map).get (Key.document model c.id)) =
      .ok (batch.map (fun c => map.get? (Key.document model c.id))) := by
  induction batch with
  | nil => rfl
  | cons c batch ih =>
      rw [List.mapM_cons, ih]
      rfl

-- Of a batch the chosen candidates are confirmed.
theorem confirm_ofMap (hlegible : Legible map) (model : String) (plans : List Plan) (limit : Nat)
    (docs : List Document) {batch : List Candidate}
    (hbatch : ∀ c ∈ batch, passes map plans.tail c = true) :
    confirm plans limit docs (batch.zip (batch.map (fun c => map.get? (Key.document model c.id)))) =
      .ok (docs ++ (batch.filterMap (chosen map model plans)).map (·.2),
        lastKey (limit - docs.length) (batch.filterMap (chosen map model plans))) := by
  induction batch generalizing docs with
  | nil => simp [confirm, lastKey]
  | cons c batch ih =>
      rw [List.forall_mem_cons] at hbatch
      simp only [List.map_cons, List.zip_cons_cons, List.filterMap_cons]
      cases hget : map.get? (Key.document model c.id) with
      | none =>
          rw [chosen_of_missing hget]
          simpa [confirm] using ih docs hbatch.2
      | some record =>
          obtain ⟨doc, hdecode⟩ := hlegible model c.id record hget
          rw [chosen_of_record hbatch.1 hget hdecode]
          simp only [confirm, hdecode, bind, Except.bind]
          split
          · have hroom : limit - docs.length - 1 = limit - (docs ++ [doc]).length := by
              rw [List.length_append, List.length_singleton]
              omega
            have hfull : limit - docs.length ≤ 1 ↔ limit ≤ (docs ++ [doc]).length := by
              rw [List.length_append, List.length_singleton]
              omega
            simp only [ih _ hbatch.2, lastKey_cons, hroom, hfull, pure, Except.pure]
            simp
          · exact ih docs hbatch.2

-- What is chosen passes the probes.
theorem filterMap_filter_passes (map : SortedMap Bytes Bytes) (model : String) (plans : List Plan)
    (cs : List Candidate) :
    (cs.filter (passes map plans.tail)).filterMap (chosen map model plans) =
      cs.filterMap (chosen map model plans) := by
  rw [List.filterMap_filter]
  congr
  funext c
  cases h : passes map plans.tail c with
  | false => simp [chosen_of_ruledOut h]
  | true => rfl

-- One batch goes over the front of the candidates and adds those that are chosen there. Then there
-- was nothing left to take, or the page is full and ends with the last one, or the rest follows.
theorem fill_step (hlegible : Legible map) (model : String) (plans : List Plan) {limit : Nat}
    (cs : List Candidate) {docs : List Document} (hdocs : docs.length < limit) :
    ∃ taken rest, cs = taken ++ rest ∧ ∃ kept, taken.filterMap (chosen map model plans) = kept ∧
      ((kept = [] ∧ rest = [] ∧
          fill (View.ofMap map) model plans limit docs (cs.map .ok) = .ok (docs, none)) ∨
        (kept.length = limit - docs.length ∧
          fill (View.ofMap map) model plans limit docs (cs.map .ok) =
            .ok (docs ++ kept.map (·.2), lastKey kept.length kept)) ∨
        (kept.length < limit - docs.length ∧ rest.length < cs.length ∧
          fill (View.ofMap map) model plans limit docs (cs.map .ok) =
            fill (View.ofMap map) model plans limit (docs ++ kept.map (·.2)) (rest.map .ok))) := by
  obtain ⟨taken, rest, htake, hcs, hlength, hrest⟩ :=
    takeBatch_ofMap map plans.tail (limit - docs.length) cs
  refine ⟨taken, rest, hcs, _, rfl, ?_⟩
  rw [← filterMap_filter_passes, fill]
  split
  · next e he =>
    rw [htake] at he
    cases he
  · next he =>
    rw [htake, Except.ok.injEq, Prod.mk.injEq] at he
    rw [he.1] at hrest ⊢
    exact .inl ⟨rfl, hrest (by simp; omega), rfl⟩
  · next first batch rest' he =>
    rw [htake, Except.ok.injEq, Prod.mk.injEq] at he
    obtain ⟨hbatch, rfl⟩ := he
    have hpasses : ∀ c ∈ first :: batch, passes map plans.tail c = true := by
      rw [← hbatch]
      exact fun c hc => (List.mem_filter.mp hc).2
    simp only [mapM_get, bind, Except.bind, confirm_ofMap hlegible model plans limit docs hpasses]
    have hkept := List.length_filterMap_le (chosen map model plans) (first :: batch)
    have htaken := List.length_filter_le (passes map plans.tail) taken
    rw [hbatch] at hlength htaken ⊢
    generalize (first :: batch).filterMap (chosen map model plans) = kept at hkept
    rw [List.length_cons] at htaken
    rcases Nat.lt_or_eq_of_le (Nat.le_trans hkept hlength) with hroom | hfull
    · have hlast : lastKey (limit - docs.length) kept = none := if_neg (by omega)
      refine .inr (.inr ⟨hroom, ?_, by rw [hlast]⟩)
      rw [hcs, List.length_append]
      omega
    · have hne : kept ≠ [] := by
        rw [← List.length_pos_iff]
        omega
      obtain ⟨front, pair, rfl⟩ := (List.eq_nil_or_concat' kept).resolve_left hne
      rw [← hfull, lastKey_concat pair (Nat.le_refl _)]
      exact .inr (.inl ⟨rfl, rfl⟩)

-- A page is filled with the first candidates that are chosen, and ends with the last of them if it
-- is full.
theorem fill_ofMap (hlegible : Legible map) (model : String) (plans : List Plan) {limit : Nat}
    (cs : List Candidate) {docs : List Document} (hdocs : docs.length < limit) :
    fill (View.ofMap map) model plans limit docs (cs.map .ok) =
      .ok (docs ++ ((cs.filterMap (chosen map model plans)).take (limit - docs.length)).map (·.2),
        lastKey (limit - docs.length)
          ((cs.filterMap (chosen map model plans)).take (limit - docs.length))) := by
  induction h : cs.length using Nat.strongRecOn generalizing cs docs with
  | _ n ih =>
      obtain ⟨taken, rest, hcs, kept, hkept, hstep⟩ := fill_step hlegible model plans cs hdocs
      have hchosen : cs.filterMap (chosen map model plans) =
          kept ++ rest.filterMap (chosen map model plans) := by
        rw [hcs, List.filterMap_append, hkept]
      rw [hchosen]
      rcases hstep with ⟨rfl, rfl, hfill⟩ | ⟨hfull, hfill⟩ | ⟨hroom, hlength, hfill⟩
      · have hlast : lastKey (limit - docs.length) [] = none := if_neg (by simp; omega)
        simp [hfill, hlast]
      · rw [hfill, ← hfull, List.take_left' rfl]
      · have hnext : (docs ++ kept.map (·.2)).length < limit := by simp; omega
        have hleft : limit - (docs ++ kept.map (·.2)).length =
            limit - docs.length - kept.length := by simp; omega
        rw [hfill, ih rest.length (h ▸ hlength) rest hnext rfl, hleft, List.take_append,
          List.take_of_length_le (Nat.le_of_lt hroom), lastKey_append hroom]
        simp

end Search

end DocStore
