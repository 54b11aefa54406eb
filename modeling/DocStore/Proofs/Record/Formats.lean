import DocStore.Proofs.Document
import DocStore.Proofs.Json.Tree
import DocStore.Proofs.MessagePack
import DocStore.Search
import DocStore.Store.Attempt

-- Records are read as the documents they were written of, so that what a store answers does not
-- depend on the formats of its records.
namespace DocStore

-- What can be written in a format and read again.
def Encoding.Fits : Encoding → Document → Prop
  | .json, d => d.toWire.depth ≤ Json.maxNesting
  -- lengths are written in four bytes at most
  | .messagePack, d => d.toWire.depth ≤ MessagePack.maxNesting ∧ d.toWire.isShort = true

theorem Record.decode_encode {encoding : Encoding} {d : Document} (h : d.Storable)
    (hfits : encoding.Fits d) : decode (encode encoding d) = .ok d := by
  have hplain := Document.plain_toWire h
  cases encoding with
  | json =>
      simp only [decode, encode, if_pos, Json.read?_write hplain, Option.bind_some,
        Document.ofWire?_toWire h hfits]
  | messagePack =>
      obtain ⟨hdepth, hshort⟩ := hfits
      have htag : tag .messagePack ≠ tag .json := by decide
      simp only [decode, encode, if_neg htag, if_pos, MessagePack.read?_write hplain hshort hdepth,
        Option.bind_some, Document.ofWire?_toWire h hdepth]

-- The same bytes, or two records of one document.
inductive Record.Same : Bytes → Bytes → Prop where
  | refl (bytes : Bytes) : Same bytes bytes
  | recoded {d : Document} {one two : Encoding} : d.Storable → one.Fits d → two.Fits d →
    Same (encode one d) (encode two d)

theorem Record.Same.decode_eq {one two : Bytes} (h : Same one two) : decode one = decode two := by
  cases h with
  | refl => rfl
  | recoded h hone htwo => rw [decode_encode h hone, decode_encode h htwo]

-- What goes on alike from values that differ in what does not matter comes to the same.
theorem bind_congr_of_map {ε α β γ : Type} {x y : Except ε α} {r : α → β}
    (h : x.map r = y.map r) {k l : α → Except ε γ} (hk : ∀ a b, r a = r b → k a = l b) :
    x >>= k = y >>= l := by
  cases x with
  | error e =>
      cases y with
      | error _ =>
          cases h
          rfl
      | ok _ => cases h
  | ok a =>
      cases y with
      | error _ => cases h
      | ok b => exact hk a b (Except.ok.inj h)

-- What a read makes of what it finds at a key.
def View.meaning (view : View) (key : Bytes) : Except Error (Option (Except Error Document)) :=
  (view.get key).map (Option.map Record.decode)

-- What two walks come by where they differ in values only.
inductive SameKey : Except Error Pair → Except Error Pair → Prop where
  | error (e : Error) : SameKey (.error e) (.error e)
  | ok (key one two : Bytes) : SameKey (.ok (key, one)) (.ok (key, two))

-- Two views of what differs in the formats of its records only.
structure View.Recoded (one two : View) : Prop where
  get : ∀ key, one.get key = two.get key ∨
    ∃ a b, Record.Same a b ∧ one.get key = .ok (some a) ∧ two.get key = .ok (some b)
  entries : ∀ range, List.Forall₂ SameKey (one.entries range) (two.entries range)

namespace View.Recoded

variable {one two : View}

theorem meaning_eq (h : one.Recoded two) (key : Bytes) : one.meaning key = two.meaning key := by
  rcases h.get key with heq | ⟨a, b, hsame, hone, htwo⟩
  · rw [meaning, meaning, heq]
  · simp only [meaning, hone, htwo, Except.map, Option.map_some, hsame.decode_eq]

-- What is done with a record alone depends on what it means.
theorem read_congr {α : Type} (h : one.Recoded two) (key : Bytes) (absent : α) (f : Document → α) :
    (do
      match ← one.get key with
      | some record => return f (← Record.decode record)
      | none => return absent) =
    (do
      match ← two.get key with
      | some record => return f (← Record.decode record)
      | none => return absent : Except Error α) := by
  refine bind_congr_of_map (h.meaning_eq key) fun found other hsame => ?_
  cases found with
  | none =>
      cases other with
      | none => rfl
      | some _ => cases hsame
  | some record =>
      cases other with
      | none => cases hsame
      | some record' =>
          have hdecode : Record.decode record = Record.decode record' := Option.some.inj hsame
          simp only [hdecode]

theorem stored?_congr (h : one.Recoded two) (model id : String) :
    Store.stored? model id one = Store.stored? model id two :=
  h.read_congr (Key.document model id) none some

end View.Recoded

namespace Search

-- Walks look at keys alone.
theorem ofEntries_congr (plan : Plan) (seen : List String) {one two : List (Except Error Pair)}
    (h : List.Forall₂ SameKey one two) :
    Candidate.ofEntries plan seen one = Candidate.ofEntries plan seen two := by
  induction h generalizing seen with
  | nil => rfl
  | cons hhead _ ih =>
      cases hhead with
      | error e => rw [Candidate.ofEntries, Candidate.ofEntries, ih seen]
      | ok key a b => simp only [Candidate.ofEntries, ih]

theorem anyEntry_congr (plan : Plan) (id : String) {one two : List (Except Error Pair)}
    (h : List.Forall₂ SameKey one two) : anyEntry plan id one = anyEntry plan id two := by
  induction h with
  | nil => rfl
  | cons hhead _ ih =>
      cases hhead with
      | error e => rfl
      | ok key a b => rw [anyEntry, anyEntry, ih]

variable {one two : View}

theorem find_congr (h : one.Recoded two) (model : String) (f : Filter) (after : Option Bytes) :
    find one model f after = find two model f after := by
  have hentries : ∀ range, Candidate.ofEntries (Plan.ofFilter model f) [] (one.entries range) =
      Candidate.ofEntries (Plan.ofFilter model f) [] (two.entries range) :=
    fun range => ofEntries_congr _ _ (h.entries range)
  simp only [find, hentries]

theorem probe_congr (h : one.Recoded two) (plan : Plan) (id : String) :
    probe one plan id = probe two plan id := by
  have hfound : ∀ (view : View) (key : Bytes), (view.get key).map Option.isSome =
      (view.meaning key).map Option.isSome := by
    intro view key
    rw [View.meaning]
    cases view.get key with
    | error e => rfl
    | ok found => cases found <;> rfl
  simp only [probe, anyEntry_congr plan id (h.entries plan.range), hfound, h.meaning_eq]

theorem probeAll_congr (h : one.Recoded two) (id : String) (plans : List Plan) :
    probeAll one id plans = probeAll two id plans := by
  induction plans with
  | nil => rfl
  | cons plan rest ih => rw [probeAll, probeAll, probe_congr h, ih]

theorem takeBatch_congr (h : one.Recoded two) (others : List Plan) (room : Nat)
    (left : List (Except Error Candidate)) :
    takeBatch one others room left = takeBatch two others room left := by
  induction left generalizing room with
  | nil => cases room <;> rfl
  | cons item left ih =>
      cases room with
      | zero => rfl
      | succ room =>
          cases item with
          | error e => rfl
          | ok candidate => simp only [takeBatch, probeAll_congr h, ih]

-- A batch is confirmed by what its records mean.
theorem confirm_congr (plans : List Plan) (limit : Nat) (kept : List Document)
    {one two : List (Candidate × Option Bytes)}
    (h : one.map (Prod.map id (Option.map Record.decode)) =
      two.map (Prod.map id (Option.map Record.decode))) :
    confirm plans limit kept one = confirm plans limit kept two := by
  induction one generalizing two kept with
  | nil => rw [List.map_eq_nil_iff.mp h.symm]
  | cons first one ih =>
      cases two with
      | nil => cases h
      | cons second two =>
          rw [List.map_cons, List.map_cons, List.cons.injEq] at h
          obtain ⟨hfirst, hrest⟩ := h
          obtain ⟨candidate, record⟩ := first
          obtain ⟨other, found⟩ := second
          obtain ⟨rfl, hrecord⟩ : candidate = other ∧ record.map Record.decode =
            found.map Record.decode := Prod.mk.inj hfirst
          cases record with
          | none =>
              cases found with
              | none => rw [confirm, confirm, ih kept hrest]
              | some _ => cases hrecord
          | some record =>
              cases found with
              | none => cases hrecord
              | some found =>
                  have hdecode : Record.decode record = Record.decode found :=
                    Option.some.inj hrecord
                  simp only [confirm, hdecode, ih _ hrest]

theorem map_mapM {ε α β γ : Type} (f : α → Except ε β) (r : β → γ) (as : List α) :
    (as.mapM f).map (List.map r) = as.mapM (fun a => (f a).map r) := by
  induction as with
  | nil => rfl
  | cons a as ih =>
      rw [List.mapM_cons, List.mapM_cons, ← ih]
      cases f a with
      | error e => rfl
      | ok b => cases as.mapM f <;> rfl

theorem records_congr (h : one.Recoded two) (model : String) (batch : List Candidate) :
    (batch.mapM (fun c => one.get (Key.document model c.id))).map
        (List.map (Option.map Record.decode)) =
      (batch.mapM (fun c => two.get (Key.document model c.id))).map
        (List.map (Option.map Record.decode)) := by
  rw [map_mapM, map_mapM]
  exact congrArg batch.mapM (funext fun c => h.meaning_eq (Key.document model c.id))

theorem zip_congr (batch : List Candidate) {records others : List (Option Bytes)}
    (h : records.map (Option.map Record.decode) = others.map (Option.map Record.decode)) :
    (batch.zip records).map (Prod.map id (Option.map Record.decode)) =
      (batch.zip others).map (Prod.map id (Option.map Record.decode)) := by
  rw [← List.zip_map_right, ← List.zip_map_right, h]

-- How a page goes on with the batch that was taken, and with what was left.
def fillFrom (view : View) (model : String) (plans : List Plan) (limit : Nat)
    (kept : List Document) :
    Except Error (List Candidate × List (Except Error Candidate)) →
      Except Error (List Document × Option Bytes)
  | .error e => .error e
  | .ok ([], _) => .ok (kept, none)
  | .ok (first :: batch, rest) => do
    let records ← (first :: batch).mapM (fun c => view.get (Key.document model c.id))
    let (kept, last) ← confirm plans limit kept ((first :: batch).zip records)
    match last with
    | some key => return (kept, some key)
    | none => fill view model plans limit kept rest

theorem fill_eq (view : View) (model : String) (plans : List Plan) (limit : Nat)
    (kept : List Document) (left : List (Except Error Candidate)) :
    fill view model plans limit kept left =
      fillFrom view model plans limit kept (takeBatch view plans.tail (limit - kept.length) left) := by
  rw [fill]
  split
  all_goals
    next htake =>
      rw [htake]
      rfl

theorem fill_congr (h : one.Recoded two) (model : String) (plans : List Plan) (limit : Nat)
    (kept : List Document) (left : List (Except Error Candidate)) :
    fill one model plans limit kept left = fill two model plans limit kept left := by
  induction hlength : left.length using Nat.strongRecOn generalizing left kept with
  | _ n ih =>
      rw [fill_eq, fill_eq, takeBatch_congr h]
      cases htake : takeBatch two plans.tail (limit - kept.length) left with
      | error e => rfl
      | ok taken =>
          obtain ⟨batch, rest⟩ := taken
          cases batch with
          | nil => rfl
          | cons first batch =>
              have hrest : rest.length < n := by
                have hle := takeBatch_length two plans.tail htake
                rw [List.length_cons] at hle
                omega
              refine bind_congr_of_map (records_congr h model (first :: batch)) ?_
              intro records others hsame
              rw [confirm_congr plans limit kept (zip_congr (first :: batch) hsame)]
              refine congrArg (confirm plans limit kept _ >>= ·) (funext fun found => ?_)
              obtain ⟨docs, last⟩ := found
              cases last with
              | some key => rfl
              | none => exact ih rest.length hrest docs rest rfl

theorem page_congr (h : one.Recoded two) (config : SearchConfig) (request : SearchRequest) :
    page one config request = page two config request := by
  simp only [page, find_congr h, fill_congr h]

theorem isMatch_congr (h : one.Recoded two) (model : String) (f : Filter) (id : String) :
    isMatch one model f id = isMatch two model f id := by
  simp only [isMatch, probe_congr h]
  refine congrArg (probe two (Plan.ofFilter model f) id >>= ·) (funext fun found => ?_)
  cases found with
  | false => rfl
  | true =>
      exact h.read_congr (Key.document model id) false (Plan.ofFilter model f).acceptsDocument

end Search

-- Where two maps have the same keys, and the same values or records of the same documents.
theorem View.recoded_ofMap {one two : SortedMap Bytes Bytes}
    (h : List.Forall₂ (fun a b => a.1 = b.1 ∧ Record.Same a.2 b.2) one.toList two.toList) :
    (View.ofMap one).Recoded (View.ofMap two) where
  get key := by
    have hfound : ∀ {front back : List (Bytes × Bytes)},
        List.Forall₂ (fun a b => a.1 = b.1 ∧ Record.Same a.2 b.2) front back →
        Assoc.get? key front = Assoc.get? key back ∨ ∃ a b, Record.Same a b ∧
          Assoc.get? key front = some a ∧ Assoc.get? key back = some b := by
      intro front back hsame
      induction hsame with
      | nil => exact .inl rfl
      | @cons a b front back hhead _ ih =>
          obtain ⟨a, record⟩ := a
          obtain ⟨b, other⟩ := b
          obtain ⟨rfl, hrecord⟩ : a = b ∧ Record.Same record other := hhead
          by_cases hkey : a = key
          · exact .inr ⟨record, other, hrecord, if_pos hkey, if_pos hkey⟩
          · simpa [Assoc.get?, hkey] using ih
    rcases hfound h with heq | ⟨a, b, hsame, hone, htwo⟩
    · exact .inl (congrArg Except.ok heq)
    · exact .inr ⟨a, b, hsame, congrArg Except.ok hone, congrArg Except.ok htwo⟩
  entries range := by
    refine List.forall₂_map_left_iff.mpr (List.forall₂_map_right_iff.mpr ?_)
    have hsame : ∀ a b : Pair, a.1 = b.1 ∧ Record.Same a.2 b.2 →
        (range.contains a.1 = true ↔ range.contains b.1 = true) :=
      fun a b hhead => by rw [hhead.1]
    refine (List.rel_filter (fun a b => hsame a b) h).imp ?_
    rintro ⟨key, one⟩ ⟨_, two⟩ ⟨rfl, -⟩
    exact .ok key one two

-- Either format gives a document back as it was, and no read can tell which one was written.
theorem Record.formats_interchangeable {encoding : Encoding} {d : Document} (h : d.Storable)
    (hfits : encoding.Fits d) : decode (encode encoding d) = .ok d ∧
      ∀ one two : View, one.Recoded two →
        (∀ model id, Store.stored? model id one = Store.stored? model id two) ∧
        (∀ config request, Search.page one config request = Search.page two config request) ∧
        ∀ model f id, Search.isMatch one model f id = Search.isMatch two model f id :=
  ⟨decode_encode h hfits, fun _ _ hviews =>
    ⟨hviews.stored?_congr, Search.page_congr hviews, Search.isMatch_congr hviews⟩⟩

namespace Record

-- Whole numbers as integers and as floats, limits, and containers and keys that are empty.
def motley : Document where
  id := "m"
  model := "com.ex.Kind"
  version := some 0xFFFFFFFFFFFFFFFF
  history := some ⟨⟨0, 0⟩, ⟨253402300799, 1999999999⟩⟩
  val := .object [
    ("", .object []),
    ("a", .array [.array [], .null, .bool false, .string ""]),
    ("f", .array [.float ⟨0x3FF0000000000000⟩, .float ⟨0x8000000000000000⟩]),
    ("i", .array [.int 1, .int (-9223372036854775808), .int 9223372036854775807])]
  status := none
  mutations := none

theorem storable_motley : motley.Storable where
  version := by decide
  history := by
    rintro _ ⟨⟩
    exact ⟨⟨by decide, by decide, by decide⟩, ⟨by decide, by decide, by decide⟩⟩
  val := by
    refine .object (by decide) ?_
    simp only [List.forall_mem_cons, List.not_mem_nil, false_implies, implies_true, and_true]
    refine ⟨.object (by decide) ?_, .array ?_, .array ?_, .array ?_⟩
    all_goals
      simp only [List.forall_mem_cons, List.not_mem_nil, false_implies, implies_true, and_true]
    · exact ⟨.array (by simp), .null, .bool _, .string _⟩
    · exact ⟨.float (by decide), .float (by decide)⟩
    · exact ⟨.int _, .int _, .int _⟩
  status := by rintro _ ⟨⟩
  mutations := by rintro _ ⟨⟩

theorem fits_motley (encoding : Encoding) : encoding.Fits motley := by
  have hdepth : motley.toWire.depth ≤ Json.maxNesting := by decide +kernel
  cases encoding with
  | json => exact hdepth
  | messagePack => exact ⟨Nat.le_trans hdepth (by decide), by decide +kernel⟩

-- A store of that document alone.
def motleyIn (encoding : Encoding) : View :=
  View.ofMap (SortedMap.empty.insert (Key.document motley.model motley.id) (encode encoding motley))

theorem formats_interchangeable_of_motley :
    motley.Storable ∧ Encoding.json.Fits motley ∧ Encoding.messagePack.Fits motley ∧
      (motleyIn .json).Recoded (motleyIn .messagePack) ∧
      decode (encode .json motley) = .ok motley ∧
      decode (encode .messagePack motley) = .ok motley ∧
      Store.stored? motley.model motley.id (motleyIn .json) =
        Store.stored? motley.model motley.id (motleyIn .messagePack) := by
  have hviews : (motleyIn .json).Recoded (motleyIn .messagePack) :=
    View.recoded_ofMap (.cons ⟨rfl, .recoded storable_motley (fits_motley _) (fits_motley _)⟩ .nil)
  obtain ⟨hjson, hsame⟩ := formats_interchangeable storable_motley (fits_motley .json)
  have hpacked := (formats_interchangeable storable_motley (fits_motley .messagePack)).1
  exact ⟨storable_motley, fits_motley _, fits_motley _, hviews, hjson, hpacked,
    (hsame _ _ hviews).1 _ _⟩

end Record

end DocStore
