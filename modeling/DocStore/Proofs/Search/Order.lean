import Mathlib
import DocStore.Proofs.Double.Nearest
import DocStore.Proofs.Search.Agreement
import DocStore.Proofs.Store.Stock

-- How filters order texts and numbers. Texts that are skipped are told from the others by the order
-- of the index, numbers are equal by their bits and less or greater as numbers.
namespace DocStore

namespace Bytes

-- A text that ends with the separator comes behind what it goes on to, and in front of what it is a
-- continuation of. Other texts keep their order.
theorem closed_lt_closed_iff {a b : Bytes} (ha : Key.separator ∉ a) (hb : Key.separator ∉ b) :
    a ++ [Key.separator] < b ++ [Key.separator] ↔ a < b ∧ ¬a <+: b ∨ b <+: a ∧ b ≠ a := by
  induction a generalizing b with
  | nil =>
      cases b with
      | nil => simp [Std.lt_irrefl]
      | cons y b =>
          have hy : y ≠ Key.separator := fun h => hb (by simp [h])
          simp [List.cons_lt_cons_iff, hy.symm, not_separator_lt]
  | cons x a ih =>
      have hx : x ≠ Key.separator := fun h => ha (by simp [h])
      cases b with
      | nil =>
          have hlt : x < Key.separator :=
            Std.lt_of_le_of_ne (Std.not_lt.mp (not_separator_lt x)) hx
          simp [List.cons_lt_cons_iff, hlt]
      | cons y b =>
          have hrest := ih (b := b) (fun h => ha (by simp [h])) (fun h => hb (by simp [h]))
          simp only [List.cons_append, List.cons_lt_cons_iff, List.cons_prefix_cons, hrest]
          by_cases hxy : x = y
          · subst hxy
            simp [Std.lt_irrefl]
          · simp [hxy, Ne.symm hxy]

end Bytes

namespace Double

variable {x y : Double}

-- Two zeros that differ in their sign.
def OppositeZeros (x y : Double) : Prop :=
  x.magnitude = 0 ∧ y.magnitude = 0 ∧ x.isNegative ≠ y.isNegative

theorem eq_iff : x = y ↔ x.isNegative = y.isNegative ∧ x.magnitude = y.magnitude := by
  refine ⟨fun h => by simp [h], fun ⟨hsign, hmagnitude⟩ => ?_⟩
  rw [← ofMagnitude_magnitude x, hsign, hmagnitude, ofMagnitude_magnitude]

-- Numbers at the same place have the same bits, but for the zeros.
theorem position_eq_iff : x.position = y.position ↔ x = y ∨ x.OppositeZeros y := by
  rw [eq_iff]
  simp only [position, OppositeZeros]
  cases x.isNegative <;> cases y.isNegative <;> simp

theorem less_iff (hx : x.isNaN = false) (hy : y.isNaN = false) :
    x.less y = true ↔ x.position < y.position := by
  simp [less, hx, hy]

end Double

namespace Value

-- Two numbers are zeros of opposite signs.
def OppositeZeros (v w : Value) : Prop :=
  ∃ x y, v.number? = some x ∧ w.number? = some y ∧ x.OppositeZeros y

variable {v w : Value}

theorem below_string_iff {s t : String} :
    (string s).Below (string t) ↔ Bytes.ofString s < Bytes.ofString t := by
  simp [Below, number?]

theorem below_number_iff {x y : Double} (hv : v.number? = some x) (hw : w.number? = some y) :
    v.Below w ↔ x.less y = true := by
  have htext : ∀ s, v ≠ .string s := by
    rintro s rfl
    cases hv
  simp [Below, hv, hw, htext]

end Value

namespace Filter

def equalTo (key : String) (operand : Value) : Filter := ⟨key, some operand, none, none, none, none⟩

def greaterThan (key : String) (operand : Value) : Filter :=
  ⟨key, none, some operand, none, none, none⟩

def lessThan (key : String) (operand : Value) : Filter :=
  ⟨key, none, none, some operand, none, none⟩

def startingBehind (key start skip : String) : Filter :=
  ⟨key, none, none, none, some (.string start), some (.string skip)⟩

variable {key : String} {v w : Value}

theorem admits_equalTo : (equalTo key w).Admits v ↔
    ScalarKind.of? v = ScalarKind.of? w ∧ Key.encode? v = Key.encode? w := by
  simp [admits_iff, equalTo]

theorem admits_greaterThan : (greaterThan key w).Admits v ↔ w.Below v := by
  simp [admits_iff, greaterThan]

theorem admits_lessThan : (lessThan key w).Admits v ↔ v.Below w := by
  simp [admits_iff, lessThan]

-- In the index a text stands behind another one if it is greater and no continuation of it, or if
-- that one is a continuation.
def Behind (skip t : String) : Prop :=
  Bytes.ofString skip < Bytes.ofString t ∧ ¬Bytes.ofString skip <+: Bytes.ofString t ∨
    Bytes.ofString t <+: Bytes.ofString skip ∧ t ≠ skip

theorem behind_iff {skip t : String} : Behind skip t ↔
    Bytes.ofString skip ++ [Key.separator] < Bytes.ofString t ++ [Key.separator] := by
  rw [Bytes.closed_lt_closed_iff (Bytes.separator_notMem skip) (Bytes.separator_notMem t), ne_eq,
    Bytes.ofString_inj]
  rfl

theorem admits_startingBehind {start skip : String} : (startingBehind key start skip).Admits v ↔
    ∃ t, v = .string t ∧ Bytes.ofString start <+: Bytes.ofString t ∧ Behind skip t := by
  simp [admits_iff, startingBehind, behind_iff]

theorem wellFormed_startingBehind (key start skip : String) :
    (startingBehind key start skip).WellFormed :=
  ⟨by simp [operatorCount, startingBehind], by simp [startingBehind], by simp [startingBehind]⟩

theorem wellFormed_equalTo (key : String) (w : Value) : (equalTo key w).WellFormed :=
  ⟨by simp [operatorCount, equalTo], by simp [equalTo], by simp [equalTo]⟩

theorem wellFormed_greaterThan (key : String) (w : Value) : (greaterThan key w).WellFormed :=
  ⟨by simp [operatorCount, greaterThan], by simp [greaterThan], by simp [greaterThan]⟩

theorem wellFormed_lessThan (key : String) (w : Value) : (lessThan key w).WellFormed :=
  ⟨by simp [operatorCount, lessThan], by simp [lessThan], by simp [lessThan]⟩

end Filter

namespace Key

theorem encode?_number {v : Value} {x : Double} (h : v.number? = some x) :
    encode? v = some (encodeNumber x) := by
  cases v <;> simp_all [Value.number?, encode?]

theorem encodeNumber_inj {x y : Double} : encodeNumber x = encodeNumber y ↔ x = y := by
  refine ⟨fun h => ?_, congrArg encodeNumber⟩
  have hread := congrArg decodeNumber? h
  rwa [decodeNumber?_encodeNumber, decodeNumber?_encodeNumber, Option.some.injEq] at hread

end Key

namespace Value

-- Two scalars of one kind are equal in the index, or one of them is less than the other one. Zeros
-- of opposite signs are neither.
inductive Compares (v w : Value) : Prop where
  | equal : ¬v.OppositeZeros w → Key.encode? v = Key.encode? w → ¬v.Below w → ¬w.Below v →
    Compares v w
  | less : ¬v.OppositeZeros w → Key.encode? v ≠ Key.encode? w → v.Below w → ¬w.Below v →
    Compares v w
  | greater : ¬v.OppositeZeros w → Key.encode? v ≠ Key.encode? w → ¬v.Below w → w.Below v →
    Compares v w
  | zeros : v.OppositeZeros w → Key.encode? v ≠ Key.encode? w → ¬v.Below w → ¬w.Below v →
    Compares v w

theorem compares_of_string {s t : String} {encoded : Bytes}
    (hs : Key.encode? (string s) = some encoded) : (string s).Compares (string t) := by
  have hzeros : ¬(string s).OppositeZeros (string t) := by
    rintro ⟨x, y, hx, -⟩
    cases hx
  have hequal : Key.encode? (string s) = Key.encode? (string t) ↔
      Bytes.ofString s = Bytes.ofString t := by
    refine ⟨fun h => ?_, fun h => by rw [Bytes.ofString_inj.mp h]⟩
    rw [hs] at h
    obtain rfl : encoded = Bytes.ofString s := by simpa using Key.encode?_cases hs
    simpa using Key.encode?_cases h.symm
  rcases Std.lt_trichotomy (Bytes.ofString s) (Bytes.ofString t) with hlt | heq | hgt
  · exact .less hzeros (fun h => Std.ne_of_lt hlt (hequal.mp h)) (below_string_iff.mpr hlt)
      (fun h => List.lt_asymm hlt (below_string_iff.mp h))
  · refine .equal hzeros (hequal.mpr heq) ?_ ?_ <;>
      simp [below_string_iff, heq, Std.lt_irrefl]
  · exact .greater hzeros (fun h => Std.ne_of_lt hgt (hequal.mp h).symm)
      (fun h => List.lt_asymm hgt (below_string_iff.mp h)) (below_string_iff.mpr hgt)

theorem compares_of_number {v w : Value} {x y : Double} (hv : v.number? = some x)
    (hw : w.number? = some y) (hx : x.isNaN = false) (hy : y.isNaN = false) : v.Compares w := by
  have hzeros : v.OppositeZeros w ↔ x.OppositeZeros y := by simp [OppositeZeros, hv, hw]
  have hequal : Key.encode? v = Key.encode? w ↔ x = y := by
    rw [Key.encode?_number hv, Key.encode?_number hw, Option.some.injEq, Key.encodeNumber_inj]
  have hless : v.Below w ↔ x.position < y.position :=
    (below_number_iff hv hw).trans (Double.less_iff hx hy)
  have hgreater : w.Below v ↔ y.position < x.position :=
    (below_number_iff hw hv).trans (Double.less_iff hy hx)
  -- numbers at the same place are told apart by their bits only if they are zeros
  have hplace := Double.position_eq_iff (x := x) (y := y)
  rw [← hequal, ← hzeros] at hplace
  by_cases hopposite : v.OppositeZeros w
  · have heq := hplace.mpr (.inr hopposite)
    refine .zeros hopposite (fun h => ?_) (by rw [hless, heq]; exact Int.lt_irrefl _)
      (by rw [hgreater, heq]; exact Int.lt_irrefl _)
    obtain ⟨-, -, hsign⟩ := hzeros.mp hopposite
    exact hsign (by rw [hequal.mp h])
  · rcases Int.lt_trichotomy x.position y.position with hlt | heq | hgt
    · exact .less hopposite (fun h => absurd (hplace.mpr (.inl h)) (by omega)) (hless.mpr hlt)
        (by rw [hgreater]; omega)
    · exact .equal hopposite ((hplace.mp heq).resolve_right hopposite) (by rw [hless]; omega)
        (by rw [hgreater]; omega)
    · exact .greater hopposite (fun h => absurd (hplace.mpr (.inl h)) (by omega))
        (by rw [hless]; omega) (hgreater.mpr hgt)

-- Texts compare with texts, and numbers with numbers.
theorem compares {v w : Value} {encoded : Bytes} (hv : Key.encode? v = some encoded)
    (hkind : ScalarKind.of? w = ScalarKind.of? v)
    (hnumber : ∀ x, v.number? = some x ∨ w.number? = some x → x.isNaN = false) :
    v.Compares w := by
  by_cases htext : ∃ s, v = .string s
  · obtain ⟨s, rfl⟩ := htext
    obtain ⟨t, rfl⟩ : ∃ t, w = .string t := by
      cases w <;> simp [ScalarKind.of?] at hkind ⊢
    exact compares_of_string hv
  · obtain ⟨x, hx⟩ : ∃ x, v.number? = some x := by
      cases v <;> simp [Key.encode?, number?] at hv htext ⊢
    obtain ⟨y, hy⟩ : ∃ y, w.number? = some y := by
      cases v <;> cases w <;> simp [ScalarKind.of?, number?] at hkind hx ⊢
    exact compares_of_number hx hy (hnumber x (.inl hx)) (hnumber y (.inr hy))

end Value

namespace Search

variable {map : SortedMap Bytes Bytes} {model id : String} {f : Filter}

-- With a complete index, a filter is matched by the stored documents that satisfy it.
theorem isMatch_iff_matches (hplaced : Placed map) (hindexed : Indexed map) (hf : f.WellFormed)
    (model id : String) : isMatch (View.ofMap map) model f id = .ok true ↔
      ∃ doc, Store.stored? model id (View.ofMap map) = .ok (some doc) ∧ f.Matches doc := by
  rw [isMatch_iff hplaced.labelled]
  constructor
  · rintro ⟨-, doc, hstored, haccepts⟩
    exact ⟨doc, hstored, (Plan.acceptsDocument_iff hf doc).mp haccepts⟩
  · rintro ⟨doc, hstored, hmatches⟩
    have haccepts : (Plan.ofFilter model f).acceptsDocument doc = true :=
      (Plan.acceptsDocument_iff hf doc).mpr hmatches
    have hplan := hstored
    rw [← (Plan.names_ofFilter model f).1] at hplan
    obtain ⟨hvoid, encoded, value, hvalue, hcontains, haccept, -⟩ :=
      exists_entry hplaced hindexed hplan haccepts
    exact ⟨⟨hvoid, _, (KeyRange.mem_select_iff _ _).mpr
      ⟨map.get?_eq_some_iff.mp hvalue, hcontains⟩, haccept⟩, doc, hstored, haccepts⟩

-- A document is stored that has a text at a path which begins with one text and stands behind
-- another one.
def HasTextBehind (map : SortedMap Bytes Bytes) (model key start skip id : String) : Prop :=
  ∃ doc t, Store.stored? model id (View.ofMap map) = .ok (some doc) ∧
    .string t ∈ IndexEntry.leavesAt doc.val (Plan.indexPath key) ∧
    Bytes.ofString start <+: Bytes.ofString t ∧ Filter.Behind skip t

theorem isMatch_startingBehind (hplaced : Placed map) (hindexed : Indexed map)
    (model key start skip id : String) :
    isMatch (View.ofMap map) model (.startingBehind key start skip) id = .ok true ↔
      HasTextBehind map model key start skip id := by
  rw [isMatch_iff_matches hplaced hindexed (Filter.wellFormed_startingBehind key start skip) model id]
  simp only [Filter.Matches, Filter.admits_startingBehind, HasTextBehind]
  constructor
  · rintro ⟨doc, hstored, v, hv, t, rfl, hbehind⟩
    exact ⟨doc, t, hstored, hv, hbehind⟩
  · rintro ⟨doc, t, hstored, hv, hbehind⟩
    exact ⟨doc, hstored, _, hv, t, rfl, hbehind⟩

-- A filter that skips a text is matched by the documents with one text at its path that begins as
-- it is to and stands behind the skipped one. The pages of a search for it list these documents.
theorem skips_to_behind {map : SortedMap Bytes Bytes} (hplaced : Placed map)
    (hindexed : Indexed map) (model key start skip : String) :
    (∀ id, isMatch (View.ofMap map) model (.startingBehind key start skip) id = .ok true ↔
      HasTextBehind map model key start skip id) ∧
    ∀ (config : Config) (request : SearchRequest), config.check = .ok () →
      request.check = .ok () → request.model = model →
      request.filters = [.startingBehind key start skip] →
      (∃ pages, Pages (View.ofMap map) config.search request none pages) ∧
      ∀ pages, Pages (View.ofMap map) config.search request none pages → ∀ id,
        (∃ r ∈ pages, id ∈ r.found) ↔ HasTextBehind map model key start skip id := by
  refine ⟨isMatch_startingBehind hplaced hindexed model key start skip, ?_⟩
  rintro config request hconfig hcheck rfl hfilters
  obtain ⟨pages, hpages, hfound⟩ := exists_pages_matching hconfig hcheck hplaced.labelled
  refine ⟨⟨pages, hpages⟩, fun other hother id => ?_⟩
  rw [← hpages.unique hother, hfound, hfilters, List.forall_mem_singleton]
  exact isMatch_startingBehind hplaced hindexed request.model key start skip id

-- A document with a title, and content that holds two of them.
def titled (id title : String) : Document :=
  .ofBody "com.ex.Book" id (.object [("title", .string title)])

def titles : List Document := [titled "a" "abc", titled "b" "a"]

theorem readable_titles :
    ∀ doc ∈ titles, Record.decode (Record.encode .messagePack doc) = .ok doc := by
  simp only [titles, List.forall_mem_cons]
  exact ⟨by cbv, by cbv, by simp⟩

theorem isMatch_titles : isMatch (View.ofMap (stocked titles)) "com.ex.Book"
    (.startingBehind "title" "a" "ab") "a" = .ok false := by
  cbv

-- A search for titles behind a given one.
def resuming (skip : String) : SearchRequest :=
  ⟨"com.ex.Book", [.startingBehind "title" "a" skip], none, none, false, []⟩

-- Behind a text stands what it continues, and not what continues it.
theorem skips_to_behind_of_titles :
    ∃ pages, Pages (View.ofMap (stocked titles)) Config.standard.search (resuming "ab") none pages ∧
      (∃ r ∈ pages, "b" ∈ r.found) ∧ ¬∃ r ∈ pages, "a" ∈ r.found := by
  have hplaced := placed_stocked readable_titles
  have hindexed := indexed_stocked readable_titles (by decide)
  have hconfig : Config.standard.check = .ok () := by cbv
  have hcheck : (resuming "ab").check = .ok () := by cbv
  obtain ⟨hmatch, hsearch⟩ :=
    skips_to_behind hplaced hindexed "com.ex.Book" "title" "a" "ab"
  obtain ⟨⟨pages, hpages⟩, hfound⟩ := hsearch Config.standard (resuming "ab") hconfig hcheck rfl rfl
  refine ⟨pages, hpages, ?_, fun h => ?_⟩
  · exact (hfound pages hpages "b").mpr ((hmatch "b").mp (by cbv))
  · have hlisted := (hmatch "a").mpr ((hfound pages hpages "a").mp h)
    rw [isMatch_titles] at hlisted
    cases hlisted

-- So a text may be greater than the one that is skipped, and not be found.
theorem not_found_of_greater :
    ¬∀ map, Placed map → Indexed map → ∀ model key start skip id : String,
      isMatch (View.ofMap map) model (.startingBehind key start skip) id = .ok true ↔
        ∃ doc t, Store.stored? model id (View.ofMap map) = .ok (some doc) ∧
          .string t ∈ IndexEntry.leavesAt doc.val (Plan.indexPath key) ∧
          Bytes.ofString start <+: Bytes.ofString t ∧
          Bytes.ofString skip < Bytes.ofString t := by
  intro h
  have hstored : Store.stored? "com.ex.Book" "a" (View.ofMap (stocked titles)) =
      .ok (some (titled "a" "abc")) := (stored?_stocked readable_titles ..).trans (by cbv)
  have hleaf : IndexEntry.leavesAt (titled "a" "abc").val (Plan.indexPath "title") =
      [.string "abc"] := by cbv
  have hone : Bytes.ofString "a" = [97] := by cbv
  have htwo : Bytes.ofString "ab" = [97, 98] := by cbv
  have hthree : Bytes.ofString "abc" = [97, 98, 99] := by cbv
  have hstart : Bytes.ofString "a" <+: Bytes.ofString "abc" := by
    rw [hone, hthree]
    decide
  have hgreater : Bytes.ofString "ab" < Bytes.ofString "abc" := by
    rw [htwo, hthree]
    decide
  have hmatch := (h _ (placed_stocked readable_titles)
    (indexed_stocked readable_titles (by decide)) "com.ex.Book" "title" "a" "ab" "a").mpr
      ⟨_, _, hstored, hleaf ▸ List.mem_singleton_self _, hstart, hgreater⟩
  rw [isMatch_titles] at hmatch
  cases hmatch

-- Whether a document matches the filters for an equal, a less and a greater value, in this order.
def verdicts (view : View) (model key : String) (w : Value) (id : String) :
    Except Error (List Bool) :=
  [Filter.equalTo key w, .lessThan key w, .greaterThan key w].mapM
    (fun f => isMatch view model f id)

-- A document with one scalar at the path of a filter matches it if that scalar does.
theorem exists_isMatch_of_single (hplaced : Placed map) (hindexed : Indexed map) {doc : Document}
    {v : Value} (hstored : Store.stored? model id (View.ofMap map) = .ok (some doc))
    (hv : ∀ u, u ∈ IndexEntry.leavesAt doc.val (Plan.indexPath f.key) ↔ u = v)
    (hf : f.WellFormed) :
    ∃ held, isMatch (View.ofMap map) model f id = .ok held ∧ (held = true ↔ f.Admits v) := by
  obtain ⟨held, hheld, -⟩ := exists_isMatch hplaced.labelled model f id
  have hmatches := isMatch_iff_matches hplaced hindexed hf model id
  simp only [hheld, hstored, Except.ok.injEq, Option.some.injEq, exists_eq_left', Filter.Matches,
    hv, exists_eq_left] at hmatches
  exact ⟨held, hheld, hmatches⟩

-- A document with one scalar at a path matches exactly one of the filters for a value that is equal
-- to an operand, less, or greater. Only if the scalar and the operand are zeros of opposite signs,
-- it matches none of them.
theorem verdicts_exclusive {map : SortedMap Bytes Bytes} (hplaced : Placed map)
    (hindexed : Indexed map) {model key id : String} {doc : Document} {v w : Value}
    (hstored : Store.stored? model id (View.ofMap map) = .ok (some doc))
    (hv : ∀ u, u ∈ IndexEntry.leavesAt doc.val (Plan.indexPath key) ↔ u = v)
    (hkind : ScalarKind.of? w = ScalarKind.of? v)
    (hnumber : ∀ x, v.number? = some x ∨ w.number? = some x → x.isNaN = false) :
    ∃ outcome, verdicts (View.ofMap map) model key w id = .ok outcome ∧
      (¬v.OppositeZeros w → outcome.count true = 1) ∧
      (v.OppositeZeros w → outcome.count true = 0) := by
  have hsingle : ∀ f : Filter, f.key = key → f.WellFormed →
      ∃ held, isMatch (View.ofMap map) model f id = .ok held ∧ (held = true ↔ f.Admits v) :=
    fun f hkey hf => exists_isMatch_of_single hplaced hindexed hstored (hkey ▸ hv) hf
  obtain ⟨equal, hequal, hequal'⟩ := hsingle _ rfl (Filter.wellFormed_equalTo key w)
  obtain ⟨less, hless, hless'⟩ := hsingle _ rfl (Filter.wellFormed_lessThan key w)
  obtain ⟨greater, hgreater, hgreater'⟩ := hsingle _ rfl (Filter.wellFormed_greaterThan key w)
  obtain ⟨encoded, hencoded⟩ :=
    Option.isSome_iff_exists.mp (IndexEntry.mem_leavesAt.mp ((hv v).mpr rfl)).2
  refine ⟨[equal, less, greater], ?_, ?_⟩
  · simp only [verdicts, List.mapM_cons, List.mapM_nil, hequal, hless, hgreater]
    rfl
  · replace hequal' : equal = true ↔ Key.encode? v = Key.encode? w :=
      hequal'.trans (Filter.admits_equalTo.trans (and_iff_right hkind.symm))
    replace hless' : less = true ↔ v.Below w := hless'.trans Filter.admits_lessThan
    replace hgreater' : greater = true ↔ w.Below v := hgreater'.trans Filter.admits_greaterThan
    cases Value.compares hencoded hkind hnumber with
    | equal hzeros he hl hg =>
        obtain rfl := hequal'.mpr he
        obtain rfl := Bool.eq_false_iff.mpr (hless'.not.mpr hl)
        obtain rfl := Bool.eq_false_iff.mpr (hgreater'.not.mpr hg)
        exact ⟨fun _ => rfl, fun h => absurd h hzeros⟩
    | less hzeros he hl hg =>
        obtain rfl := Bool.eq_false_iff.mpr (hequal'.not.mpr he)
        obtain rfl := hless'.mpr hl
        obtain rfl := Bool.eq_false_iff.mpr (hgreater'.not.mpr hg)
        exact ⟨fun _ => rfl, fun h => absurd h hzeros⟩
    | greater hzeros he hl hg =>
        obtain rfl := Bool.eq_false_iff.mpr (hequal'.not.mpr he)
        obtain rfl := Bool.eq_false_iff.mpr (hless'.not.mpr hl)
        obtain rfl := hgreater'.mpr hg
        exact ⟨fun _ => rfl, fun h => absurd h hzeros⟩
    | zeros hzeros he hl hg =>
        obtain rfl := Bool.eq_false_iff.mpr (hequal'.not.mpr he)
        obtain rfl := Bool.eq_false_iff.mpr (hless'.not.mpr hl)
        obtain rfl := Bool.eq_false_iff.mpr (hgreater'.not.mpr hg)
        exact ⟨fun h => absurd hzeros h, fun _ => rfl⟩

-- A measurement, and content that holds two of them, both zero.
def measured (id : String) (x : Double) : Document :=
  .ofBody "com.ex.Num" id (.object [("n", .float x)])

def zeros : List Document := [measured "a" ⟨0x8000000000000000⟩, measured "b" ⟨0⟩]

theorem readable_zeros :
    ∀ doc ∈ zeros, Record.decode (Record.encode .messagePack doc) = .ok doc := by
  simp only [zeros, List.forall_mem_cons]
  exact ⟨by cbv, by cbv, by simp⟩

theorem mem_leavesAt_measured {id : String} {x : Double} {u : Value} :
    u ∈ IndexEntry.leavesAt (measured id x).val (Plan.indexPath "n") ↔ u = .float x := by
  have hpath : Plan.indexPath "n" = "val.n" := by cbv
  have hleaves : (measured id x).val.leaves IndexEntry.root = [("val.n", .float x)] := by cbv
  rw [IndexEntry.mem_leavesAt, hpath, hleaves, List.mem_singleton, Prod.mk.injEq]
  refine ⟨fun h => h.1.2, ?_⟩
  rintro rfl
  exact ⟨⟨rfl, rfl⟩, rfl⟩

-- The number zero equals the one that has its sign, and not the other one.
theorem verdicts_exclusive_of_zeros :
    (∃ outcome, verdicts (View.ofMap (stocked zeros)) "com.ex.Num" "n" (.int 0) "b" = .ok outcome ∧
      outcome.count true = 1) ∧
    ∃ outcome, verdicts (View.ofMap (stocked zeros)) "com.ex.Num" "n" (.int 0) "a" = .ok outcome ∧
      outcome.count true = 0 := by
  have hplaced := placed_stocked readable_zeros
  have hindexed := indexed_stocked readable_zeros (by decide)
  have hread := stored?_stocked readable_zeros "com.ex.Num"
  have hzero : (Value.int 0).number? = some ⟨0⟩ := by cbv
  have hnumber : ∀ (bits : UInt64), Double.isNaN ⟨bits⟩ = false → ∀ x,
      (Value.float ⟨bits⟩).number? = some x ∨ (Value.int 0).number? = some x →
        x.isNaN = false := by
    rw [hzero]
    rintro bits hbits x (⟨⟨⟩⟩ | ⟨⟨⟩⟩)
    · exact hbits
    · decide
  constructor
  · obtain ⟨outcome, houtcome, honce, -⟩ := verdicts_exclusive hplaced hindexed (w := .int 0)
      ((hread "b").trans (by cbv)) (fun u => mem_leavesAt_measured) rfl (hnumber 0 (by decide))
    refine ⟨outcome, houtcome, honce ?_⟩
    rintro ⟨x, y, hx, hy, -, -, hsign⟩
    rw [hzero] at hy
    cases hx
    cases hy
    exact hsign rfl
  · obtain ⟨outcome, houtcome, -, hnone⟩ := verdicts_exclusive hplaced hindexed (w := .int 0)
      ((hread "a").trans (by cbv)) (fun u => mem_leavesAt_measured) rfl
      (hnumber 0x8000000000000000 (by decide))
    exact ⟨outcome, houtcome, hnone ⟨_, _, rfl, hzero, by decide, by decide, by decide⟩⟩

-- So a number may be neither equal to another one, nor less or greater.
theorem verdicts_empty :
    ¬∀ map, Placed map → Indexed map → ∀ (model key id : String) (doc : Document) (v w : Value),
      Store.stored? model id (View.ofMap map) = .ok (some doc) →
      (∀ u, u ∈ IndexEntry.leavesAt doc.val (Plan.indexPath key) ↔ u = v) →
      ScalarKind.of? w = ScalarKind.of? v →
      (∀ x, v.number? = some x ∨ w.number? = some x → x.isNaN = false) →
      ∃ outcome, verdicts (View.ofMap map) model key w id = .ok outcome ∧
        outcome.count true = 1 := by
  intro h
  have hstored : Store.stored? "com.ex.Num" "a" (View.ofMap (stocked zeros)) =
      .ok (some (measured "a" ⟨0x8000000000000000⟩)) :=
    (stored?_stocked readable_zeros ..).trans (by cbv)
  have hnumber : ∀ x, (Value.float ⟨0x8000000000000000⟩).number? = some x ∨
      (Value.float ⟨0⟩).number? = some x → x.isNaN = false := by
    rintro x (⟨⟨⟩⟩ | ⟨⟨⟩⟩) <;> decide
  obtain ⟨outcome, houtcome, honce⟩ := h _ (placed_stocked readable_zeros)
    (indexed_stocked readable_zeros (by decide)) _ "n" _ _ _ (.float ⟨0⟩) hstored
    (fun u => mem_leavesAt_measured) rfl hnumber
  have hnone : verdicts (View.ofMap (stocked zeros)) "com.ex.Num" "n" (.float ⟨0⟩) "a" =
      .ok [false, false, false] := by cbv
  rw [hnone, Except.ok.injEq] at houtcome
  rw [← houtcome] at honce
  cases honce

end Search

end DocStore
