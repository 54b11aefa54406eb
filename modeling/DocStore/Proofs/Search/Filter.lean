import Mathlib.Tactic.MkIffOfInductiveProp
import DocStore.Proofs.Bytes
import DocStore.Proofs.Index.Entry
import DocStore.Proofs.Key
import DocStore.Proofs.Word
import DocStore.Search.Candidate

-- What filters ask for, and that scans of the index answer them.
namespace DocStore

-- One scalar is less than another: texts by their bytes, numbers as numbers.
def Value.Below (a b : Value) : Prop :=
  (∃ s t, a = .string s ∧ b = .string t ∧ Bytes.ofString s < Bytes.ofString t) ∨
    ∃ x y, a.number? = some x ∧ b.number? = some y ∧ x.less y = true

namespace Filter

-- A scalar satisfies every operator that is set.
@[mk_iff]
structure Admits (f : Filter) (v : Value) : Prop where
  equal : ∀ operand, f.equal = some operand →
    ScalarKind.of? v = ScalarKind.of? operand ∧ Key.encode? v = Key.encode? operand
  greater : ∀ operand, f.greater = some operand → operand.Below v
  less : ∀ operand, f.less = some operand → v.Below operand
  start : ∀ operand, f.start = some operand →
    ∃ s t, operand = .string s ∧ v = .string t ∧ Bytes.ofString s <+: Bytes.ofString t ∧
      ∀ skip, f.skip = some skip → ∃ k, skip = .string k ∧
        Bytes.ofString k ++ [Key.separator] < Bytes.ofString t ++ [Key.separator]

-- Some indexed scalar of a document, at the path that is meant, satisfies a filter.
def Matches (f : Filter) (doc : Document) : Prop :=
  ∃ v ∈ IndexEntry.leavesAt doc.val (Plan.indexPath f.key), f.Admits v

-- A filter has one operator at most, begins with a text where it asks for a beginning, and skips
-- something only there.
structure WellFormed (f : Filter) : Prop where
  count : f.operatorCount ≤ 1
  skip : f.start = none → f.skip = none
  start : ∀ v, f.start = some v → ∃ s, v = .string s

theorem wellFormed_of_fault? {f : Filter} (h : f.fault? = none) : f.WellFormed := by
  simp only [fault?] at h
  split at h
  · cases h
  split at h
  · cases h
  next hcount =>
  split at h
  · cases h
  next hskip =>
  split at h
  · cases h
  next hstart =>
  refine ⟨Nat.not_lt.mp hcount, fun hnone => by simpa [hnone] using hskip, fun v hv => ?_⟩
  rw [hv] at hstart
  cases v <;> simp [Value.isString] at hstart ⊢

end Filter

-- A text is indexed as it is, and a number as the float nearest to it.
theorem Key.encode?_cases {v : Value} {encoded : Bytes} (h : encode? v = some encoded) :
    (∃ t, v = .string t ∧ encoded = Bytes.ofString t) ∨
      (∃ n, v = .int n ∧ encoded = encodeNumber (Double.ofInt n.toInt)) ∨
      ∃ x, v = .float x ∧ encoded = encodeNumber x := by
  cases v with
  | string t =>
      simp only [encode?] at h
      split at h
      · exact .inl ⟨t, rfl, (Option.some.inj h).symm⟩
      · cases h
  | int n => exact .inr (.inl ⟨n, rfl, (Option.some.inj h).symm⟩)
  | float x => exact .inr (.inr ⟨x, rfl, (Option.some.inj h).symm⟩)
  | null | bool | array | object => simp [encode?] at h

namespace Bytes

theorem append_lt_append_iff (front a b : Bytes) : front ++ a < front ++ b ↔ a < b := by
  induction front with
  | nil => rfl
  | cons x front ih => simp [ih]

-- What holds no separator begins what stands before the first one, or nothing there.
theorem prefix_closed_iff {a b : Bytes} (ha : Key.separator ∉ a) (rest : Bytes) :
    a <+: b ++ Key.separator :: rest ↔ a <+: b := by
  induction a generalizing b with
  | nil => simp
  | cons x a ih =>
      have hx : x ≠ Key.separator := fun h => ha (by simp [h])
      cases b with
      | nil => simp [hx]
      | cons y b =>
          rw [List.cons_append, List.cons_prefix_cons, List.cons_prefix_cons,
            ih (fun h => ha (by simp [h]))]

-- The separator is the greatest byte.
theorem not_separator_lt (b : UInt8) : ¬Key.separator < b := by
  intro hlt
  have hb := b.toNat_lt
  rw [UInt8.lt_iff_toNat_lt] at hlt
  simp only [Key.separator] at hlt
  simp at hlt
  omega

-- Of two byte strings that end with their first separator, the first one is less exactly if it is
-- less than, and no beginning of, everything that begins with the second one.
theorem closed_lt_iff {a b : Bytes} (ha : Key.separator ∉ a) (hb : Key.separator ∉ b)
    (rest : Bytes) :
    a ++ [Key.separator] < b ++ Key.separator :: rest ∧
        ¬a ++ [Key.separator] <+: b ++ Key.separator :: rest ↔
      a ++ [Key.separator] < b ++ [Key.separator] := by
  induction a generalizing b with
  | nil =>
      cases b with
      | nil => simp [Std.lt_irrefl]
      | cons y b =>
          have hne : Key.separator ≠ y := fun h => hb (by simp [h])
          simp [List.cons_lt_cons_iff, not_separator_lt, hne]
  | cons x a ih =>
      have hx : x ≠ Key.separator := fun h => ha (by simp [h])
      cases b with
      | nil => simp [List.cons_lt_cons_iff, hx]
      | cons y b =>
          have hrest := ih (b := b) (fun h => ha (by simp [h])) (fun h => hb (by simp [h]))
          simp only [List.cons_append, List.cons_lt_cons_iff, List.cons_prefix_cons, ← hrest]
          by_cases hxy : x = y
          · subst hxy
            simp [Std.lt_irrefl]
          · simp [hxy]

end Bytes

namespace Bound

variable {v operand : Value} {encoded : Bytes}

-- A bound of the kind of an indexed scalar compares with it as the operand does.
theorem isBelow_iff (h : Key.encode? v = some encoded) :
    (∃ bound, of? operand = some bound ∧ ScalarKind.of? v = ScalarKind.of? operand ∧
      bound.isBelow encoded = true) ↔ operand.Below v := by
  rcases Key.encode?_cases h with ⟨t, rfl, rfl⟩ | ⟨n, rfl, rfl⟩ | ⟨x, rfl, rfl⟩ <;>
    cases operand <;>
    simp [of?, Value.Below, Value.number?, ScalarKind.of?, isBelow, Key.decodeNumber?_encodeNumber]

theorem isAbove_iff (h : Key.encode? v = some encoded) :
    (∃ bound, of? operand = some bound ∧ ScalarKind.of? v = ScalarKind.of? operand ∧
      bound.isAbove encoded = true) ↔ v.Below operand := by
  rcases Key.encode?_cases h with ⟨t, rfl, rfl⟩ | ⟨n, rfl, rfl⟩ | ⟨x, rfl, rfl⟩ <;>
    cases operand <;>
    simp [of?, Value.Below, Value.number?, ScalarKind.of?, isAbove, Key.decodeNumber?_encodeNumber]

end Bound

namespace Plan

variable {plan : Plan} {f : Filter} {model id : String} {v : Value} {encoded : Bytes}

theorem accept?_entry (plan : Plan) (encoded : Bytes) (id : String) :
    plan.accept? (Key.entry plan.model plan.path encoded id) =
      if plan.equal.all (fun e => e == encoded) && plan.comparison.admits encoded then some id
      else none := by
  rw [accept?, Key.splitEntry?_entry]
  simp only [Bytes.toString?_ofString]

theorem acceptsLeaf_iff (h : Key.encode? v = some encoded) : plan.acceptsLeaf id v = true ↔
    (plan.kind = none ∨ ScalarKind.of? v = plan.kind) ∧
      plan.range.contains (Key.entry plan.model plan.path encoded id) = true ∧
      (∀ e ∈ plan.equal, e = encoded) ∧ plan.comparison.admits encoded = true := by
  have haccept : plan.accept? (Key.entry plan.model plan.path encoded id) = some id ↔
      (∀ e ∈ plan.equal, e = encoded) ∧ plan.comparison.admits encoded = true := by
    have hequal : plan.equal.all (fun e => e == encoded) = true ↔
        ∀ e ∈ plan.equal, e = encoded := by
      cases plan.equal <;> simp
    rw [accept?_entry, ← hequal]
    simp
  simp only [acceptsLeaf, h, Bool.and_eq_true, Bool.or_eq_true, Option.isNone_iff_eq_none,
    beq_iff_eq, haccept]

-- A scalar satisfies what a plan asks for.
def Admits (plan : Plan) (id : String) (v : Value) : Prop :=
  plan.isVoid = false ∧ plan.acceptsLeaf id v = true

section Operators

variable {path : String}

theorem contains_field (model path : String) (encoded : Bytes) (id : String) :
    (KeyRange.ofPrefix (Key.field model path)).contains (Key.entry model path encoded id) =
      true := by
  rw [KeyRange.contains_ofPrefix, Key.entry, Key.fieldValue]
  exact ⟨encoded ++ [Key.separator] ++ Bytes.ofString id, by simp⟩

theorem admits_ofField (h : Key.encode? v = some encoded) : (ofField model path).Admits id v :=
  ⟨rfl, (acceptsLeaf_iff h).mpr ⟨.inl rfl, contains_field model path encoded id, by simp [ofField],
    rfl⟩⟩

theorem admits_equalTo (h : Key.encode? v = some encoded) (operand : Value) :
    ((ofField model path).equalTo operand).Admits id v ↔
      ScalarKind.of? v = ScalarKind.of? operand ∧ Key.encode? v = Key.encode? operand := by
  cases hoperand : Key.encode? operand with
  | none => simp [Admits, equalTo, hoperand, h]
  | some e =>
      obtain ⟨kind, hkind⟩ := Key.scalarKind_of_encode? hoperand
      rw [Admits, acceptsLeaf_iff h]
      simp only [equalTo, hoperand, hkind, h, Option.some.injEq, ofField, Option.mem_some_iff,
        KeyRange.contains_ofPrefix, Comparison.admits, reduceCtorEq, false_or, true_and, and_true,
        forall_eq']
      constructor
      · rintro ⟨hv, -, heq⟩
        exact ⟨hv, heq.symm⟩
      · rintro ⟨hv, rfl⟩
        exact ⟨hv, List.prefix_append _ _, rfl⟩

theorem admits_comparing (h : Key.encode? v = some encoded) (comparison : Bound → Comparison)
    (operand : Value) : ((ofField model path).comparing comparison operand).Admits id v ↔
      ∃ bound, Bound.of? operand = some bound ∧ ScalarKind.of? v = ScalarKind.of? operand ∧
        (comparison bound).admits encoded = true := by
  cases hoperand : Bound.of? operand with
  | none => simp [Admits, comparing, hoperand]
  | some bound =>
      have hkind : ScalarKind.of? operand ≠ none := by
        cases operand <;> simp [Bound.of?, Value.number?] at hoperand <;> simp [ScalarKind.of?]
      rw [Admits, acceptsLeaf_iff h]
      simp [comparing, hoperand, ofField, hkind, contains_field]

-- The texts behind one that is to be skipped are those that are greater.
theorem contains_skipping {range : KeyRange} {next key : Bytes}
    [Decidable (range.start < next)] :
    (if range.start < next then (⟨next, range.stop⟩ : KeyRange) else range).contains key = true ↔
      range.contains key = true ∧ next ≤ key := by
  split
  · next hlt =>
    simp only [KeyRange.contains_iff]
    constructor
    · rintro ⟨hnext, hstop⟩
      exact ⟨⟨Std.le_trans (Std.le_of_lt hlt) hnext, hstop⟩, hnext⟩
    · rintro ⟨⟨-, hstop⟩, hnext⟩
      exact ⟨hnext, hstop⟩
  · next hge =>
    refine (and_iff_left_of_imp fun h => ?_).symm
    exact Std.le_trans (Std.not_lt.mp hge) ((KeyRange.contains_iff _ _).mp h).1

theorem contains_start (model path start t id : String) :
    (KeyRange.ofPrefix (Key.field model path ++ Bytes.ofString start)).contains
        (Key.entry model path (Bytes.ofString t) id) = true ↔
      Bytes.ofString start <+: Bytes.ofString t := by
  have hentry : Key.entry model path (Bytes.ofString t) id =
      Key.field model path ++ (Bytes.ofString t ++ Key.separator :: Bytes.ofString id) := by
    simp [Key.entry, Key.fieldValue]
  rw [KeyRange.contains_ofPrefix, hentry, List.prefix_append_right_inj,
    Bytes.prefix_closed_iff (Bytes.separator_notMem start)]

theorem afterPrefix_fieldValue_le_iff (model path k t id : String) :
    Bytes.afterPrefix (Key.fieldValue model path (Bytes.ofString k)) ≤
        Key.entry model path (Bytes.ofString t) id ↔
      Bytes.ofString k ++ [Key.separator] < Bytes.ofString t ++ [Key.separator] := by
  have hentry : Key.entry model path (Bytes.ofString t) id =
      Key.field model path ++ (Bytes.ofString t ++ Key.separator :: Bytes.ofString id) := by
    simp [Key.entry, Key.fieldValue]
  have hvalue : Key.fieldValue model path (Bytes.ofString k) =
      Key.field model path ++ (Bytes.ofString k ++ [Key.separator]) := by
    simp [Key.fieldValue]
  have hbound : Bytes.afterPrefix (Key.fieldValue model path (Bytes.ofString k)) ≠ [] :=
    Bytes.afterPrefix_ne_nil (by decide)
  rw [Bytes.afterPrefix_le_iff hbound, hentry, hvalue, Bytes.append_lt_append_iff,
    List.prefix_append_right_inj]
  exact Bytes.closed_lt_iff (Bytes.separator_notMem k) (Bytes.separator_notMem t) _

theorem skipping_text (plan : Plan) (k : String) : plan.skipping (.string k) =
    { plan with
      range :=
        let next := Bytes.afterPrefix (Key.fieldValue plan.model plan.path (Bytes.ofString k))
        if plan.range.start < next then ⟨next, plan.range.stop⟩ else plan.range } := by
  simp only [skipping, Bound.of?]
  split <;> rfl

theorem kind_startingWith (plan : Plan) (start : String) (skip : Option Value) :
    (plan.startingWith start skip).kind = some .text := by
  simp only [startingWith]
  split
  · simp only [skipping]
    split
    · split <;> rfl
    · rfl
  · rfl

theorem admits_startingWith (h : Key.encode? v = some encoded) (start : String)
    (skip : Option Value) : ((ofField model path).startingWith start skip).Admits id v ↔
      ∃ t, v = .string t ∧ Bytes.ofString start <+: Bytes.ofString t ∧
        ∀ operand, skip = some operand → ∃ k, operand = .string k ∧
          Bytes.ofString k ++ [Key.separator] < Bytes.ofString t ++ [Key.separator] := by
  by_cases htext : ∃ t, v = .string t
  · obtain ⟨t, rfl⟩ := htext
    obtain rfl : encoded = Bytes.ofString t := by
      simpa using Key.encode?_cases h
    have hkind : ScalarKind.of? (.string t) = some .text := rfl
    cases skip with
    | none =>
        rw [Admits, acceptsLeaf_iff h]
        simp [startingWith, ofField, hkind, contains_start, Comparison.admits]
    | some operand =>
        by_cases hskip : ∃ k, operand = .string k
        · obtain ⟨k, rfl⟩ := hskip
          rw [Admits, acceptsLeaf_iff h]
          simp only [startingWith, skipping_text, contains_skipping]
          simp [ofField, hkind, contains_start, afterPrefix_fieldValue_le_iff, Comparison.admits]
        · have hvoid : ((ofField model path).startingWith start (some operand)).isVoid = true := by
            cases operand <;> simp [startingWith, skipping, Bound.of?, Value.number?] at hskip ⊢
          constructor
          · rintro ⟨hv, -⟩
            rw [hvoid] at hv
            cases hv
          · rintro ⟨t', -, -, hall⟩
            obtain ⟨k, hk, -⟩ := hall operand rfl
            exact absurd ⟨k, hk⟩ hskip
  · have hkind : ScalarKind.of? v ≠ some .text := by
      cases v <;> simp [ScalarKind.of?] at htext ⊢
    constructor
    · rintro ⟨-, hleaf⟩
      have hv := ((acceptsLeaf_iff h).mp hleaf).1
      simp [kind_startingWith, hkind] at hv
    · rintro ⟨t, rfl, -⟩
      exact absurd ⟨t, rfl⟩ htext

end Operators

-- What a plan asks for is what the filter does.
theorem admits_ofFilter (hf : f.WellFormed) (h : Key.encode? v = some encoded) :
    (ofFilter model f).Admits id v ↔ f.Admits v := by
  have hvoid : (ofFilter model f).Admits id v ↔
      ((ofField model (indexPath f.key)).ofOperator f).Admits id v := by
    have hleaf : (ofFilter model f).acceptsLeaf id v =
        ((ofField model (indexPath f.key)).ofOperator f).acceptsLeaf id v := rfl
    rw [Admits, Admits, hleaf]
    refine and_congr_left (fun hv => ?_)
    have hin := ((acceptsLeaf_iff h).mp hv).2.1
    simp [ofFilter, KeyRange.not_isInverted hin]
  rw [hvoid, Filter.admits_iff]
  obtain ⟨hcount, hskip, hstart⟩ := hf
  obtain ⟨key, equal, greater, less, start, skip⟩ := f
  simp only [Filter.operatorCount] at hcount hskip hstart
  cases equal with
  | some operand =>
      cases greater <;> cases less <;> cases start <;> simp at hcount
      simpa [ofOperator] using admits_equalTo h operand
  | none =>
      cases start with
      | some operand =>
          obtain ⟨s, rfl⟩ := hstart _ rfl
          cases greater <;> cases less <;> simp at hcount
          simpa [ofOperator] using admits_startingWith h s skip
      | none =>
          cases greater with
          | some operand =>
              cases less <;> simp at hcount
              simpa [ofOperator] using
                (admits_comparing h .above operand).trans (Bound.isBelow_iff h)
          | none =>
              cases less with
              | some operand =>
                  simpa [ofOperator] using
                    (admits_comparing h .below operand).trans (Bound.isAbove_iff h)
              | none => simpa [ofOperator] using admits_ofField h

theorem names_skipping (plan : Plan) (skip : Value) :
    (plan.skipping skip).model = plan.model ∧ (plan.skipping skip).path = plan.path := by
  unfold skipping
  split
  · simp only
    split <;> exact ⟨rfl, rfl⟩
  · exact ⟨rfl, rfl⟩

theorem names_ofFilter (model : String) (f : Filter) :
    (ofFilter model f).model = model ∧ (ofFilter model f).path = indexPath f.key := by
  simp only [ofFilter, ofOperator]
  split
  · simp only [equalTo]
    split <;> exact ⟨rfl, rfl⟩
  · simp only [startingWith]
    split
    · exact names_skipping _ _
    · exact ⟨rfl, rfl⟩
  · simp only [comparing]
    split <;> exact ⟨rfl, rfl⟩
  · simp only [comparing]
    split <;> exact ⟨rfl, rfl⟩
  · exact ⟨rfl, rfl⟩

-- The check of a document answers the filter.
theorem acceptsDocument_iff (hf : f.WellFormed) (doc : Document) :
    (ofFilter model f).acceptsDocument doc = true ↔ f.Matches doc := by
  have hleaf : ∀ v ∈ IndexEntry.leavesAt doc.val (indexPath f.key),
      (ofFilter model f).Admits doc.id v ↔ f.Admits v := by
    intro v hv
    obtain ⟨encoded, hencoded⟩ := Option.isSome_iff_exists.mp (IndexEntry.mem_leavesAt.mp hv).2
    exact admits_ofFilter hf hencoded
  rw [acceptsDocument, (names_ofFilter model f).2]
  simp only [Bool.and_eq_true, Bool.not_eq_true', List.any_eq_true]
  constructor
  · rintro ⟨hvoid, v, hv, haccepts⟩
    exact ⟨v, hv, (hleaf v hv).mp ⟨hvoid, haccepts⟩⟩
  · rintro ⟨v, hv, hadmits⟩
    obtain ⟨hvoid, haccepts⟩ := (hleaf v hv).mpr hadmits
    exact ⟨hvoid, v, hv, haccepts⟩

end Plan

end DocStore
