import DocStore.Schema

-- The check of a body against a schema. It tells no difference between bodies that are equal as
-- documents compare them.
namespace DocStore

namespace Value

variable {a b : Value} {as bs : Fields}

theorem admits_congr (h : a.equals b = true) (type : Primitive) :
    type.admits a = type.admits b := by
  cases a <;> cases b <;> simp only [equals, Bool.false_eq_true] at h <;> cases type <;> rfl

theorem typeName_congr (h : a.equals b = true) : a.typeName = b.typeName := by
  cases a <;> cases b <;> simp only [equals, Bool.false_eq_true] at h <;> rfl

theorem isNull_congr (h : a.equals b = true) : a.isNull = b.isNull := by
  cases a <;> cases b <;> simp only [equals, Bool.false_eq_true] at h <;> rfl

-- Fields that are equal have the same names, and equal values under each of them.
theorem get?_congr (h : equalFields as bs = true) (name : String) :
    Option.Rel (fun a b => a.equals b = true) (Assoc.get? name as) (Assoc.get? name bs) := by
  induction as generalizing bs with
  | nil =>
      cases bs with
      | nil => exact .none
      | cons b bs => simp [equalFields] at h
  | cons a as ih =>
      cases bs with
      | nil => simp [equalFields] at h
      | cons b bs =>
          simp only [equalFields, Bool.and_eq_true, beq_iff_eq] at h
          obtain ⟨⟨hname, hvalue⟩, hrest⟩ := h
          simp only [Assoc.get?, hname]
          split
          · exact .some hvalue
          · exact ih hrest

end Value

namespace Field

theorem unknown?_congr (fields : List (String × Field)) {as bs : Fields}
    (h : Value.equalFields as bs = true) : unknown? fields as = unknown? fields bs := by
  induction as generalizing bs with
  | nil =>
      cases bs with
      | nil => rfl
      | cons b bs => simp [Value.equalFields] at h
  | cons a as ih =>
      cases bs with
      | nil => simp [Value.equalFields] at h
      | cons b bs =>
          simp only [Value.equalFields, Bool.and_eq_true, beq_iff_eq] at h
          obtain ⟨⟨hname, -⟩, hrest⟩ := h
          have hlater := ih hrest
          simp only [unknown?, List.find?_cons, hname] at hlater ⊢
          split
          · simp [hname]
          · exact hlater

theorem checkEach_congr {check : Nat → Value → Except SchemaFault Unit}
    (hcheck : ∀ index a b, a.equals b = true → check index a = check index b) {as bs : List Value}
    (h : Value.equalItems as bs = true) (index : Nat) :
    checkEach check index as = checkEach check index bs := by
  induction as generalizing bs index with
  | nil =>
      cases bs with
      | nil => rfl
      | cons b bs => simp [Value.equalItems] at h
  | cons a as ih =>
      cases bs with
      | nil => simp [Value.equalItems] at h
      | cons b bs =>
          simp only [Value.equalItems, Bool.and_eq_true] at h
          simp only [checkEach, hcheck index a b h.1, ih h.2]

mutual

theorem check_congr (path : String) (field : Field) {a b : Value} (h : a.equals b = true) :
    check path field a = check path field b := by
  cases field with
  | primitive type optional =>
      simp only [check, Value.isNull_congr h, Value.admits_congr h, Value.typeName_congr h]
  | object fields =>
      cases a <;> cases b <;> simp only [Value.equals, Bool.false_eq_true] at h
      case object.object as bs =>
        simp only [check, unknown?_congr fields h, checkFields_congr path fields h]
      all_goals rfl
  | list item =>
      cases a <;> cases b <;> simp only [Value.equals, Bool.false_eq_true] at h
      case array.array as bs =>
        simp only [check]
        refine checkEach_congr (fun index _ _ heq => ?_) h 0
        exact check_congr (path ++ "/" ++ toString index) item heq
      all_goals rfl

theorem checkFields_congr (path : String) (fields : List (String × Field)) {as bs : Fields}
    (h : Value.equalFields as bs = true) :
    checkFields path fields as = checkFields path fields bs := by
  match fields with
  | [] => rfl
  | (name, field) :: rest =>
      have hrest := checkFields_congr path rest h
      have hget := Value.get?_congr h name
      simp only [checkFields]
      generalize Assoc.get? name as = a at hget
      generalize Assoc.get? name bs = b at hget
      cases hget with
      | none => simp only [hrest]
      | some heq => simp only [hrest, check_congr _ field heq]

end

end Field

theorem Schema.validate_congr (schema : Schema) {a b : Value} (h : a.equals b = true) :
    schema.validate a = schema.validate b := Field.check_congr _ _ h

end DocStore
