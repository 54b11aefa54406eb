import Mathlib
import DocStore.Proofs.SortedMap
import DocStore.Schema

-- What the specs of schemas mean, told of the specs themselves: which of them can be compiled, and
-- which bodies conform to them.
namespace DocStore

namespace Spec

def typeNames : List String :=
  ["string", "int", "float", "number", "bool", "any", "object", "array"]

-- The values of each named type. A whole number is a float, too, and a null is only anything.
inductive OfType : String → Value → Prop where
  | string (s : String) : OfType "string" (.string s)
  | int (n : Int64) : OfType "int" (.int n)
  | floatInt (n : Int64) : OfType "float" (.int n)
  | float (x : Double) : OfType "float" (.float x)
  | numberInt (n : Int64) : OfType "number" (.int n)
  | number (x : Double) : OfType "number" (.float x)
  | bool (b : Bool) : OfType "bool" (.bool b)
  | any (v : Value) : OfType "any" v
  | object (fields : Fields) : OfType "object" (.object fields)
  | array (items : List Value) : OfType "array" (.array items)

-- The specs of fields: a type name with or without one mark behind it, an object of such specs, or
-- one of them in a list.
inductive OfField : Value → Prop where
  | type {name : String} : name ∈ typeNames → OfField (.string name)
  | optional {name : String} : name ∈ typeNames → OfField (.string (name ++ "?"))
  | object {specs : Fields} : (∀ e ∈ specs, OfField e.2) → OfField (.object specs)
  | list {item : Value} : OfField item → OfField (.array [item])

def IsOptional (spec : Value) : Prop := ∃ name ∈ typeNames, spec = .string (name ++ "?")

-- A value that is as a spec says.
inductive Conforms : Value → Value → Prop where
  | type {name : String} {v : Value} : OfType name v → Conforms (.string name) v
  | optional {name : String} {v : Value} : OfType name v → Conforms (.string (name ++ "?")) v
  | null {name : String} : name ∈ typeNames → Conforms (.string (name ++ "?")) .null
  | object {specs body : Fields} (declared : ∀ e ∈ body, e.1 ∈ specs.map (·.1))
      (present : ∀ e ∈ specs, ¬IsOptional e.2 → Assoc.get? e.1 body ≠ none)
      (conforming : ∀ e ∈ specs, ∀ v, Assoc.get? e.1 body = some v → Conforms e.2 v) :
      Conforms (.object specs) (.object body)
  | list {item : Value} {items : List Value} : (∀ v ∈ items, Conforms item v) →
      Conforms (.array [item]) (.array items)

-- The specs of whole bodies.
def OfBody (spec : Value) : Prop := ∃ specs, spec = .object specs ∧ OfField spec

end Spec

namespace Primitive

theorem ofName?_name (type : Primitive) : ofName? type.name = some type := by
  cases type <;> rfl

theorem name_of_ofName? {name : String} {type : Primitive} (h : ofName? name = some type) :
    type.name = name := by
  unfold ofName? at h
  split at h <;> cases h <;> rfl

theorem ofType_name_iff (type : Primitive) (v : Value) :
    Spec.OfType type.name v ↔ type.admits v = true := by
  constructor
  · intro h
    generalize hname : type.name = name at h
    have htype := ofName?_name type
    rw [hname] at htype
    cases h <;> cases htype <;> rfl
  · intro h
    unfold admits at h
    split at h
    case h_11 => cases h
    all_goals constructor

-- No type name ends in the mark.
theorem splitOptional_name (type : Primitive) : splitOptional type.name = (type.name, false) := by
  cases type <;> decide +kernel

end Primitive

theorem splitOptional_marked (name : String) : splitOptional (name ++ "?") = (name, true) := by
  have hmark : (name ++ "?").toList.reverse = '?' :: name.toList.reverse := by
    rw [String.toList_append, List.reverse_append]
    rfl
  simp only [splitOptional, hmark, List.reverse_reverse, String.ofList_toList]

theorem eq_or_marked_of_splitOptional {name base : String} {optional : Bool}
    (h : splitOptional name = (base, optional)) :
    name = if optional then base ++ "?" else base := by
  unfold splitOptional at h
  split at h
  · next rest hmark =>
    cases h
    have hname : name.toList = rest.reverse ++ ['?'] := by
      rw [← List.reverse_reverse name.toList, hmark, List.reverse_cons]
    rw [if_pos rfl, ← String.toList_inj, hname, String.toList_append, String.toList_ofList]
    rfl
  · cases h
    rfl

namespace Spec

variable {spec item v : Value} {specs body : Fields} {items : List Value} {field : Field}
  {fields : List (String × Field)}

section Names

theorem mem_typeNames_iff {name : String} :
    name ∈ typeNames ↔ ∃ type : Primitive, type.name = name := by
  constructor
  · intro h
    simp only [typeNames, List.mem_cons, List.not_mem_nil, or_false] at h
    obtain rfl | rfl | rfl | rfl | rfl | rfl | rfl | rfl := h
    · exact ⟨.string, rfl⟩
    · exact ⟨.int, rfl⟩
    · exact ⟨.float, rfl⟩
    · exact ⟨.number, rfl⟩
    · exact ⟨.bool, rfl⟩
    · exact ⟨.any, rfl⟩
    · exact ⟨.object, rfl⟩
    · exact ⟨.array, rfl⟩
  · rintro ⟨type, rfl⟩
    cases type <;> decide

theorem marked_inj {name other : String} (h : name ++ "?" = other ++ "?") : name = other := by
  have hsplit := splitOptional_marked name
  rw [h, splitOptional_marked] at hsplit
  exact (congrArg Prod.fst hsplit).symm

theorem name_ne_marked (type : Primitive) (name : String) : type.name ≠ name ++ "?" := by
  intro h
  have hsplit := type.splitOptional_name
  rw [h, splitOptional_marked] at hsplit
  exact Bool.noConfusion (Prod.mk.inj hsplit).2

theorem mem_typeNames_of_ofType {name : String} (h : OfType name v) : name ∈ typeNames := by
  cases h <;> decide

theorem conforms_name_iff (type : Primitive) :
    Conforms (.string type.name) v ↔ type.admits v = true := by
  rw [← type.ofType_name_iff]
  refine ⟨fun h => ?_, .type⟩
  generalize hspec : Value.string type.name = spec at h
  cases h with
  | type hv => cases hspec; exact hv
  | optional hv => exact absurd (Value.string.inj hspec) (name_ne_marked type _)
  | null hname => exact absurd (Value.string.inj hspec) (name_ne_marked type _)
  | object | list => cases hspec

theorem conforms_marked_iff (type : Primitive) :
    Conforms (.string (type.name ++ "?")) v ↔ v = .null ∨ type.admits v = true := by
  rw [← type.ofType_name_iff]
  constructor
  · intro h
    generalize hspec : Value.string (type.name ++ "?") = spec at h
    cases h with
    | @type name _ hv =>
        -- no type name ends in the mark
        obtain ⟨other, hother⟩ := mem_typeNames_iff.mp (mem_typeNames_of_ofType hv)
        rw [← Value.string.inj hspec] at hother
        exact absurd hother (name_ne_marked other _)
    | optional hv => exact .inr (marked_inj (Value.string.inj hspec) ▸ hv)
    | null hname => exact .inl rfl
    | object | list => cases hspec
  · rintro (rfl | hv)
    · exact .null (mem_typeNames_iff.mpr ⟨type, rfl⟩)
    · exact .optional hv

end Names

theorem check_then_iff {check rest : Except SchemaFault Unit} :
    (do check; rest) = .ok () ↔ check = .ok () ∧ rest = .ok () := by
  cases check with
  | error fault =>
      constructor
      · intro h
        cases h
      · rintro ⟨h, -⟩
        cases h
  | ok _ => exact (and_iff_right rfl).symm

-- A compiled field and the spec that it comes from.
structure Means (spec : Value) (field : Field) : Prop where
  compiles : ∀ path, Field.compile path spec = .ok field
  optional : field.isOptional = true ↔ IsOptional spec
  checks : ∀ path v, Field.check path field v = .ok () ↔ Conforms spec v

theorem means_name (type : Primitive) : Means (.string type.name) (.primitive type false) where
  compiles path := by
    simp only [Field.compile, type.splitOptional_name, type.ofName?_name]
  optional := by
    constructor
    · intro h
      cases h
    · rintro ⟨name, -, h⟩
      exact absurd (Value.string.inj h) (name_ne_marked type name)
  checks path v := by
    rw [conforms_name_iff, Field.check, Bool.and_false, Bool.false_or]
    split <;> simp_all

theorem means_marked (type : Primitive) :
    Means (.string (type.name ++ "?")) (.primitive type true) where
  compiles path := by
    simp only [Field.compile, splitOptional_marked, type.ofName?_name]
  optional := ⟨fun _ => ⟨type.name, mem_typeNames_iff.mpr ⟨type, rfl⟩, rfl⟩, fun _ => rfl⟩
  checks path v := by
    have hnull : v.isNull = true ↔ v = .null := by cases v <;> simp [Value.isNull]
    rw [conforms_marked_iff, ← hnull, ← Bool.or_eq_true, Field.check, Bool.and_true]
    split <;> simp_all

section Objects

-- Each spec of an object and its compiled field have one name.
def Matched (specs : Fields) (fields : List (String × Field)) : Prop :=
  List.Forall₂ (fun s f => f.1 = s.1 ∧ Means s.2 f.2) specs fields

theorem Matched.names_eq (h : Matched specs fields) : fields.map (·.1) = specs.map (·.1) := by
  induction h with
  | nil => rfl
  | cons hhead _ ih => rw [List.map_cons, List.map_cons, hhead.1, ih]

theorem Matched.compileFields (h : Matched specs fields) (path : String) :
    Field.compileFields path specs = .ok fields := by
  induction h with
  | nil => rfl
  | @cons s f specs fields hhead _ ih =>
      obtain ⟨name, spec⟩ := s
      obtain ⟨_, field⟩ := f
      obtain ⟨rfl, hmeans⟩ := hhead
      simp only [Field.compileFields, hmeans.compiles, ih]
      rfl

theorem exists_matched (h : ∀ e ∈ specs, ∃ field, Means e.2 field) :
    ∃ fields, Matched specs fields := by
  induction specs with
  | nil => exact ⟨[], .nil⟩
  | cons s specs ih =>
      obtain ⟨hhead, hrest⟩ := List.forall_mem_cons.mp h
      obtain ⟨field, hfield⟩ := hhead
      obtain ⟨fields, hfields⟩ := ih hrest
      exact ⟨(s.1, field) :: fields, .cons ⟨rfl, hfield⟩ hfields⟩

-- What a check demands of a declared field.
def Holds (body : Fields) (name : String) (spec : Value) : Prop :=
  (¬IsOptional spec → Assoc.get? name body ≠ none) ∧
    ∀ v, Assoc.get? name body = some v → Conforms spec v

theorem Matched.checkFields_iff (h : Matched specs fields) (path : String) :
    Field.checkFields path fields body = .ok () ↔ ∀ e ∈ specs, Holds body e.1 e.2 := by
  induction h with
  | nil => simp [Field.checkFields]
  | @cons s f specs fields hhead _ ih =>
      obtain ⟨name, spec⟩ := s
      obtain ⟨_, field⟩ := f
      obtain ⟨rfl, hmeans⟩ := hhead
      have hoptional : field.isOptional = true ↔ IsOptional spec := hmeans.optional
      rw [List.forall_mem_cons, ← ih, Holds, Field.checkFields]
      generalize Assoc.get? _ body = found
      cases found with
      | none => by_cases h : field.isOptional = true <;> simp [← hoptional, h]
      | some v => simp [check_then_iff, hmeans.checks]

theorem unknown?_eq_none_iff :
    Field.unknown? fields body = none ↔ ∀ e ∈ body, e.1 ∈ fields.map (·.1) := by
  simp only [Field.unknown?, Option.map_eq_none_iff, List.find?_eq_none,
    Option.isNone_iff_eq_none, Assoc.get?_eq_none_iff, not_not]

theorem conforms_object_iff : Conforms (.object specs) (.object body) ↔
    (∀ e ∈ body, e.1 ∈ specs.map (·.1)) ∧ ∀ e ∈ specs, Holds body e.1 e.2 := by
  constructor
  · rintro (_ | _ | _ | ⟨hdeclared, hpresent, hconforming⟩ | _)
    exact ⟨hdeclared, fun e he => ⟨hpresent e he, hconforming e he⟩⟩
  · rintro ⟨hdeclared, hholds⟩
    exact .object hdeclared (fun e he => (hholds e he).1) (fun e he => (hholds e he).2)

theorem means_object (h : Matched specs fields) : Means (.object specs) (.object fields) where
  compiles path := by
    rw [Field.compile, h.compileFields]
    rfl
  optional := by
    constructor
    · intro h
      cases h
    · rintro ⟨_, -, h⟩
      cases h
  checks path v := by
    cases v with
    | object body =>
        rw [conforms_object_iff, ← h.names_eq, ← unknown?_eq_none_iff, ← h.checkFields_iff path,
          Field.check]
        cases Field.unknown? fields body with
        | none => simp
        | some name => simp
    | _ => constructor <;> intro h <;> cases h

end Objects

section Lists

theorem checkEach_iff {check : Nat → Value → Except SchemaFault Unit} {good : Value → Prop}
    (hcheck : ∀ index v, check index v = .ok () ↔ good v) (index : Nat) :
    Field.checkEach check index items = .ok () ↔ ∀ v ∈ items, good v := by
  induction items generalizing index with
  | nil => simp [Field.checkEach]
  | cons v items ih => rw [Field.checkEach, check_then_iff, hcheck, ih, List.forall_mem_cons]

theorem means_list (h : Means item field) : Means (.array [item]) (.list field) where
  compiles path := by
    rw [Field.compile, Field.compileItem, h.compiles]
    rfl
  optional := by
    constructor
    · intro h
      cases h
    · rintro ⟨_, -, h⟩
      cases h
  checks path v := by
    cases v with
    | array items =>
        rw [Field.check, checkEach_iff fun index v => h.checks _ v]
        refine ⟨.list, fun h => ?_⟩
        cases h with
        | list hitems => exact hitems
    | _ => constructor <;> intro h <;> cases h

end Lists

-- What is a spec is compiled, and is checked as it says.
theorem OfField.means (h : OfField spec) : ∃ field, Means spec field := by
  induction h with
  | type hname =>
      obtain ⟨type, rfl⟩ := mem_typeNames_iff.mp hname
      exact ⟨_, means_name type⟩
  | optional hname =>
      obtain ⟨type, rfl⟩ := mem_typeNames_iff.mp hname
      exact ⟨_, means_marked type⟩
  | object _ ih =>
      obtain ⟨fields, hfields⟩ := exists_matched ih
      exact ⟨_, means_object hfields⟩
  | list _ ih =>
      obtain ⟨field, hfield⟩ := ih
      exact ⟨_, means_list hfield⟩

mutual

-- Nothing else is compiled.
theorem ofField_of_compile {path : String} {spec : Value} {field : Field}
    (h : Field.compile path spec = .ok field) : OfField spec := by
  match spec with
  | .string name =>
      rw [Field.compile] at h
      rcases hsplit : splitOptional name with ⟨base, optional⟩
      simp only [hsplit] at h
      cases htype : Primitive.ofName? base with
      | none => simp [htype] at h
      | some type =>
          have hbase := mem_typeNames_iff.mpr ⟨type, Primitive.name_of_ofName? htype⟩
          rw [eq_or_marked_of_splitOptional hsplit]
          cases optional with
          | true => exact .optional hbase
          | false => exact .type hbase
  | .object specs =>
      rw [Field.compile] at h
      cases hspecs : Field.compileFields path specs with
      | error fault => simp [hspecs, Except.map] at h
      | ok fields => exact .object (ofField_of_compileFields hspecs)
  | .array [item] =>
      rw [Field.compile, Field.compileItem] at h
      cases hitem : Field.compile (path ++ "/0") item with
      | error fault => simp [hitem, Except.map] at h
      | ok field => exact .list (ofField_of_compile hitem)
  | .array [] | .array (_ :: _ :: _) | .null | .bool _ | .int _ | .float _ => cases h

theorem ofField_of_compileFields {path : String} {specs : Fields} {fields : List (String × Field)}
    (h : Field.compileFields path specs = .ok fields) : ∀ e ∈ specs, OfField e.2 := by
  match specs with
  | [] => simp
  | (name, spec) :: rest =>
      simp only [Field.compileFields, bind, Except.bind] at h
      cases hspec : Field.compile (path ++ "/" ++ name) spec with
      | error fault => simp [hspec] at h
      | ok field =>
          cases hrest : Field.compileFields path rest with
          | error fault => simp [hspec, hrest] at h
          | ok fields =>
              exact List.forall_mem_cons.mpr
                ⟨ofField_of_compile hspec, ofField_of_compileFields hrest⟩

end

end Spec

namespace Schema

section Compiling

variable {spec : Value} {schema : Schema}

-- A schema is the object that its spec is compiled to as a field.
theorem compile_eq_ok_iff : compile spec = .ok schema ↔
    (∃ specs, spec = .object specs) ∧
      Field.compile "/val/schema" spec = .ok (.object schema.fields) := by
  cases spec with
  | object specs =>
      rw [compile, Field.compile]
      cases Field.compileFields "/val/schema" specs with
      | error fault =>
          constructor
          · intro h
            cases h
          · rintro ⟨-, h⟩
            cases h
      | ok fields =>
          constructor
          · intro h
            cases h
            exact ⟨⟨specs, rfl⟩, rfl⟩
          · rintro ⟨-, h⟩
            cases h
            rfl
  | _ =>
      constructor
      · intro h
        cases h
      · rintro ⟨⟨_, h⟩, -⟩
        cases h

-- What an object is compiled to is a schema.
theorem exists_schema {specs : Fields} {field : Field}
    (h : Field.compile "/val/schema" (.object specs) = .ok field) :
    ∃ schema : Schema, field = .object schema.fields := by
  rw [Field.compile] at h
  cases hspecs : Field.compileFields "/val/schema" specs with
  | error fault => simp [hspecs, Except.map] at h
  | ok fields =>
      rw [hspecs] at h
      exact ⟨⟨fields⟩, (Except.ok.inj h).symm⟩

end Compiling

-- Exactly the specs of bodies can be compiled, and exactly what conforms to one is accepted.
theorem accepts_iff_conforms (spec : Value) :
    ((∃ schema, compile spec = .ok schema) ↔ Spec.OfBody spec) ∧
      ∀ schema, compile spec = .ok schema →
        ∀ val, schema.validate val = .ok () ↔ Spec.Conforms spec val := by
  refine ⟨⟨?_, ?_⟩, ?_⟩
  · rintro ⟨schema, h⟩
    obtain ⟨⟨specs, rfl⟩, hfield⟩ := compile_eq_ok_iff.mp h
    exact ⟨specs, rfl, Spec.ofField_of_compile hfield⟩
  · rintro ⟨specs, rfl, h⟩
    obtain ⟨field, hmeans⟩ := h.means
    obtain ⟨schema, rfl⟩ := exists_schema (hmeans.compiles _)
    exact ⟨schema, compile_eq_ok_iff.mpr ⟨⟨specs, rfl⟩, hmeans.compiles _⟩⟩
  · intro schema h val
    obtain ⟨-, hfield⟩ := compile_eq_ok_iff.mp h
    obtain ⟨field, hmeans⟩ := (Spec.ofField_of_compile hfield).means
    obtain rfl : field = .object schema.fields :=
      Except.ok.inj ((hmeans.compiles _).symm.trans hfield)
    exact hmeans.checks "/val" val

namespace Catalogue

def spec : Value := .object [
  ("author", .object [("born", .string "int?"), ("name", .string "string")]),
  ("meta", .string "any"),
  ("ratings", .array [.string "number?"])]

def schema : Schema := ⟨[
  ("author", .object [("born", .primitive .int true), ("name", .primitive .string false)]),
  ("meta", .primitive .any false),
  ("ratings", .list (.primitive .number true))]⟩

def entry (author : Fields) : Value := .object [
  ("author", .object author),
  ("meta", .null),
  ("ratings", .array [.int 5, .null])]

end Catalogue

-- A null is fine for what may be left out and for anything, and nobody goes without a name.
theorem accepts_iff_conforms_of_catalogue :
    compile Catalogue.spec = .ok Catalogue.schema ∧ Spec.OfBody Catalogue.spec ∧
      Spec.Conforms Catalogue.spec (Catalogue.entry [("name", .string "Herbert")]) ∧
      ¬Spec.Conforms Catalogue.spec (Catalogue.entry [("born", .int 1920)]) := by
  have hcompile : compile Catalogue.spec = .ok Catalogue.schema := by cbv
  obtain ⟨hbody, haccepts⟩ := accepts_iff_conforms Catalogue.spec
  refine ⟨hcompile, hbody.mp ⟨_, hcompile⟩, ?_, ?_⟩
  · exact (haccepts _ hcompile _).mp (by decide +kernel)
  · rw [← haccepts _ hcompile]
    decide +kernel

end Schema

end DocStore
