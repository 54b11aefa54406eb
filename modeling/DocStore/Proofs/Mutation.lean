import Mathlib.Data.List.Basic
import DocStore.Mutation
import DocStore.Proofs.SortedMap

-- The changes of a patch do not get in each other's way, and on integers they are exact.
namespace DocStore

namespace MutationOp

-- What an operation gives on integers. A quotient leaves a rest that is smaller than the divisor,
-- and on the same side of zero as the dividend.
def Gives (op : MutationOp) (current operand result : Int) : Prop :=
  match op with
  | .add => result = current + operand
  | .sub => result + operand = current
  | .mul => result = current * operand
  | .div => operand ≠ 0 ∧ ∃ rest, rest + operand * result = current ∧
      rest.natAbs < operand.natAbs ∧ (0 ≤ current → 0 ≤ rest) ∧ (current ≤ 0 → rest ≤ 0)
  | .min => (result = current ∨ result = operand) ∧ result ≤ current ∧ result ≤ operand
  | .max => (result = current ∨ result = operand) ∧ current ≤ result ∧ operand ≤ result
  | .set => result = operand

variable {op : MutationOp} {field : String} {a b n : Int}

theorem tdiv_eq_iff (hb : b ≠ 0) : a.tdiv b = n ↔
    ∃ rest, rest + b * n = a ∧ rest.natAbs < b.natAbs ∧
      (0 ≤ a → 0 ≤ rest) ∧ (a ≤ 0 → rest ≤ 0) := by
  rcases Int.le_total 0 a with ha | ha
  · constructor
    · intro hn
      obtain ⟨hsum, hnonneg, hlt⟩ := (Int.tdiv_tmod_unique ha hb).mp ⟨hn, rfl⟩
      refine ⟨a.tmod b, hsum, by omega, fun _ => hnonneg, fun hle => ?_⟩
      have hzero : a = 0 := Int.le_antisymm hle ha
      simp [hzero]
    · rintro ⟨rest, hsum, hlt, hnonneg, -⟩
      have hrest : 0 ≤ rest := hnonneg ha
      exact ((Int.tdiv_tmod_unique ha hb).mpr ⟨hsum, hrest, by omega⟩).1
  · constructor
    · intro hn
      obtain ⟨hsum, hlt, hnonpos⟩ := (Int.tdiv_tmod_unique' ha hb).mp ⟨hn, rfl⟩
      refine ⟨a.tmod b, hsum, by omega, fun hle => ?_, fun _ => hnonpos⟩
      have hzero : a = 0 := Int.le_antisymm ha hle
      simp [hzero]
    · rintro ⟨rest, hsum, hlt, -, hnonpos⟩
      have hrest : rest ≤ 0 := hnonpos ha
      exact ((Int.tdiv_tmod_unique' ha hb).mpr ⟨hsum, by omega, hrest⟩).1

theorem onIntegers_eq_some_iff : op.onIntegers a b = some n ↔ op.Gives a b n := by
  cases op with
  | div =>
      by_cases hb : b = 0
      · simp [onIntegers, Gives, hb]
      · simp only [onIntegers, Gives, hb, if_false, Option.some.injEq, ne_eq, not_false_eq_true,
          true_and]
        exact tdiv_eq_iff hb
  | add | sub | mul | min | max | set =>
      simp only [onIntegers, Gives, Option.some.injEq]
      omega

-- The result on two integers of 64 bits is exact, and it is there whenever it fits 64 bits.
theorem applyInt_eq_ok_iff (field : String) {current operand result : Int64} :
    op.applyInt field current operand = .ok result ↔
      op.Gives current.toInt operand.toInt result.toInt := by
  rw [← onIntegers_eq_some_iff, applyInt]
  cases op.onIntegers current.toInt operand.toInt with
  | none => simp
  | some n =>
      have hlow := result.le_toInt
      have hhigh := result.toInt_lt
      simp only [Option.some.injEq]
      split
      · next hfits =>
        simp only [Word.isSigned, Bool.and_eq_true, decide_eq_true_eq] at hfits
        rw [Except.ok.injEq, ← Int64.toInt_inj, Int64.toInt_ofInt_of_le (by omega) (by omega)]
      · next hfits =>
        simp only [Word.isSigned, Bool.and_eq_true, decide_eq_true_eq] at hfits
        simp only [reduceCtorEq, false_iff]
        omega

theorem apply_int_eq_ok_iff {current : Option Value} {a b : Int64} {value : Value}
    (hcurrent : current.getD (.int 0) = .int a) :
    op.apply field current (.int b) = .ok value ↔
      ∃ result : Int64, value = .int result ∧ op.Gives a.toInt b.toInt result.toInt := by
  by_cases hset : op = .set
  · subst hset
    simp [apply, Gives, Int64.toInt_inj, eq_comm]
  · simp only [apply, hset, if_false, Value.isNumber, Bool.not_true, Bool.false_eq_true, hcurrent,
      ← applyInt_eq_ok_iff field]
    cases op.applyInt field a b with
    | error fault => simp [Except.map]
    | ok result => simp [Except.map, eq_comm]

end MutationOp

-- Of two maps that have no key in common, each keeps all that it has.
theorem SortedMap.mem_insertAll_iff {κ α : Type} [LT κ] [DecidableEq κ] [LE κ] [DecidableLT κ]
    [Std.IsLinearOrder κ] [Std.LawfulOrderLT κ] {m₁ m₂ : SortedMap κ α}
    (hapart : ∀ key ∈ m₁.keys, key ∉ m₂.keys) (e : κ × α) :
    e ∈ (m₁.insertAll m₂.toList).toList ↔ e ∈ m₁.toList ∨ e ∈ m₂.toList := by
  obtain ⟨key, value⟩ := e
  rw [← get?_eq_some_iff]
  constructor
  · intro h
    exact (get?_insertAll_eq_some m₁ h).symm.imp_left (get?_eq_some_iff m₁).mp
  · rintro (hm | hm)
    · have hnot : key ∉ m₂.toList.map (·.1) := hapart key (List.mem_map_of_mem hm)
      rw [get?_insertAll_of_notMem m₁ hnot]
      exact (get?_eq_some_iff m₁).mpr hm
    · refine get?_insertAll_of_mem m₁ (List.mem_map_of_mem hm) (fun w hw heq => ?_)
      have hvalue := (get?_eq_some_iff m₂).mpr hm
      have hother := (get?_eq_some_iff m₂).mpr hw
      rw [heq, hvalue, Option.some.injEq] at hother
      exact hother.symm

namespace Mutation

open Assoc (Ascending get?)

variable {fields mutations out : Fields}

-- What becomes of a field, given what it was.
def outcome (field : String) (current : Option Value) (expr : Value) :
    Except MutationFault Value := do
  let (op, operand) ← parse field expr
  op.apply field current operand

theorem applyAll_cons (fields : Fields) (field : String) (expr : Value) (rest : Fields) :
    applyAll fields ((field, expr) :: rest) =
      (outcome field (get? field fields) expr).bind
        (fun value => applyAll (Assoc.insert field value fields) rest) := by
  simp only [applyAll, applyField, outcome, bind]
  cases parse field expr with
  | error fault => rfl
  | ok parsed =>
      obtain ⟨op, operand⟩ := parsed
      simp only [Except.bind]
      cases op.apply field (get? field fields) operand <;> rfl

-- Whatever a field is to become does not depend on the changes of other fields.
theorem outcome_insert {field : String} {value : Value} (hnot : field ∉ mutations.map (·.1))
    {e : String × Value} (he : e ∈ mutations) :
    outcome e.1 (get? e.1 (Assoc.insert field value fields)) e.2 =
      outcome e.1 (get? e.1 fields) e.2 := by
  have hne : field ≠ e.1 := fun heq => hnot (heq ▸ List.mem_map_of_mem he)
  rw [Assoc.get?_insert, if_neg hne]

-- The fields after a patch: those that it names became what they are to become, each by itself, and
-- the others are as before.
structure Patched (fields mutations out : Fields) : Prop where
  ascending : Ascending out
  changed : ∀ e ∈ mutations, ∃ value, outcome e.1 (get? e.1 fields) e.2 = .ok value ∧
    get? e.1 out = some value
  kept : ∀ field, field ∉ mutations.map (·.1) → get? field out = get? field fields

theorem Patched.nil (h : Ascending fields) : Patched fields [] fields where
  ascending := h
  changed := by simp
  kept _ _ := rfl

-- A patch that begins with a field changes this field first. That does not touch the other fields.
theorem Patched.cons {field : String} {expr value : Value} (hnot : field ∉ mutations.map (·.1))
    (hvalue : outcome field (get? field fields) expr = .ok value)
    (h : Patched (Assoc.insert field value fields) mutations out) :
    Patched fields ((field, expr) :: mutations) out where
  ascending := h.ascending
  changed e he := by
    rcases List.mem_cons.mp he with rfl | he
    · refine ⟨value, hvalue, ?_⟩
      rw [h.kept field hnot, Assoc.get?_insert, if_pos rfl]
    · rw [← outcome_insert hnot he]
      exact h.changed e he
  kept other hother := by
    rw [List.map_cons, List.mem_cons, not_or] at hother
    rw [h.kept other hother.2, Assoc.get?_insert, if_neg (Ne.symm hother.1)]

theorem patched_of_applyAll (hfields : Ascending fields) (hkeys : (mutations.map (·.1)).Nodup)
    (h : applyAll fields mutations = .ok out) : Patched fields mutations out := by
  induction mutations generalizing fields with
  | nil =>
      obtain rfl : fields = out := Except.ok.inj h
      exact .nil hfields
  | cons head rest ih =>
      obtain ⟨field, expr⟩ := head
      obtain ⟨hnot, hrest⟩ := List.nodup_cons.mp hkeys
      rw [applyAll_cons] at h
      cases hvalue : outcome field (get? field fields) expr with
      | error fault => simp [hvalue, Except.bind] at h
      | ok value =>
          rw [hvalue] at h
          exact .cons hnot hvalue (ih (Assoc.ascending_insert field value hfields) hrest h)

-- A patch succeeds if each of its fields can be changed.
theorem exists_applyAll (hkeys : (mutations.map (·.1)).Nodup)
    (h : ∀ e ∈ mutations, ∃ value, outcome e.1 (get? e.1 fields) e.2 = .ok value) :
    ∃ out, applyAll fields mutations = .ok out := by
  induction mutations generalizing fields with
  | nil => exact ⟨fields, rfl⟩
  | cons head rest ih =>
      obtain ⟨field, expr⟩ := head
      obtain ⟨hnot, hrest⟩ := List.nodup_cons.mp hkeys
      obtain ⟨value, hvalue⟩ := h (field, expr) List.mem_cons_self
      rw [applyAll_cons, hvalue]
      apply ih hrest
      intro e he
      rw [outcome_insert hnot he]
      exact h e (List.mem_cons_of_mem _ he)

namespace Patched

variable {first second both middle : Fields}

theorem unique {a b : Fields} (ha : Patched fields mutations a) (hb : Patched fields mutations b) :
    a = b := by
  refine Assoc.eq_of_get? ha.ascending hb.ascending (fun field => ?_)
  by_cases hm : field ∈ mutations.map (·.1)
  · obtain ⟨e, he, rfl⟩ := List.mem_map.mp hm
    obtain ⟨v, hv, hga⟩ := ha.changed e he
    obtain ⟨w, hw, hgb⟩ := hb.changed e he
    rw [hv, Except.ok.injEq] at hw
    rw [hga, hgb, hw]
  · rw [ha.kept field hm, hb.kept field hm]

-- A patch that is split in two by its fields comes to the same as the second part after the first.
theorem behind (hboth : ∀ e, e ∈ both ↔ e ∈ first ∨ e ∈ second)
    (hapart : ∀ field ∈ first.map (·.1), field ∉ second.map (·.1))
    (hmiddle : Patched fields first middle) (hout : Patched fields both out) :
    Patched middle second out where
  ascending := hout.ascending
  changed e he := by
    have hnot : e.1 ∉ first.map (·.1) := fun hm => hapart e.1 hm (List.mem_map_of_mem he)
    rw [hmiddle.kept e.1 hnot]
    exact hout.changed e ((hboth e).mpr (.inr he))
  kept field hsecond := by
    by_cases hfirst : field ∈ first.map (·.1)
    · obtain ⟨e, he, rfl⟩ := List.mem_map.mp hfirst
      obtain ⟨v, hv, hget⟩ := hout.changed e ((hboth e).mpr (.inl he))
      obtain ⟨w, hw, hgetw⟩ := hmiddle.changed e he
      rw [hv, Except.ok.injEq] at hw
      rw [hget, hgetw, hw]
    · have hnone : field ∉ both.map (·.1) := by
        intro hm
        obtain ⟨e, he, rfl⟩ := List.mem_map.mp hm
        rcases (hboth e).mp he with he | he
        · exact hfirst (List.mem_map_of_mem he)
        · exact hsecond (List.mem_map_of_mem he)
      rw [hout.kept field hnone, hmiddle.kept field hfirst]

end Patched

theorem applyAll_eq_ok_iff (hfields : Ascending fields) (hkeys : (mutations.map (·.1)).Nodup) :
    applyAll fields mutations = .ok out ↔ Patched fields mutations out := by
  refine ⟨patched_of_applyAll hfields hkeys, fun h => ?_⟩
  have hvalues : ∀ e ∈ mutations, ∃ value, outcome e.1 (get? e.1 fields) e.2 = .ok value := by
    intro e he
    obtain ⟨value, hvalue, -⟩ := h.changed e he
    exact ⟨value, hvalue⟩
  obtain ⟨out', hout'⟩ := exists_applyAll hkeys hvalues
  rw [hout', (patched_of_applyAll hfields hkeys hout').unique h]

-- The fields that a patch of a body starts from.
def fieldsOf? : Value → Option Fields
  | .object fields => some fields
  | .null => some []
  | _ => none

theorem get?_of_fieldsOf? {base : Value} (h : fieldsOf? base = some fields) (field : String) :
    base.get? field = get? field fields := by
  cases base with
  | object entries =>
      obtain rfl : entries = fields := Option.some.inj h
      rfl
  | null =>
      obtain rfl : [] = fields := Option.some.inj h
      rfl
  | bool | int | float | string | array => cases h

theorem apply_of_fieldsOf? {base : Value} (h : fieldsOf? base = some fields) (mutations : Fields) :
    apply base mutations = (applyAll fields mutations).map .object := by
  cases base with
  | object | null =>
      cases h
      rfl
  | bool | int | float | string | array => cases h

theorem ok_of_apply {base v : Value} (h : apply base mutations = .ok v) :
    ∃ fields out, fieldsOf? base = some fields ∧ applyAll fields mutations = .ok out ∧
      v = .object out := by
  have hmap : ∀ fields, (applyAll fields mutations).map Value.object = .ok v →
      ∃ out, applyAll fields mutations = .ok out ∧ v = .object out := by
    intro fields hall
    cases hout : applyAll fields mutations with
    | error fault => simp [hout, Except.map] at hall
    | ok out =>
        rw [hout] at hall
        exact ⟨out, rfl, (Except.ok.inj hall).symm⟩
  cases base with
  | object fields =>
      obtain ⟨out, hout, hv⟩ := hmap fields h
      exact ⟨fields, out, rfl, hout, hv⟩
  | null =>
      obtain ⟨out, hout, hv⟩ := hmap [] h
      exact ⟨[], out, rfl, hout, hv⟩
  | bool | int | float | string | array => cases h

section Body

variable {base v : Value} {first second both : Fields}

-- The fields of an object ascend by key.
variable (hbase : ∀ fields, base = .object fields → Ascending fields)

include hbase

theorem ascending_of_fieldsOf? (h : fieldsOf? base = some fields) : Ascending fields := by
  cases base with
  | object entries => exact hbase fields (congrArg _ (Option.some.inj h))
  | null =>
      obtain rfl : [] = fields := Option.some.inj h
      exact .nil
  | bool | int | float | string | array => cases h

theorem apply_eq_ok_iff (hkeys : (mutations.map (·.1)).Nodup) :
    apply base mutations = .ok v ↔
      ∃ fields out, fieldsOf? base = some fields ∧ Patched fields mutations out ∧
        v = .object out := by
  constructor
  · intro h
    obtain ⟨fields, out, hfields, hout, rfl⟩ := ok_of_apply h
    have hasc := ascending_of_fieldsOf? hbase hfields
    exact ⟨fields, out, hfields, patched_of_applyAll hasc hkeys hout, rfl⟩
  · rintro ⟨fields, out, hfields, hout, rfl⟩
    have hasc := ascending_of_fieldsOf? hbase hfields
    rw [apply_of_fieldsOf? hfields, (applyAll_eq_ok_iff hasc hkeys).mpr hout]
    rfl

theorem exists_apply_iff (hkeys : (mutations.map (·.1)).Nodup) :
    (∃ v, apply base mutations = .ok v) ↔ ∃ fields, fieldsOf? base = some fields ∧
      ∀ e ∈ mutations, ∃ value, outcome e.1 (get? e.1 fields) e.2 = .ok value := by
  constructor
  · rintro ⟨v, h⟩
    obtain ⟨fields, out, hfields, hout, rfl⟩ := (apply_eq_ok_iff hbase hkeys).mp h
    refine ⟨fields, hfields, fun e he => ?_⟩
    obtain ⟨value, hvalue, -⟩ := hout.changed e he
    exact ⟨value, hvalue⟩
  · rintro ⟨fields, hfields, hvalues⟩
    obtain ⟨out, hout⟩ := exists_applyAll hkeys hvalues
    refine ⟨.object out, ?_⟩
    rw [apply_of_fieldsOf? hfields, hout]
    rfl

theorem bind_apply (hfirst : (first.map (·.1)).Nodup) (hsecond : (second.map (·.1)).Nodup)
    (hkeys : (both.map (·.1)).Nodup) (hboth : ∀ e, e ∈ both ↔ e ∈ first ∨ e ∈ second)
    (hapart : ∀ field ∈ first.map (·.1), field ∉ second.map (·.1))
    (h : apply base both = .ok v) :
    (apply base first).bind (fun middle => apply middle second) = .ok v := by
  obtain ⟨fields, out, hfields, hout, rfl⟩ := (apply_eq_ok_iff hbase hkeys).mp h
  have hvalues : ∀ e ∈ first, ∃ value, outcome e.1 (get? e.1 fields) e.2 = .ok value := by
    intro e he
    obtain ⟨value, hvalue, -⟩ := hout.changed e ((hboth e).mpr (.inl he))
    exact ⟨value, hvalue⟩
  obtain ⟨middle, hmiddle⟩ := (exists_apply_iff hbase hfirst).mpr ⟨fields, hfields, hvalues⟩
  obtain ⟨fields', middle, hfields', hpatched, rfl⟩ := (apply_eq_ok_iff hbase hfirst).mp hmiddle
  obtain rfl : fields = fields' := Option.some.inj (hfields.symm.trans hfields')
  have hasc : ∀ entries, Value.object middle = .object entries → Ascending entries := by
    intro entries heq
    cases heq
    exact hpatched.ascending
  rw [hmiddle]
  exact (apply_eq_ok_iff hasc hsecond).mpr
    ⟨middle, out, rfl, hpatched.behind hboth hapart hout, rfl⟩

theorem get?_of_apply {field : String} (hkeys : (mutations.map (·.1)).Nodup)
    (h : apply base mutations = .ok v) (hnot : field ∉ mutations.map (·.1)) :
    v.get? field = base.get? field := by
  obtain ⟨fields, out, hfields, hout, rfl⟩ := (apply_eq_ok_iff hbase hkeys).mp h
  rw [get?_of_fieldsOf? hfields]
  exact hout.kept field hnot

-- An operation on two integers leaves the exact result in its field.
theorem exact_of_apply {field name : String} {op : MutationOp} {a b : Int64}
    (hkeys : (mutations.map (·.1)).Nodup) (hm : (field, .object [(name, .int b)]) ∈ mutations)
    (hname : MutationOp.ofName? name = some op)
    (hcurrent : (base.get? field).getD (.int 0) = .int a) (h : apply base mutations = .ok v) :
    ∃ result : Int64, v.get? field = some (.int result) ∧
      op.Gives a.toInt b.toInt result.toInt := by
  obtain ⟨fields, out, hfields, hout, rfl⟩ := (apply_eq_ok_iff hbase hkeys).mp h
  obtain ⟨value, hvalue, hget⟩ := hout.changed _ hm
  have hoperation : outcome field (get? field fields) (.object [(name, .int b)]) =
      op.apply field (get? field fields) (.int b) := by
    simp [outcome, parse, hname, bind, Except.bind]
  rw [get?_of_fieldsOf? hfields] at hcurrent
  rw [hoperation, MutationOp.apply_int_eq_ok_iff hcurrent] at hvalue
  obtain ⟨result, rfl, hgives⟩ := hvalue
  exact ⟨result, hget, hgives⟩

end Body

-- Two patches of different fields can be made if and only if both of them can be made together, and
-- then one after the other, in either order, comes to the same. A field that is in neither of them
-- stays. What an operation makes of two integers is exact, and where that has no place in 64 bits,
-- or there is no such number, the patch fails.
theorem patches_compose (base : Value) (m₁ m₂ : SortedMap String Value)
    (hbase : ∀ fields, base = .object fields → Ascending fields)
    (hapart : ∀ field ∈ m₁.keys, field ∉ m₂.keys) :
    let both := (m₁.insertAll m₂.toList).toList
    ((∃ v, apply base both = .ok v) ↔
        (∃ v, apply base m₁.toList = .ok v) ∧ ∃ v, apply base m₂.toList = .ok v) ∧
      (∀ v, apply base both = .ok v →
        (apply base m₁.toList).bind (fun middle => apply middle m₂.toList) = .ok v ∧
          (apply base m₂.toList).bind (fun middle => apply middle m₁.toList) = .ok v ∧
          ∀ field, field ∉ m₁.keys → field ∉ m₂.keys → v.get? field = base.get? field) ∧
      ∀ (field name : String) (op : MutationOp) (a b : Int64),
        (field, .object [(name, .int b)]) ∈ both → MutationOp.ofName? name = some op →
        (base.get? field).getD (.int 0) = .int a →
          (∀ value, op.apply field (base.get? field) (.int b) = .ok value ↔
            ∃ result : Int64, value = .int result ∧ op.Gives a.toInt b.toInt result.toInt) ∧
          (∀ v, apply base both = .ok v →
            ∃ result : Int64, v.get? field = some (.int result) ∧
              op.Gives a.toInt b.toInt result.toInt) ∧
          ((∀ n, op.Gives a.toInt b.toInt n →
              ¬(-0x8000000000000000 ≤ n ∧ n < 0x8000000000000000)) →
            ∃ fault, apply base both = .error fault) := by
  intro both
  have hfirst : (m₁.toList.map (·.1)).Nodup := m₁.nodup_keys
  have hsecond : (m₂.toList.map (·.1)).Nodup := m₂.nodup_keys
  have hkeys : (both.map (·.1)).Nodup := (m₁.insertAll m₂.toList).nodup_keys
  have hboth : ∀ e, e ∈ both ↔ e ∈ m₁.toList ∨ e ∈ m₂.toList := SortedMap.mem_insertAll_iff hapart
  have hapart' : ∀ field ∈ m₂.keys, field ∉ m₁.keys := fun field h₂ h₁ => hapart field h₁ h₂
  refine ⟨?_, fun v hv => ⟨?_, ?_, fun field h₁ h₂ => ?_⟩,
    fun field name op a b hm hname hcurrent => ?_⟩
  · rw [exists_apply_iff hbase hkeys, exists_apply_iff hbase hfirst, exists_apply_iff hbase hsecond]
    constructor
    · rintro ⟨fields, hfields, hvalues⟩
      exact ⟨⟨fields, hfields, fun e he => hvalues e ((hboth e).mpr (.inl he))⟩,
        ⟨fields, hfields, fun e he => hvalues e ((hboth e).mpr (.inr he))⟩⟩
    · rintro ⟨⟨fields, hfields, hvalues₁⟩, ⟨fields', hfields', hvalues₂⟩⟩
      obtain rfl : fields = fields' := Option.some.inj (hfields.symm.trans hfields')
      refine ⟨fields, hfields, fun e he => ?_⟩
      rcases (hboth e).mp he with he | he
      · exact hvalues₁ e he
      · exact hvalues₂ e he
  · exact bind_apply hbase hfirst hsecond hkeys hboth hapart hv
  · exact bind_apply hbase hsecond hfirst hkeys (fun e => (hboth e).trans or_comm) hapart' hv
  · refine get?_of_apply hbase hkeys hv (fun hm => ?_)
    obtain ⟨e, he, rfl⟩ := List.mem_map.mp hm
    rcases (hboth e).mp he with he | he
    · exact h₁ (List.mem_map_of_mem he)
    · exact h₂ (List.mem_map_of_mem he)
  · have hexact := fun v hv => exact_of_apply (v := v) hbase hkeys hm hname hcurrent hv
    refine ⟨fun value => MutationOp.apply_int_eq_ok_iff hcurrent, hexact, fun hout => ?_⟩
    cases hv : apply base both with
    | error fault => exact ⟨fault, rfl⟩
    | ok v =>
        obtain ⟨result, -, hgives⟩ := hexact v hv
        exact absurd ⟨result.le_toInt, result.toInt_lt⟩ (hout _ hgives)

-- The least number is cut to a third, and a field that is missing is counted up.
def lowest : Value := .object [("floor", .int Int64.minValue), ("name", .string "low")]

def thirding : SortedMap String Value := .ofList [("floor", .object [("div", .int 3)])]

def counting : SortedMap String Value := .ofList [("hits", .object [("+", .int 1)])]

-- It cannot be negated.
def negating : SortedMap String Value := .ofList [("floor", .object [("/", .int (-1))])]

theorem patches_compose_lowest :
    (apply lowest thirding.toList).bind (fun middle => apply middle counting.toList) =
        .ok (.object [("floor", .int (-3074457345618258602)), ("hits", .int 1),
          ("name", .string "low")]) ∧
      ∃ fault, apply lowest (negating.insertAll counting.toList).toList = .error fault := by
  have hbase : ∀ fields, lowest = .object fields → Ascending fields := by
    intro fields heq
    cases heq
    decide
  have hthird : ∀ field ∈ thirding.keys, field ∉ counting.keys := by decide
  have hnegate : ∀ field ∈ negating.keys, field ∉ counting.keys := by decide
  obtain ⟨-, hthen, -⟩ := patches_compose lowest thirding counting hbase hthird
  obtain ⟨-, -, hexact⟩ := patches_compose lowest negating counting hbase hnegate
  refine ⟨(hthen _ rfl).1, (hexact "floor" "/" .div Int64.minValue (-1) ?_ rfl rfl).2.2 ?_⟩
  · exact List.mem_cons_self
  · rintro n ⟨-, rest, hsum, hlt, -, hsign⟩
    have hneg : (-1 : Int64).toInt = -1 := rfl
    have hmin : Int64.minValue.toInt = -9223372036854775808 := rfl
    rw [hneg] at hsum hlt
    rw [hmin] at hsum
    omega

end Mutation

end DocStore
