import DocStore.Proofs.Timestamp
import DocStore.Proofs.Wire

-- Documents are made of their trees again.
namespace DocStore

namespace Wire

section Records

variable {names : List String} {parts : List (Option Wire)}

-- A record of the parts that are there.
def recordOf (names : List String) (parts : List (Option Wire)) : List (String × Wire) :=
  (names.zip parts).flatMap fun e => Document.entry e.1 e.2

theorem mem_recordOf_iff {name : String} {w : Wire} :
    (name, w) ∈ recordOf names parts ↔ (name, some w) ∈ names.zip parts := by
  rw [recordOf, List.mem_flatMap]
  constructor
  · rintro ⟨⟨other, part⟩, hmem, hentry⟩
    cases part with
    | none => cases hentry
    | some part =>
        obtain ⟨rfl, rfl⟩ := Prod.mk.inj (List.mem_singleton.mp hentry)
        exact hmem
  · exact fun hmem => ⟨_, hmem, List.mem_singleton.mpr rfl⟩

theorem keys_recordOf_sublist (names : List String) (parts : List (Option Wire)) :
    ((recordOf names parts).map (·.1)).Sublist names := by
  induction names generalizing parts with
  | nil => exact List.Sublist.refl _
  | cons name names ih =>
      cases parts with
      | nil => exact List.nil_sublist _
      | cons part parts =>
          cases part with
          | none => exact (ih parts).cons name
          | some w => exact (ih parts).cons_cons name

theorem find?_recordOf_of_notMem {name : String} (h : name ∉ names) :
    (recordOf names parts).find? (fun e => e.1 == name) = none := by
  refine List.find?_eq_none.mpr fun e he hname => h ?_
  rw [← beq_iff_eq.mp hname]
  exact (keys_recordOf_sublist names parts).subset (List.mem_map_of_mem he)

theorem map_find?_recordOf (hnodup : names.Nodup) (hlength : parts.length = names.length) :
    names.map (fun name => ((recordOf names parts).find? (fun e => e.1 == name)).map (·.2)) =
      parts := by
  induction names generalizing parts with
  | nil => exact (List.eq_nil_of_length_eq_zero hlength).symm
  | cons name names ih =>
      obtain ⟨part, parts, rfl⟩ := List.exists_cons_of_length_eq_add_one hlength
      obtain ⟨hname, hnodup⟩ := List.nodup_cons.mp hnodup
      have hcons : recordOf (name :: names) (part :: parts) =
          Document.entry name part ++ recordOf names parts := rfl
      rw [List.map_cons, hcons]
      congr 1
      · cases part with
        | none => rw [Document.entry, List.nil_append, find?_recordOf_of_notMem hname]; rfl
        | some w => simp [Document.entry]
      · refine Eq.trans (List.map_congr_left fun other hother => ?_)
          (ih hnodup (Nat.succ.inj hlength))
        have hne : name ≠ other := fun heq => hname (heq ▸ hother)
        cases part with
        | none => rfl
        | some w => rw [Document.entry, List.singleton_append, List.find?_cons_of_neg (by simpa)]

theorem depth_part {w : Wire} (hw : some w ∈ parts) (hlength : parts.length = names.length) :
    w.depth ≤ entriesDepth (recordOf names parts) := by
  obtain ⟨i, hi, hpart⟩ := List.mem_iff_getElem.mp hw
  have hname : i < names.length := hlength ▸ hi
  have hmem : (names[i], some w) ∈ names.zip parts :=
    List.mem_iff_getElem.mpr ⟨i, by rw [List.length_zip]; omega, by rw [List.getElem_zip, hpart]⟩
  exact depth_le_entriesDepth (mem_recordOf_iff.mpr hmem)

-- A record is read as the parts that it was made of.
theorem record?_recordOf (hnodup : names.Nodup) (hlength : parts.length = names.length) :
    record? names (.map (recordOf names parts)) = some parts := by
  have hkeys := keys_recordOf_sublist names parts
  have hknown : (recordOf names parts).filter (fun e => names.contains e.1) =
      recordOf names parts :=
    List.filter_eq_self.mpr fun e he =>
      List.contains_iff_mem.mpr (hkeys.subset (List.mem_map_of_mem he))
  simp only [record?, hknown, if_pos (hkeys.nodup hnodup), map_find?_recordOf hnodup hlength]

theorem optional_map {α : Type} {read : Wire → Option α} {write : α → Wire} {x : Option α}
    (h : ∀ a, x = some a → write a ≠ .null ∧ read (write a) = some a) :
    optional read (x.map write) = some x := by
  cases x with
  | none => rfl
  | some a =>
      obtain ⟨hnull, hread⟩ := h a rfl
      rw [Option.map_some, optional, hread]
      · rfl
      · exact hnull

end Records

end Wire

-- A time whose year takes four digits.
structure Timestamp.Writable (t : Timestamp) : Prop where
  instant : t.IsInstant
  first : 0 ≤ t.year
  last : t.year ≤ 9999

namespace Document

-- Versions of 64 bits, and fields that ascend, are all there are. Beyond that, floats are finite,
-- years take four digits, and no status is null, as that would not differ from having none.
structure Storable (d : Document) : Prop where
  version : ∀ n : Nat, d.version = some n → Word.isUnsigned n = true
  history : ∀ h, d.history = some h → h.created.Writable ∧ h.updated.Writable
  val : d.val.Storable
  status : ∀ v, d.status = some v → v.Storable ∧ v ≠ .null
  mutations : ∀ fields, d.mutations = some fields → (Value.object fields).Storable

def partNames : List String := ["id", "model", "version", "history", "val", "status", "mut"]

def parts (d : Document) : List (Option Wire) :=
  [some (.text d.id), some (.text d.model), d.version.map (fun n : Nat => .int n),
    d.history.map historyWire, some (Wire.ofValue d.val), d.status.map Wire.ofValue,
    d.mutations.map (fun fields => Wire.ofValue (.object fields))]

variable {d : Document} {w : Wire}

theorem toWire_eq (d : Document) : d.toWire = .map (Wire.recordOf partNames d.parts) := by
  simp only [toWire, Wire.recordOf, partNames, parts, List.zip_cons_cons, List.zip_nil_right,
    List.flatMap_cons, List.flatMap_nil, List.append_nil, List.append_assoc]
  cases d.version <;> rfl

theorem historyWire_eq (h : History) : historyWire h = .map (Wire.recordOf ["created", "updated"]
    [some (.text h.created.render), some (.text h.updated.render)]) := rfl

theorem historyOfWire?_historyWire {h : History}
    (hwritable : h.created.Writable ∧ h.updated.Writable) :
    historyOfWire? (historyWire h) = some h := by
  obtain ⟨hcreated, hupdated⟩ := hwritable
  rw [historyWire_eq]
  refine bind_eq_some_of (Wire.record?_recordOf (by decide) rfl) ?_
  refine bind_eq_some_of
    (Timestamp.parse?_render hcreated.instant hcreated.first hcreated.last) ?_
  exact bind_eq_some_of (Timestamp.parse?_render hupdated.instant hupdated.first hupdated.last) rfl

theorem plain_historyWire (h : History) : (historyWire h).Plain := by
  refine .map fun e he => ?_
  simp only [List.mem_cons, List.not_mem_nil, or_false] at he
  rcases he with rfl | rfl
  · exact .text _
  · exact .text _

theorem plain_of_mem_parts (h : d.Storable) (hw : some w ∈ d.parts) : w.Plain := by
  simp only [parts, List.mem_cons, List.not_mem_nil, or_false, Option.some.injEq,
    eq_comm (a := some w), Option.map_eq_some_iff] at hw
  obtain rfl | rfl | ⟨n, hn, rfl⟩ | ⟨past, -, rfl⟩ | rfl | ⟨v, hv, rfl⟩ | ⟨fields, hfields, rfl⟩ :=
    hw
  · exact .text _
  · exact .text _
  · exact .int (.inr (h.version n hn))
  · exact plain_historyWire past
  · exact Wire.plain_ofValue h.val
  · exact Wire.plain_ofValue (h.status v hv).1
  · exact Wire.plain_ofValue (h.mutations fields hfields)

theorem plain_toWire (h : d.Storable) : d.toWire.Plain := by
  rw [toWire_eq]
  refine .map fun e he => plain_of_mem_parts h ?_
  exact (List.of_mem_zip (Wire.mem_recordOf_iff.mp he)).2

theorem ofValue_ne_null {v : Value} (h : v ≠ .null) : Wire.ofValue v ≠ .null := by
  intro hnull
  cases v with
  | null => exact h rfl
  | _ => cases hnull

-- A document is made of its tree again, as long as that is not nested too deeply.
theorem ofWire?_toWire (h : d.Storable) {nesting : Nat} (hdepth : d.toWire.depth ≤ nesting) :
    ofWire? nesting d.toWire = some d := by
  rw [toWire_eq, Wire.depth] at hdepth
  have hinner : ∀ {w}, some w ∈ d.parts → w.depth ≤ nesting - 1 := by
    intro w hw
    have hle : w.depth ≤ Wire.entriesDepth (Wire.recordOf partNames d.parts) :=
      Wire.depth_part hw rfl
    omega
  have hversion : Wire.optional Wire.word? (d.version.map (fun n : Nat => .int n)) =
      some d.version :=
    Wire.optional_map fun n hn =>
      ⟨Wire.noConfusion, by rw [Wire.word?, if_pos (h.version n hn), Int.toNat_natCast]⟩
  have hhistory : Wire.optional historyOfWire? (d.history.map historyWire) = some d.history :=
    Wire.optional_map fun past hpast =>
      ⟨Wire.noConfusion, historyOfWire?_historyWire (h.history past hpast)⟩
  have hval : Wire.toValue? (nesting - 1) (Wire.ofValue d.val) = some d.val :=
    Wire.toValue?_ofValue h.val (hinner (by simp [parts]))
  have hstatus : Wire.optional (Wire.toValue? (nesting - 1)) (d.status.map Wire.ofValue) =
      some d.status :=
    Wire.optional_map fun v hv =>
      ⟨ofValue_ne_null (h.status v hv).2,
        Wire.toValue?_ofValue (h.status v hv).1 (hinner (by simp [parts, hv]))⟩
  have hmutations : Wire.optional (fieldsOfWire? (nesting - 1))
      (d.mutations.map (fun fields => Wire.ofValue (.object fields))) = some d.mutations :=
    Wire.optional_map fun fields hfields => by
      have hread := Wire.toValue?_ofValue (h.mutations fields hfields)
        (hinner (by simp [parts, hfields]))
      exact ⟨Wire.noConfusion, by rw [fieldsOfWire?, hread]; rfl⟩
  rw [toWire_eq]
  refine bind_eq_some_of (Wire.record?_recordOf (by decide) rfl) ?_
  rw [parts]
  refine bind_eq_some_of (a := d.id) rfl ?_
  refine bind_eq_some_of (a := d.model) rfl ?_
  refine bind_eq_some_of hversion (bind_eq_some_of hhistory (bind_eq_some_of hval ?_))
  exact bind_eq_some_of hstatus (bind_eq_some_of hmutations rfl)

end Document

end DocStore
