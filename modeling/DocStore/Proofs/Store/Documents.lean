import DocStore.Proofs.Store.Ledger

-- What the committed changes make of the stored documents.
namespace DocStore

-- A document that a put makes is the one that was to be put.
theorem Job.Makes.new_eq {job : Job} {answer : Option (Option Document)} {change : Change}
    (h : job.Makes answer change) {d : Document} (hd : change.new = some d) :
    d.model = job.model ∧ d.id = job.id := by
  cases job with
  | put encoding ctx model doc =>
      obtain ⟨-, val, now, verdict, -, -, -, hnew⟩ := h
      rw [hd, Option.some.injEq] at hnew
      rw [hnew]
      cases verdict <;> exact ⟨rfl, rfl⟩
  | delete ctx target model id =>
      rw [h.2] at hd
      cases hd

namespace Entry

-- The record that was written decodes to the document that was encoded.
def Readable (e : Entry) : Prop :=
  ∀ d, e.change.new = some d → Record.decode (e.job.record d) = .ok d

namespace Turns

variable {e : Entry} {before after : SortedMap Bytes Bytes}

-- No update is lost: what was read of the document is what is committed when the change is.
theorem reads (h : e.Turns before after) :
    Store.stored? e.job.model e.job.id (View.ofMap before) = .ok e.change.old := by
  obtain ⟨base, writes, hprepares, -, hsame⟩ := h
  have hown : e.job.key ∈ writes.keys := by
    rw [SortedMap.mem_keys_iff, hprepares.own]
    rfl
  have hrecord : base.get? (Key.document e.job.model e.job.id) =
      before.get? (Key.document e.job.model e.job.id) := hsame _ hown
  have hbase := hprepares.reads
  rw [Store.stored?_ofMap] at hbase ⊢
  rw [← hrecord]
  exact hbase

theorem get?_own (h : e.Turns before after) :
    after.get? e.job.key = e.change.new.map e.job.record := by
  obtain ⟨base, writes, hprepares, rfl, -⟩ := h
  rw [SortedMap.get?_setAll, hprepares.own, Option.getD_some]

-- What was written is what the record of it reads back as.
theorem stored?_new (h : e.Turns before after) :
    Store.stored? e.job.model e.job.id (View.ofMap after) =
      match e.change.new with
      | some d => (Record.decode (e.job.record d)).map some
      | none => .ok none := by
  rw [Store.stored?_ofMap, show after.get? (Key.document e.job.model e.job.id) = _ from h.get?_own]
  cases e.change.new <;> rfl

theorem stored?_own (h : e.Turns before after) (hread : e.Readable) :
    Store.stored? e.job.model e.job.id (View.ofMap after) = .ok e.change.new := by
  rw [h.stored?_new]
  cases hnew : e.change.new with
  | none => rfl
  | some d =>
      simp only
      rw [hread d hnew]
      rfl

theorem get?_other (h : e.Turns before after) {model id : String}
    (hne : ¬(model = e.job.model ∧ id = e.job.id)) :
    after.get? (Key.document model id) = before.get? (Key.document model id) := by
  obtain ⟨base, writes, hprepares, rfl, -⟩ := h
  have hother : Key.document model id ≠ e.job.key := fun heq => hne (Key.document_inj.mp heq)
  rw [SortedMap.get?_setAll, hprepares.document, if_neg hother, Option.getD_none]

theorem stored?_other (h : e.Turns before after) {model id : String}
    (hne : ¬(model = e.job.model ∧ id = e.job.id)) :
    Store.stored? model id (View.ofMap after) = Store.stored? model id (View.ofMap before) := by
  rw [Store.stored?_ofMap, Store.stored?_ofMap, h.get?_other hne]

-- The old document leaves the index, and the new one enters it.
theorem isSome_entry (h : e.Turns before after) {key : Bytes}
    (hkey : key.head? = some Key.entryTag) : (after.get? key).isSome ↔
      key ∈ (e.change.new.map Document.entryKeys).getD [] ∨
        key ∉ (e.change.old.map Document.entryKeys).getD [] ∧ (before.get? key).isSome := by
  obtain ⟨base, writes, hprepares, rfl, -⟩ := h
  rw [SortedMap.get?_setAll, hprepares.entries key hkey]
  split
  · next hnew => simp [hnew]
  · next hnew =>
    split
    · next hold => simp [hnew, hold]
    · next hold => simp [hnew, hold]

end Turns

end Entry

-- Every document can be read, and is stored in its own place.
def Placed (map : SortedMap Bytes Bytes) : Prop :=
  ∀ model id, ∃ old, Store.stored? model id (View.ofMap map) = .ok old ∧
    ∀ d, old = some d → d.model = model ∧ d.id = id

theorem Placed.turn {e : Entry} {before after : SortedMap Bytes Bytes} (h : Placed before)
    (ht : e.Turns before after) (hread : e.Readable) : Placed after := by
  intro model id
  by_cases heq : model = e.job.model ∧ id = e.job.id
  · obtain ⟨rfl, rfl⟩ := heq
    refine ⟨_, ht.stored?_own hread, fun d hd => ?_⟩
    obtain ⟨base, writes, hprepares, -⟩ := ht
    exact hprepares.makes.new_eq hd
  · rw [ht.stored?_other heq]
    exact h model id

-- The index holds the entries of the stored documents, and no others.
def Indexed (map : SortedMap Bytes Bytes) : Prop :=
  ∀ key, key.head? = some Key.entryTag → ((map.get? key).isSome ↔
    ∃ model id d, Store.stored? model id (View.ofMap map) = .ok (some d) ∧ key ∈ d.entryKeys)

-- An entry belongs to one document.
theorem Document.eq_of_mem_entryKeys {a b : Document} {key : Bytes} (ha : key ∈ a.entryKeys)
    (hb : key ∈ b.entryKeys) : a.model = b.model ∧ a.id = b.id := by
  obtain ⟨x, -, rfl⟩ := List.mem_map.mp ha
  obtain ⟨y, -, heq⟩ := List.mem_map.mp hb
  obtain ⟨hmodel, -, -, hid⟩ := Key.entry_inj.mp heq
  exact ⟨hmodel.symm, hid.symm⟩

theorem Indexed.turn {e : Entry} {before after : SortedMap Bytes Bytes} (h : Indexed before)
    (hplaced : Placed before) (ht : e.Turns before after) (hread : e.Readable) :
    Indexed after := by
  intro key hkey
  have hreads := ht.reads
  have hown := ht.stored?_own hread
  rw [ht.isSome_entry hkey]
  constructor
  · rintro (hnew | ⟨hold, hbefore⟩)
    · cases hd : e.change.new with
      | none => simp [hd] at hnew
      | some d =>
          rw [hd] at hnew hown
          exact ⟨e.job.model, e.job.id, d, hown, hnew⟩
    · obtain ⟨model, id, d, hd, hm⟩ := (h key hkey).mp hbefore
      refine ⟨model, id, d, ?_, hm⟩
      rw [ht.stored?_other, hd]
      rintro ⟨rfl, rfl⟩
      rw [hd, Except.ok.injEq] at hreads
      rw [← hreads] at hold
      exact hold hm
  · rintro ⟨model, id, d, hd, hm⟩
    by_cases heq : model = e.job.model ∧ id = e.job.id
    · obtain ⟨rfl, rfl⟩ := heq
      rw [hown, Except.ok.injEq] at hd
      rw [hd]
      exact .inl hm
    · rw [ht.stored?_other heq] at hd
      refine .inr ⟨fun hold => heq ?_, (h key hkey).mpr ⟨model, id, d, hd, hm⟩⟩
      cases hold' : e.change.old with
      | none => simp [hold'] at hold
      | some old =>
          rw [hold'] at hold hreads
          obtain ⟨hmodel, hid⟩ := Document.eq_of_mem_entryKeys hm hold
          obtain ⟨_, hd', hplace⟩ := hplaced model id
          obtain ⟨_, hold'', hplace'⟩ := hplaced e.job.model e.job.id
          rw [hd, Except.ok.injEq] at hd'
          rw [hreads, Except.ok.injEq] at hold''
          obtain ⟨hdm, hdi⟩ := hplace d hd'.symm
          obtain ⟨hom, hoi⟩ := hplace' old hold''.symm
          exact ⟨hdm.symm.trans (hmodel.trans hom), hdi.symm.trans (hid.trans hoi)⟩

theorem placed_of_recorded {log : List Entry} {map : SortedMap Bytes Bytes}
    (h : Recorded log map) (hread : ∀ e ∈ log, e.Readable) : Placed map := by
  induction h with
  | start =>
      intro model id
      exact ⟨none, by rw [Store.stored?_ofMap, SortedMap.get?_empty], by simp⟩
  | @enter log before after e _ ht ih =>
      exact (ih (fun e' he => hread e' (List.mem_append_left _ he))).turn ht (hread e (by simp))

-- What the last change made of its document is stored.
theorem Recorded.stored?_last {log : List Entry} {e : Entry} {map : SortedMap Bytes Bytes}
    (h : Recorded log map) (hlast : log.getLast? = some e) (hread : e.Readable) :
    Store.stored? e.job.model e.job.id (View.ofMap map) = .ok e.change.new := by
  cases h with
  | start => simp at hlast
  | enter _ ht =>
      obtain rfl : _ = e := by simpa using hlast
      exact ht.stored?_own hread

theorem indexed_of_recorded {log : List Entry} {map : SortedMap Bytes Bytes}
    (h : Recorded log map) (hread : ∀ e ∈ log, e.Readable) : Indexed map := by
  induction h with
  | start =>
      intro key _
      simp [SortedMap.get?_empty, Store.stored?_ofMap]
  | @enter log before after e hlog ht ih =>
      have hearlier : ∀ e ∈ log, e.Readable := fun e' he => hread e' (List.mem_append_left _ he)
      exact (ih hearlier).turn (placed_of_recorded hlog hearlier) ht (hread e (by simp))

-- Every claim names a document, be it stored or not.
def Claimed (map : SortedMap Bytes Bytes) : Prop :=
  ∀ key value, key.head? = some Key.claimTag → map.get? key = some value →
    ∃ id, value = Bytes.ofString id

theorem claimed_of_recorded {log : List Entry} {map : SortedMap Bytes Bytes}
    (h : Recorded log map) : Claimed map := by
  induction h with
  | start => simp [Claimed, SortedMap.get?_empty]
  | @enter log before after e _ ht ih =>
      obtain ⟨base, writes, hprepares, rfl, -⟩ := ht
      intro key value hkey hvalue
      rw [SortedMap.get?_setAll] at hvalue
      cases hwritten : writes.get? key with
      | none => exact ih key value hkey (by simpa [hwritten] using hvalue)
      | some written =>
          obtain rfl : written = some value := by simpa [hwritten] using hvalue
          exact ⟨e.job.id, hprepares.claims key value hkey hwritten⟩

end DocStore
