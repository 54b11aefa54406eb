import DocStore.Proofs.Key

-- Everything that a store keeps lies in one space of keys. No two things share a key, and what the
-- keys of a model or of a field begin with leads to nothing else.
namespace DocStore.Key

-- The things that are kept, with all that their keys are made of.
inductive Slot where
  | document (model id : String)
  | entry (model path : String) (encoded : Bytes) (id : String)
  | claim (model path : String) (encoded : Bytes)
  deriving DecidableEq

def Slot.key : Slot → Bytes
  | document model id => Key.document model id
  | entry model path encoded id => Key.entry model path encoded id
  | claim model path encoded => Key.claim model path encoded

def Slot.tag : Slot → UInt8
  | document _ _ => documentTag
  | entry _ _ _ _ => entryTag
  | claim _ _ _ => claimTag

theorem Slot.head?_key (slot : Slot) : slot.key.head? = some slot.tag := by cases slot <;> rfl

-- The first byte tells the kind of a key, and then the separators tell its parts.
theorem Slot.key_injective : Function.Injective Slot.key := by
  intro a b h
  have htag : a.tag = b.tag := by
    rw [← Option.some.injEq, ← a.head?_key, ← b.head?_key, h]
  cases a with
  | document model id =>
      cases b with
      | document =>
          obtain ⟨rfl, rfl⟩ := document_inj.mp h
          rfl
      | entry | claim => simp [Slot.tag, documentTag, entryTag, claimTag] at htag
  | entry model path encoded id =>
      cases b with
      | entry =>
          obtain ⟨rfl, rfl, rfl, rfl⟩ := entry_inj.mp h
          rfl
      | document | claim => simp [Slot.tag, documentTag, entryTag, claimTag] at htag
  | claim model path encoded =>
      cases b with
      | claim =>
          obtain ⟨rfl, rfl, rfl⟩ := claim_inj.mp h
          rfl
      | document | entry => simp [Slot.tag, documentTag, entryTag, claimTag] at htag

-- A key is of one kind and tells its parts, whatever bytes the encoded value is made of. An entry
-- is split into them below its field. It begins with the prefix of its own field only, and a
-- document with that of its own model.
theorem slots_apart :
    (∀ a b : Slot, a.key = b.key ↔ a = b) ∧
      (∀ model path encoded id,
        splitEntry? (field model path) (entry model path encoded id) =
          some (encoded, Bytes.ofString id)) ∧
      (∀ model path encoded id other field',
        field other field' <+: entry model path encoded id ↔ other = model ∧ field' = path) ∧
      ∀ model id other, documents other <+: document model id ↔ other = model :=
  ⟨fun _ _ => Slot.key_injective.eq_iff, splitEntry?_entry, fun _ _ _ _ _ _ => field_prefix_iff,
    fun _ _ _ => documents_prefix_iff⟩

-- The encoded number ends in the byte that separates the parts, and holds it once more.
example :
    splitEntry? (field "M" "val.n") (entry "M" "val.n" [0xFF, 0, 0, 0, 0, 0, 0, 0xFF] "b") =
      some ([0xFF, 0, 0, 0, 0, 0, 0, 0xFF], Bytes.ofString "b") := by
  decide +kernel

end DocStore.Key
