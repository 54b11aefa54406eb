import DocStore.Key

namespace DocStore

namespace Bytes

private theorem toList_loop (bytes : ByteArray) (i : Nat) (done : List UInt8) :
    ByteArray.toList.loop bytes i done = done.reverse ++ bytes.data.toList.drop i := by
  fun_induction ByteArray.toList.loop bytes i done with
  | case1 i done hlt ih =>
      have hlt' : i < bytes.data.toList.length := hlt
      rw [ih, List.reverse_cons, List.append_assoc, List.drop_eq_getElem_cons hlt']
      simp [ByteArray.get!, hlt]
  | case2 i done hge =>
      have hge' : bytes.data.toList.length ≤ i := Nat.not_lt.mp hge
      rw [List.drop_eq_nil_of_le hge', List.append_nil]

private theorem ofString_eq_data (s : String) : ofString s = s.toByteArray.data.toList :=
  toList_loop s.toByteArray 0 []

theorem ofString_eq (s : String) : ofString s = s.toList.flatMap String.utf8EncodeChar := by
  rw [ofString_eq_data, ← String.utf8Encode_toList, List.utf8Encode, List.toList_data_toByteArray]

theorem length_ofString (s : String) : (ofString s).length = s.utf8ByteSize := by
  rw [ofString_eq_data]
  exact s.size_toByteArray

-- A text is what its bytes, and no others, are read as.
theorem toString?_eq_some_iff {bytes : Bytes} {s : String} :
    toString? bytes = some s ↔ bytes = ofString s := by
  rw [ofString_eq_data, toString?, String.fromUTF8?]
  constructor
  · intro h
    split at h
    · rw [Option.some.injEq] at h
      rw [← h]
      rfl
    · cases h
  · rintro rfl
    exact dif_pos s.isValidUTF8

@[simp] theorem toString?_ofString (s : String) : toString? (ofString s) = some s :=
  toString?_eq_some_iff.mpr rfl

theorem ofString_inj {a b : String} : ofString a = ofString b ↔ a = b := by
  refine ⟨fun h => ?_, congrArg ofString⟩
  rw [ofString_eq, ofString_eq] at h
  rw [← String.toByteArray_inj, ← String.utf8Encode_toList, ← String.utf8Encode_toList,
    List.utf8Encode, List.utf8Encode, h]

-- No text in UTF-8 holds the byte that separates the parts of keys.
theorem separator_notMem (s : String) : Key.separator ∉ ofString s := by
  rw [ofString_eq, List.mem_flatMap]
  rintro ⟨c, -, hm⟩
  have hbyte : ∀ n : Nat, n % 256 ≠ 255 → Key.separator ≠ UInt8.ofNat n := by
    intro n hn heq
    exact hn (by simpa [Key.separator] using (congrArg UInt8.toNat heq).symm)
  unfold String.utf8EncodeChar at hm
  simp only at hm
  split at hm
  · next hle => exact hbyte c.val.toNat (by omega) (List.mem_singleton.mp hm)
  · split at hm
    · simp only [List.mem_cons, List.not_mem_nil, or_false] at hm
      rcases hm with hm | hm <;> exact hbyte _ (by omega) hm
    · split at hm
      · simp only [List.mem_cons, List.not_mem_nil, or_false] at hm
        rcases hm with hm | hm | hm <;> exact hbyte _ (by omega) hm
      · simp only [List.mem_cons, List.not_mem_nil, or_false] at hm
        rcases hm with hm | hm | hm | hm <;> exact hbyte _ (by omega) hm

-- What stands in front of the first of some byte is told apart from what stands behind it.
theorem split_first {b : UInt8} {front front' back back' : Bytes} (h : b ∉ front) (h' : b ∉ front')
    (heq : front ++ b :: back = front' ++ b :: back') : front = front' ∧ back = back' := by
  induction front generalizing front' with
  | nil =>
      cases front' with
      | nil => simpa using heq
      | cons x rest =>
          simp only [List.nil_append, List.cons_append, List.cons.injEq] at heq
          exact absurd (by simp [heq.1]) h'
  | cons x rest ih =>
      cases front' with
      | nil =>
          simp only [List.nil_append, List.cons_append, List.cons.injEq] at heq
          exact absurd (by simp [heq.1]) h
      | cons y rest' =>
          simp only [List.cons_append, List.cons.injEq] at heq
          simp only [List.mem_cons, not_or] at h h'
          obtain ⟨hfront, hback⟩ := ih h.2 h'.2 heq.2
          exact ⟨by rw [heq.1, hfront], hback⟩

theorem split_last {b : UInt8} {front front' back back' : Bytes} (h : b ∉ back) (h' : b ∉ back')
    (heq : front ++ b :: back = front' ++ b :: back') : front = front' ∧ back = back' := by
  have hreverse := congrArg List.reverse heq
  simp only [List.reverse_append, List.reverse_cons, List.append_assoc, List.singleton_append]
    at hreverse
  obtain ⟨hback, hfront⟩ :=
    split_first (by simpa using h) (by simpa using h') hreverse
  exact ⟨List.reverse_inj.mp hfront, List.reverse_inj.mp hback⟩

theorem dropPrefix?_eq_some_iff {start bytes rest : Bytes} :
    dropPrefix? start bytes = some rest ↔ bytes = start ++ rest := by
  induction start generalizing bytes with
  | nil => simp [dropPrefix?]
  | cons p ps ih =>
      cases bytes with
      | nil => simp [dropPrefix?]
      | cons b bytes =>
          simp only [dropPrefix?, List.cons_append, List.cons.injEq]
          split
          · next heq => simp [ih, heq]
          · next hne => simp [Ne.symm hne]

theorem splitLast?_eq_none_iff {separator : UInt8} {bytes : Bytes} :
    splitLast? separator bytes = none ↔ separator ∉ bytes := by
  induction bytes with
  | nil => simp [splitLast?]
  | cons b rest ih =>
      simp only [splitLast?, List.mem_cons, not_or, ← ih]
      cases splitLast? separator rest with
      | some split => simp
      | none =>
          by_cases hb : b = separator
          · simp [hb]
          · simp [hb, Ne.symm hb]

theorem splitLast?_append (before : Bytes) {separator : UInt8} {after : Bytes}
    (h : separator ∉ after) :
    splitLast? separator (before ++ separator :: after) = some (before, after) := by
  induction before with
  | nil => simp [splitLast?, splitLast?_eq_none_iff.mpr h]
  | cons b before ih => simp [splitLast?, ih]

-- What stands behind the last of some byte does not hold it.
theorem splitLast?_eq_some_iff {separator : UInt8} {bytes before after : Bytes} :
    splitLast? separator bytes = some (before, after) ↔
      bytes = before ++ separator :: after ∧ separator ∉ after := by
  constructor
  · intro h
    induction bytes generalizing before with
    | nil => simp [splitLast?] at h
    | cons b rest ih =>
        simp only [splitLast?] at h
        cases hrest : splitLast? separator rest with
        | some split =>
            obtain ⟨front, back⟩ := split
            simp only [hrest, Option.some.injEq, Prod.mk.injEq] at h
            obtain ⟨rfl, rfl⟩ := h
            obtain ⟨heq, hback⟩ := ih hrest
            exact ⟨by rw [heq, List.cons_append], hback⟩
        | none =>
            rw [hrest] at h
            rw [splitLast?_eq_none_iff] at hrest
            by_cases hb : b = separator
            · simp only [hb, ite_true, Option.some.injEq, Prod.mk.injEq] at h
              obtain ⟨rfl, rfl⟩ := h
              exact ⟨by rw [hb]; rfl, hrest⟩
            · simp [hb] at h
  · rintro ⟨rfl, h⟩
    exact splitLast?_append before h

end Bytes

namespace Key

open Bytes

private theorem document_eq (model id : String) : document model id =
    documentTag :: separator :: (ofString model ++ separator :: (ofString id ++ [separator])) := by
  have hparts : document model id = documentTag :: separator ::
      ((ofString model ++ [separator]) ++ ((ofString id ++ [separator]) ++ [])) := rfl
  simpa using hparts

private theorem entry_eq (model path : String) (encoded : Bytes) (id : String) :
    entry model path encoded id = entryTag :: separator ::
      (ofString model ++ separator :: (ofString path ++ separator ::
        (encoded ++ separator :: ofString id))) := by
  have hparts : entry model path encoded id = (entryTag :: separator ::
      ((ofString model ++ [separator]) ++ ((ofString path ++ [separator]) ++ []))) ++ encoded ++
        [separator] ++ ofString id := rfl
  simpa using hparts

private theorem documents_append_eq (model : String) (rest : Bytes) : documents model ++ rest =
    documentTag :: separator :: (ofString model ++ separator :: rest) := by
  have hparts : documents model ++ rest = (documentTag :: separator ::
      ((ofString model ++ [separator]) ++ [])) ++ rest := rfl
  simpa using hparts

private theorem field_append_eq (model path : String) (rest : Bytes) : field model path ++ rest =
    entryTag :: separator ::
      (ofString model ++ separator :: (ofString path ++ separator :: rest)) := by
  have hparts : field model path ++ rest = (entryTag :: separator ::
      ((ofString model ++ [separator]) ++ ((ofString path ++ [separator]) ++ []))) ++ rest := rfl
  simpa using hparts

private theorem claim_eq (model path : String) (encoded : Bytes) : claim model path encoded =
    claimTag :: separator ::
      (ofString model ++ separator :: (ofString path ++ separator :: encoded)) := by
  have hparts : claim model path encoded = (claimTag :: separator ::
      ((ofString model ++ [separator]) ++ ((ofString path ++ [separator]) ++ []))) ++ encoded := rfl
  simpa using hparts

theorem documents_prefix (model id : String) : documents model <+: document model id :=
  List.cons_prefix_cons.mpr ⟨rfl, List.cons_prefix_cons.mpr ⟨rfl, by simp⟩⟩

-- The keys of a model's documents begin like those of no other model, be its name the longer one.
theorem documents_prefix_iff {model other id : String} :
    documents other <+: document model id ↔ other = model := by
  constructor
  · rintro ⟨rest, h⟩
    simp only [documents_append_eq, document_eq, List.cons.injEq, true_and] at h
    obtain ⟨hmodel, -⟩ := split_first (separator_notMem other) (separator_notMem model) h
    exact ofString_inj.mp hmodel
  · rintro rfl
    exact documents_prefix other id

-- Nor do the index entries of a field begin like those of another one.
theorem field_prefix_iff {model path other field' id : String} {encoded : Bytes} :
    field other field' <+: entry model path encoded id ↔ other = model ∧ field' = path := by
  constructor
  · rintro ⟨rest, h⟩
    simp only [field_append_eq, entry_eq, List.cons.injEq, true_and] at h
    obtain ⟨hmodel, hrest⟩ := split_first (separator_notMem other) (separator_notMem model) h
    obtain ⟨hpath, -⟩ := split_first (separator_notMem field') (separator_notMem path) hrest
    exact ⟨ofString_inj.mp hmodel, ofString_inj.mp hpath⟩
  · rintro ⟨rfl, rfl⟩
    exact ⟨encoded ++ [separator] ++ ofString id, by simp [entry, fieldValue]⟩

theorem document_inj {model id model' id' : String} :
    document model id = document model' id' ↔ model = model' ∧ id = id' := by
  refine ⟨fun h => ?_, fun ⟨hm, hi⟩ => by rw [hm, hi]⟩
  simp only [document_eq, List.cons.injEq, true_and] at h
  obtain ⟨hmodel, hrest⟩ := split_first (separator_notMem model) (separator_notMem model') h
  obtain ⟨hid, -⟩ := split_first (separator_notMem id) (separator_notMem id') hrest
  exact ⟨ofString_inj.mp hmodel, ofString_inj.mp hid⟩

-- An encoded number may hold the separating byte, but the id behind it does not.
theorem entry_inj {model path model' path' : String} {encoded encoded' : Bytes} {id id' : String} :
    entry model path encoded id = entry model' path' encoded' id' ↔
      model = model' ∧ path = path' ∧ encoded = encoded' ∧ id = id' := by
  refine ⟨fun h => ?_, fun ⟨hm, hp, he, hi⟩ => by rw [hm, hp, he, hi]⟩
  simp only [entry_eq, List.cons.injEq, true_and] at h
  obtain ⟨hmodel, hrest⟩ := split_first (separator_notMem model) (separator_notMem model') h
  obtain ⟨hpath, hrest⟩ := split_first (separator_notMem path) (separator_notMem path') hrest
  obtain ⟨hencoded, hid⟩ := split_last (separator_notMem id) (separator_notMem id') hrest
  exact ⟨ofString_inj.mp hmodel, ofString_inj.mp hpath, hencoded, ofString_inj.mp hid⟩

-- Nothing stands behind the encoded value of a claim.
theorem claim_inj {model path model' path' : String} {encoded encoded' : Bytes} :
    claim model path encoded = claim model' path' encoded' ↔
      model = model' ∧ path = path' ∧ encoded = encoded' := by
  refine ⟨fun h => ?_, fun ⟨hm, hp, he⟩ => by rw [hm, hp, he]⟩
  simp only [claim_eq, List.cons.injEq, true_and] at h
  obtain ⟨hmodel, hrest⟩ := split_first (separator_notMem model) (separator_notMem model') h
  obtain ⟨hpath, hencoded⟩ := split_first (separator_notMem path) (separator_notMem path') hrest
  exact ⟨ofString_inj.mp hmodel, ofString_inj.mp hpath, hencoded⟩

theorem splitEntry?_eq_some_iff {start key encoded id : Bytes} :
    splitEntry? start key = some (encoded, id) ↔
      key = start ++ encoded ++ separator :: id ∧ separator ∉ id := by
  rw [ splitEntry?, Option.bind_eq_some_iff]
  simp only [dropPrefix?_eq_some_iff, splitLast?_eq_some_iff]
  constructor
  · rintro ⟨rest, rfl, rfl, h⟩
    exact ⟨by rw [List.append_assoc], h⟩
  · rintro ⟨rfl, h⟩
    exact ⟨_, by rw [List.append_assoc], rfl, h⟩

-- The key of an entry tells what is indexed, and in which document.
theorem splitEntry?_entry (model path : String) (encoded : Bytes) (id : String) :
    splitEntry? (field model path) (entry model path encoded id) = some (encoded, ofString id) := by
  refine splitEntry?_eq_some_iff.mpr ⟨?_, separator_notMem id⟩
  simp [entry, fieldValue]

@[simp] theorem head?_document (model id : String) :
    (document model id).head? = some documentTag := rfl

@[simp] theorem head?_fieldValue (model path : String) (encoded owner : Bytes) :
    (fieldValue model path encoded ++ owner).head? = some entryTag := rfl

@[simp] theorem head?_entry (model path : String) (encoded : Bytes) (id : String) :
    (entry model path encoded id).head? = some entryTag := rfl

@[simp] theorem head?_claim (model path : String) (encoded : Bytes) :
    (claim model path encoded).head? = some claimTag := rfl

end Key

end DocStore
