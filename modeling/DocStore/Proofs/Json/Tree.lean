import DocStore.Proofs.Json.Number
import DocStore.Proofs.Wire

-- Trees are read from JSON as they were written.
namespace DocStore.Json

variable {fuel : Nat} {w : Wire} {rest : Bytes}

section Heads

-- A number starts with a digit or a sign.
theorem head_of_readNumeral {bytes : Bytes} {n : Numeral}
    (h : readNumeral bytes = some (n, rest)) :
    ∃ b tail, bytes = b :: tail ∧ (b = 0x2D ∨ isDigit b = true) := by
  cases bytes with
  | nil => cases h
  | cons b tail =>
      refine ⟨b, tail, rfl, ?_⟩
      by_cases hminus : b = 0x2D
      · exact .inl hminus
      · cases hdigit : isDigit b with
        | true => exact .inr rfl
        | false =>
            have hnone : readDigits (b :: tail) = none := by
              rw [readDigits, List.takeWhile_cons_of_neg (by simp [hdigit])]
            rw [readNumeral_digit hminus, readUnsigned, hnone] at h
            cases h

-- No tree starts with a blank or with the end of a container.
structure Opens (b : UInt8) : Prop where
  notBlank : isBlank b = false
  notCloseList : b ≠ closeList
  notCloseMap : b ≠ closeMap

theorem opens_of_number {b : UInt8} (h : b = 0x2D ∨ isDigit b = true) : Opens b := by
  rcases h with rfl | h
  · exact ⟨rfl, by decide, by decide⟩
  · simp only [isDigit, Bool.and_eq_true, decide_eq_true_eq, UInt8.le_iff_toNat_le] at h
    obtain ⟨hlow, hhigh⟩ := h
    have hlow : 48 ≤ b.toNat := hlow
    have hhigh : b.toNat ≤ 57 := hhigh
    have hne : ∀ c : UInt8, c.toNat < 48 ∨ 57 < c.toNat → b ≠ c := by
      rintro c hc rfl
      omega
    refine ⟨?_, hne _ (by decide), hne _ (by decide)⟩
    simp only [isBlank, Bool.or_eq_false_iff, beq_eq_false_iff_ne]
    exact ⟨⟨⟨hne _ (by decide), hne _ (by decide)⟩, hne _ (by decide)⟩, hne _ (by decide)⟩

-- What is told by its first byte is not taken for a number.
theorem readTree_number {bytes : Bytes} {n : Numeral} (h : readNumeral bytes = some (n, rest)) :
    readTree (fuel + 1) bytes = some (n.toWire, rest) := by
  obtain ⟨b, tail, rfl, hb⟩ := head_of_readNumeral h
  have hne : ∀ c : UInt8, c ≠ 0x2D → isDigit c = false → b ≠ c := by
    rintro c hminus hdigit rfl
    rcases hb with hb | hb
    · exact hminus hb
    · rw [hdigit] at hb
      cases hb
  rw [readTree, skipBlanks_of_not_isBlank (opens_of_number hb).notBlank]
  simp only [if_neg (hne quote (by decide) rfl), if_neg (hne openList (by decide) rfl),
    if_neg (hne openMap (by decide) rfl), if_neg (hne 0x6E (by decide) rfl),
    if_neg (hne 0x74 (by decide) rfl), if_neg (hne 0x66 (by decide) rfl), h, Option.map_some]

theorem readWord_append (word : Wire) (letters : String) (rest : Bytes) :
    readWord word letters (Bytes.ofString letters ++ rest) = some (word, rest) := by
  rw [readWord, Bytes.dropPrefix?_eq_some_iff.mpr rfl]
  rfl

end Heads

-- A tree is read as it was written, whatever part of a tree stands behind it. Each byte takes two
-- steps at most.
def Rereads (w : Wire) : Prop :=
  ∀ fuel rest, 2 * (write w).length ≤ fuel → Closes rest →
    readTree fuel (write w ++ rest) = some (w, rest)

section Containers

theorem closes_nil : Closes [] := by
  rintro _ ⟨⟩

theorem closes_cons {b : UInt8} (h : b = comma ∨ b = closeList ∨ b = closeMap) (rest : Bytes) :
    Closes (b :: rest) := by
  rintro _ ⟨⟩
  exact h

theorem writeItems_cons_cons (w other : Wire) (others : List Wire) :
    writeItems (w :: other :: others) = write w ++ comma :: writeItems (other :: others) := by
  rw [writeItems]
  exact List.cons_ne_nil _ _

theorem writeEntries_cons_cons (key : String) (w : Wire) (other : String × Wire)
    (others : List (String × Wire)) : writeEntries ((key, w) :: other :: others) =
      writeText key ++ colon :: write w ++ comma :: writeEntries (other :: others) := by
  rw [writeEntries]
  exact List.cons_ne_nil _ _

theorem readItems_write {items : List Wire} (hne : items ≠ []) (h : ∀ w ∈ items, Rereads w)
    (hfuel : 2 * (writeItems items).length < fuel) (rest : Bytes) :
    readItems fuel (writeItems items ++ closeList :: rest) = some (items, rest) := by
  induction items generalizing fuel with
  | nil => exact absurd rfl hne
  | cons w others ih =>
      obtain ⟨fuel, rfl⟩ : ∃ k, fuel = k + 1 := ⟨fuel - 1, by omega⟩
      have hw := h w (List.mem_cons_self ..)
      cases others with
      | nil =>
          have hread := hw fuel (closeList :: rest) (by rw [writeItems] at hfuel; omega)
            (closes_cons (.inr (.inl rfl)) rest)
          rw [writeItems, readItems, hread]
          rfl
      | cons other others =>
          have hlength : (writeItems (w :: other :: others)).length =
              (write w).length + (writeItems (other :: others)).length + 1 := by
            rw [writeItems_cons_cons, List.length_append, List.length_cons]
            rfl
          have hbytes : writeItems (w :: other :: others) ++ closeList :: rest =
              write w ++ comma :: (writeItems (other :: others) ++ closeList :: rest) := by
            rw [writeItems_cons_cons, List.append_assoc, List.cons_append]
          have hread := hw fuel (comma :: (writeItems (other :: others) ++ closeList :: rest))
            (by omega) (closes_cons (.inl rfl) _)
          have hrest : readItems fuel (writeItems (other :: others) ++ closeList :: rest) =
              some (other :: others, rest) :=
            ih (List.cons_ne_nil _ _) (fun w hw => h w (List.mem_cons_of_mem _ hw)) (by omega)
          rw [hbytes, readItems, hread]
          refine bind_eq_some_of rfl ?_
          exact bind_eq_some_of hrest rfl

theorem readEntries_entry (key : String) {after : Bytes}
    (hread : readTree fuel (write w ++ after) = some (w, after)) :
    readEntries (fuel + 1) (writeText key ++ colon :: (write w ++ after)) =
      match skipBlanks after with
      | [] => none
      | c :: rest =>
        if c = closeMap then some (some [(key, w)], rest)
        else if c = comma then
          (readEntries fuel rest).map (fun read => (read.1.map ((key, w) :: ·), read.2))
        else none := by
  have htext := readText_escape key (colon :: (write w ++ after))
  have hbytes : writeText key ++ colon :: (write w ++ after) =
      quote :: ((Bytes.ofString key).flatMap escapeByte ++
        quote :: colon :: (write w ++ after)) := by
    simp [writeText]
  rw [hbytes, readEntries, skipBlanks_of_not_isBlank (by decide)]
  simp only [ne_eq, not_true_eq_false, if_false, htext, bind, Option.bind_some,
    skipBlanks_of_not_isBlank (show isBlank colon = false by decide), hread, Option.map_some]
  cases skipBlanks after with
  | nil => rfl
  | cons c rest =>
      refine ite_congr rfl (fun _ => rfl) fun _ => ite_congr rfl (fun _ => ?_) fun _ => rfl
      cases readEntries fuel rest with
      | none => rfl
      | some read =>
          obtain ⟨entries, rest⟩ := read
          cases entries <;> rfl

theorem readEntries_write {entries : List (String × Wire)} (hne : entries ≠ [])
    (h : ∀ e ∈ entries, Rereads e.2) (hfuel : 2 * (writeEntries entries).length < fuel)
    (rest : Bytes) :
    readEntries fuel (writeEntries entries ++ closeMap :: rest) = some (some entries, rest) := by
  induction entries generalizing fuel with
  | nil => exact absurd rfl hne
  | cons e others ih =>
      obtain ⟨key, w⟩ := e
      obtain ⟨fuel, rfl⟩ : ∃ k, fuel = k + 1 := ⟨fuel - 1, by omega⟩
      have hw : Rereads w := h (key, w) (List.mem_cons_self ..)
      cases others with
      | nil =>
          rw [writeEntries, List.length_append, List.length_cons] at hfuel
          have hread := hw fuel (closeMap :: rest) (by omega) (closes_cons (.inr (.inr rfl)) rest)
          rw [writeEntries, List.append_assoc, List.cons_append, readEntries_entry key hread]
          rfl
      | cons other others =>
          have hbytes : writeEntries ((key, w) :: other :: others) ++ closeMap :: rest =
              writeText key ++ colon ::
                (write w ++ comma :: (writeEntries (other :: others) ++ closeMap :: rest)) := by
            simp only [writeEntries_cons_cons, List.append_assoc, List.cons_append]
          rw [writeEntries_cons_cons, List.length_append, List.length_append, List.length_cons,
            List.length_cons] at hfuel
          have hread := hw fuel (comma :: (writeEntries (other :: others) ++ closeMap :: rest))
            (by omega) (closes_cons (.inl rfl) _)
          have hrest : readEntries fuel (writeEntries (other :: others) ++ closeMap :: rest) =
              some (some (other :: others), rest) :=
            ih (List.cons_ne_nil _ _) (fun e he => h e (List.mem_cons_of_mem _ he)) (by omega)
          rw [hbytes, readEntries_entry key hread,
            skipBlanks_of_not_isBlank (show isBlank comma = false by decide)]
          simp only [if_neg (show comma ≠ closeMap by decide), if_pos, hrest, Option.map_some]

end Containers

theorem write_null : write .null = 0x6E :: Bytes.ofString "ull" := by
  rw [write, Bytes.ofString_eq, Bytes.ofString_eq]
  decide

theorem write_false : write (.bool false) = 0x66 :: Bytes.ofString "alse" := by
  rw [write, Bytes.ofString_eq, Bytes.ofString_eq]
  decide

theorem write_true : write (.bool true) = 0x74 :: Bytes.ofString "rue" := by
  rw [write, Bytes.ofString_eq, Bytes.ofString_eq]
  decide

theorem opens_write (h : w.Plain) : ∃ b tail, write w = b :: tail ∧ Opens b := by
  have hnumber : ∀ {bytes : Bytes} {n : Numeral}, readNumeral (bytes ++ []) = some (n, []) →
      ∃ b tail, bytes = b :: tail ∧ Opens b := by
    intro bytes n hread
    obtain ⟨b, tail, hbytes, hb⟩ := head_of_readNumeral hread
    exact ⟨b, tail, List.append_nil bytes ▸ hbytes, opens_of_number hb⟩
  cases h with
  | null => exact ⟨0x6E, _, write_null, rfl, by decide, by decide⟩
  | bool b =>
      cases b with
      | false => exact ⟨0x66, _, write_false, rfl, by decide, by decide⟩
      | true => exact ⟨0x74, _, write_true, rfl, by decide, by decide⟩
  | int hn =>
      obtain ⟨m, hread, -⟩ := readNumeral_int hn closes_nil
      exact hnumber hread
  | float hx =>
      obtain ⟨m, hread, -⟩ := readNumeral_render hx closes_nil
      rw [write, if_pos hx]
      exact hnumber hread
  | text s => exact ⟨quote, _, rfl, rfl, by decide, by decide⟩
  | list _ => exact ⟨openList, _, rfl, rfl, by decide, by decide⟩
  | map _ => exact ⟨openMap, _, rfl, rfl, by decide, by decide⟩

theorem rereads_list {items : List Wire} (hplain : ∀ w ∈ items, w.Plain)
    (h : ∀ w ∈ items, Rereads w) : Rereads (.list items) := by
  intro fuel rest hfuel hrest
  have hbytes : write (.list items) ++ rest =
      openList :: (writeItems items ++ closeList :: rest) := by
    rw [write, List.append_assoc, List.cons_append]
    rfl
  have hlength : (write (.list items)).length = (writeItems items).length + 2 := by
    rw [write, List.length_append, List.length_cons]
    rfl
  obtain ⟨fuel, rfl⟩ : ∃ k, fuel = k + 1 := ⟨fuel - 1, by omega⟩
  rw [hbytes, readTree, skipBlanks_of_not_isBlank (by decide)]
  simp only [if_neg (show openList ≠ quote by decide), if_pos]
  cases items with
  | nil => rfl
  | cons w others =>
      obtain ⟨b, tail, hb, hopens⟩ := opens_write (hplain w (List.mem_cons_self ..))
      obtain ⟨more, hmore⟩ : ∃ more, writeItems (w :: others) ++ closeList :: rest = b :: more := by
        cases others with
        | nil => exact ⟨_, by rw [writeItems, hb]; rfl⟩
        | cons other others => exact ⟨_, by rw [writeItems_cons_cons, hb]; rfl⟩
      have hread : readItems fuel (writeItems (w :: others) ++ closeList :: rest) =
          some (w :: others, rest) :=
        readItems_write (List.cons_ne_nil w others) h (by omega) rest
      rw [hmore] at hread ⊢
      rw [skipBlanks_of_not_isBlank hopens.notBlank]
      simp only [if_neg hopens.notCloseList, hread, Option.map_some]

theorem rereads_map {entries : List (String × Wire)} (h : ∀ e ∈ entries, Rereads e.2) :
    Rereads (.map entries) := by
  intro fuel rest hfuel hrest
  have hbytes : write (.map entries) ++ rest =
      openMap :: (writeEntries entries ++ closeMap :: rest) := by
    rw [write, List.append_assoc, List.cons_append]
    rfl
  have hlength : (write (.map entries)).length = (writeEntries entries).length + 2 := by
    rw [write, List.length_append, List.length_cons]
    rfl
  obtain ⟨fuel, rfl⟩ : ∃ k, fuel = k + 1 := ⟨fuel - 1, by omega⟩
  rw [hbytes, readTree, skipBlanks_of_not_isBlank (by decide)]
  simp only [if_neg (show openMap ≠ quote by decide), if_neg (show openMap ≠ openList by decide),
    if_pos]
  cases entries with
  | nil => rfl
  | cons e others =>
      obtain ⟨more, hmore⟩ : ∃ more,
          writeEntries (e :: others) ++ closeMap :: rest = quote :: more := by
        obtain ⟨key, w⟩ := e
        cases others with
        | nil => exact ⟨_, by rw [writeEntries]; rfl⟩
        | cons other others => exact ⟨_, by rw [writeEntries_cons_cons]; rfl⟩
      have hread : readEntries fuel (writeEntries (e :: others) ++ closeMap :: rest) =
          some (some (e :: others), rest) :=
        readEntries_write (List.cons_ne_nil e others) h (by omega) rest
      rw [hmore] at hread ⊢
      rw [skipBlanks_of_not_isBlank (by decide)]
      simp only [if_neg (show quote ≠ closeMap by decide), hread, Option.map_some]

theorem rereads_word {b : UInt8} {letters : String} (hwrite : write w = b :: Bytes.ofString letters)
    (hstep : ∀ fuel rest, readTree (fuel + 1) (b :: rest) = readWord w letters rest) :
    Rereads w := by
  intro fuel rest hfuel _
  rw [hwrite] at hfuel ⊢
  rw [List.length_cons] at hfuel
  obtain ⟨fuel, rfl⟩ : ∃ k, fuel = k + 1 := ⟨fuel - 1, by omega⟩
  rw [List.cons_append, hstep, readWord_append]

theorem rereads_number (h : ∀ rest, Closes rest →
    ∃ n, readNumeral (write w ++ rest) = some (n, rest) ∧ n.toWire = w) : Rereads w := by
  intro fuel rest hfuel hrest
  obtain ⟨n, hread, hn⟩ := h rest hrest
  cases fuel with
  | zero =>
      have hnil : write w = [] := List.eq_nil_of_length_eq_zero (by omega)
      obtain ⟨n, hread, -⟩ := h [] closes_nil
      rw [hnil] at hread
      cases hread
  | succ fuel => rw [readTree_number hread, hn]

theorem rereads_of_plain (h : w.Plain) : Rereads w := by
  induction h with
  | null => exact rereads_word write_null fun _ _ => rfl
  | bool b =>
      cases b with
      | false => exact rereads_word write_false fun _ _ => rfl
      | true => exact rereads_word write_true fun _ _ => rfl
  | int hn => exact rereads_number fun rest hrest => readNumeral_int hn hrest
  | float hx =>
      refine rereads_number fun rest hrest => ?_
      rw [write, if_pos hx]
      exact readNumeral_render hx hrest
  | text s =>
      intro fuel rest hfuel _
      obtain ⟨fuel, rfl⟩ : ∃ k, fuel = k + 1 := ⟨fuel - 1, by
        rw [write, writeText, List.cons_append, List.length_cons] at hfuel
        omega⟩
      exact readTree_writeText s fuel rest
  | list hplain ih => exact rereads_list hplain ih
  | map _ ih => exact rereads_map ih

-- The JSON form of a tree is read as that tree.
theorem read?_write (h : w.Plain) : read? (write w) = some w := by
  have hread := rereads_of_plain h (2 * (write w).length + 2) [] (by omega) closes_nil
  rw [List.append_nil] at hread
  rw [read?, hread]
  rfl

end DocStore.Json
