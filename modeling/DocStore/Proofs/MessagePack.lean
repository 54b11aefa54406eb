import DocStore.Proofs.Record
import DocStore.Proofs.Timestamp
import DocStore.Proofs.Wire

-- Trees are read from MessagePack as they were written.
namespace DocStore.MessagePack

variable {nesting fuel : Nat}

section Numbers

theorem readTree_writeInt_natural {m : Nat} (h : m < 0x10000000000000000) (rest : Bytes) :
    readTree nesting (fuel + 1) (writeInt m ++ rest) = some (.int m, rest) := by
  rw [writeInt, if_pos (Int.natCast_nonneg m)]
  simp only [Int.toNat_natCast]
  split
  · next hsize =>
    have htag : m.toUInt8.toNat = m := by
      simp
      omega
    rw [List.cons_append, List.nil_append, readTree, htag]
    simp only [if_pos hsize]
  · split
    · next hsize =>
      have hword := readWord_bigEndian 1 hsize rest
      simp [readTree, hword]
    · split
      · next hsize =>
        have hword := readWord_bigEndian 2 hsize rest
        simp [readTree, hword]
      · split
        · next hsize =>
          have hword := readWord_bigEndian 4 hsize rest
          simp [readTree, hword]
        · have hword := readWord_bigEndian 8 h rest
          simp [readTree, hword]

-- Negative numbers are written as their complement to a power of two.
theorem signed_complement (bits : Nat) {n : Int} (hlow : -(2 ^ bits : Nat) ≤ n) (hneg : n < 0) :
    signed (bits + 1) ((2 ^ (bits + 1) : Nat) + n).toNat = n := by
  have hpow : 2 ^ (bits + 1) = 2 * 2 ^ bits := Nat.pow_succ'
  simp only [signed, Nat.add_sub_cancel, Nat.one_shiftLeft, hpow]
  generalize 2 ^ bits = power at hlow ⊢
  rw [if_neg (by omega)]
  omega

theorem readTree_writeInt_negative {n : Int} (hlow : -0x8000000000000000 ≤ n) (hneg : n < 0)
    (rest : Bytes) :
    readTree nesting (fuel + 1) (writeInt n ++ rest) = some (.int n, rest) := by
  rw [writeInt, if_neg (by omega)]
  split
  · next hsize =>
    have htag : (0x100 + n).toNat.toUInt8.toNat = (0x100 + n).toNat := by
      simp
      omega
    have hvalue : ((0x100 + n).toNat : Int) - 256 = n := by omega
    rw [List.cons_append, List.nil_append, readTree, htag]
    simp only [if_neg (show ¬(0x100 + n).toNat < 0x80 by omega),
      if_neg (show ¬(0x100 + n).toNat < 0x90 by omega),
      if_neg (show ¬(0x100 + n).toNat < 0xA0 by omega),
      if_neg (show ¬(0x100 + n).toNat < 0xC0 by omega),
      if_pos (show 0xE0 ≤ (0x100 + n).toNat by omega), hvalue]
  · split
    · next hsize =>
      have hword := readWord_bigEndian 1 (n := (0x100 + n).toNat) (by omega) rest
      have hsigned : signed 8 (0x100 + n).toNat = n := signed_complement 7 hsize hneg
      simp [readTree, hword, hsigned]
    · split
      · next hsize =>
        have hword := readWord_bigEndian 2 (n := (0x10000 + n).toNat) (by omega) rest
        have hsigned : signed 16 (0x10000 + n).toNat = n :=
          signed_complement 15 hsize hneg
        simp [readTree, hword, hsigned]
      · split
        · next hsize =>
          have hword := readWord_bigEndian 4 (n := (0x100000000 + n).toNat) (by omega) rest
          have hsigned : signed 32 (0x100000000 + n).toNat = n :=
            signed_complement 31 hsize hneg
          simp [readTree, hword, hsigned]
        · have hword := readWord_bigEndian 8 (n := (0x10000000000000000 + n).toNat) (by omega) rest
          have hsigned : signed 64 (0x10000000000000000 + n).toNat = n :=
            signed_complement 63 hlow hneg
          simp [readTree, hword, hsigned]

theorem readTree_writeInt {n : Int} (h : Word.isSigned n = true ∨ Word.isUnsigned n = true)
    (rest : Bytes) : readTree nesting (fuel + 1) (writeInt n ++ rest) = some (.int n, rest) := by
  simp only [Word.isSigned, Word.isUnsigned, Bool.and_eq_true, decide_eq_true_eq] at h
  by_cases hneg : n < 0
  · exact readTree_writeInt_negative (by omega) hneg rest
  · obtain ⟨m, rfl⟩ := Int.eq_ofNat_of_zero_le (Int.not_lt.mp hneg)
    exact readTree_writeInt_natural (by omega) rest

theorem readTree_float (x : Double) (rest : Bytes) :
    readTree nesting (fuel + 1) (write (.float x) ++ rest) = some (.float x, rest) := by
  have hword := readWord_bigEndian 8 (n := x.bits.toNat) x.bits.toNat_lt rest
  simp [write, readTree, hword]

end Numbers

section Containers

-- The head of a container tells its size, in four bytes at most.
theorem readTree_writeListHead {size : Nat} (h : size < 0x100000000) {rest after : Bytes}
    {items : List Wire} (hread : readItems nesting fuel size rest = some (items, after)) :
    readTree (nesting + 1) (fuel + 1) (writeListHead size ++ rest) = some (.list items, after) := by
  unfold writeListHead
  split
  · next hsize =>
    have htag : (0x90 + size.toUInt8).toNat = 0x90 + size := by
      rw [UInt8.toNat_add]
      simp
      omega
    rw [List.cons_append, List.nil_append, readTree, htag]
    simp only [if_neg (show ¬0x90 + size < 0x80 by omega),
      if_neg (show ¬0x90 + size < 0x90 by omega),
      if_pos (show 0x90 + size < 0xA0 by omega), Nat.add_sub_cancel_left, hread, Option.map_some]
  · split
    · next hsize =>
      have hword := readWord_bigEndian 2 hsize rest
      simp [readTree, hword, hread]
    · have hword := readWord_bigEndian 4 h rest
      simp [readTree, hword, hread]

theorem readTree_writeMapHead {size : Nat} (h : size < 0x100000000) {rest after : Bytes}
    {entries : List (String × Wire)}
    (hread : readEntries nesting fuel size rest = some (some entries, after)) :
    readTree (nesting + 1) (fuel + 1) (writeMapHead size ++ rest) = some (.map entries, after) := by
  unfold writeMapHead
  split
  · next hsize =>
    have htag : (0x80 + size.toUInt8).toNat = 0x80 + size := by
      rw [UInt8.toNat_add]
      simp
      omega
    rw [List.cons_append, List.nil_append, readTree, htag]
    simp only [if_neg (show ¬0x80 + size < 0x80 by omega),
      if_pos (show 0x80 + size < 0x90 by omega),
      Nat.add_sub_cancel_left, hread, Option.map_some]
  · split
    · next hsize =>
      have hword := readWord_bigEndian 2 hsize rest
      simp [readTree, hword, hread]
    · have hword := readWord_bigEndian 4 h rest
      simp [readTree, hword, hread]

end Containers

-- A tree is read as it was written, whatever stands behind it. Each byte takes two steps at most.
def Rereads (w : Wire) : Prop :=
  ∀ nesting fuel rest, w.depth ≤ nesting → 2 * (write w).length ≤ fuel →
    readTree nesting fuel (write w ++ rest) = some (w, rest)

section Trees

theorem length_pos_of_readTree {bytes : Bytes} {w : Wire}
    (h : readTree nesting (fuel + 1) (bytes ++ []) = some (w, [])) : 0 < bytes.length := by
  refine Nat.pos_of_ne_zero fun hzero => ?_
  rw [List.eq_nil_of_length_eq_zero hzero, List.append_nil, readTree] at h
  cases h

theorem Rereads.length_pos {w : Wire} (h : Rereads w) : 0 < (write w).length := by
  refine Nat.pos_of_ne_zero fun hzero => ?_
  have hread := h w.depth 0 [] (Nat.le_refl _) (by omega)
  rw [readTree] at hread
  cases hread

-- A scalar is read in one step, so that it cannot be written as nothing.
theorem rereads_of_step {w : Wire}
    (hstep : ∀ nesting fuel rest, readTree nesting (fuel + 1) (write w ++ rest) = some (w, rest)) :
    Rereads w := by
  intro nesting fuel rest _ hfuel
  have hpos := length_pos_of_readTree (hstep 0 0 [])
  obtain ⟨fuel, rfl⟩ : ∃ k, fuel = k + 1 := ⟨fuel - 1, by omega⟩
  exact hstep nesting fuel rest

theorem readItems_write {items : List Wire} (h : ∀ w ∈ items, Rereads w)
    (hdepth : Wire.itemsDepth items ≤ nesting) (hfuel : 2 * (writeItems items).length < fuel)
    (rest : Bytes) :
    readItems nesting fuel items.length (writeItems items ++ rest) = some (items, rest) := by
  induction items generalizing fuel with
  | nil =>
      rw [List.length_nil, readItems]
      rfl
  | cons w others ih =>
      have hw := h w (List.mem_cons_self ..)
      have hpos := hw.length_pos
      rw [writeItems, List.length_append] at hfuel
      rw [Wire.itemsDepth] at hdepth
      obtain ⟨fuel, rfl⟩ : ∃ k, fuel = k + 1 := ⟨fuel - 1, by omega⟩
      rw [List.length_cons, readItems, writeItems, List.append_assoc]
      refine bind_eq_some_of (hw nesting fuel _ (by omega) (by omega)) ?_
      refine bind_eq_some_of (ih (fun w hw => h w (List.mem_cons_of_mem _ hw)) ?_ ?_) rfl
      all_goals omega

theorem readEntries_write {entries : List (String × Wire)}
    (hkeys : ∀ e ∈ entries, (Bytes.ofString e.1).length < 0x100000000)
    (h : ∀ e ∈ entries, Rereads e.2) (hdepth : Wire.entriesDepth entries ≤ nesting)
    (hfuel : 2 * (writeEntries entries).length < fuel) (rest : Bytes) :
    readEntries nesting fuel entries.length (writeEntries entries ++ rest) =
      some (some entries, rest) := by
  induction entries generalizing fuel with
  | nil =>
      rw [List.length_nil, readEntries]
      rfl
  | cons e others ih =>
      obtain ⟨key, w⟩ := e
      have hkey : (Bytes.ofString key).length < 0x100000000 :=
        hkeys (key, w) (List.mem_cons_self ..)
      have hw : Rereads w := h (key, w) (List.mem_cons_self ..)
      have hpos := length_pos_of_readTree (readTree_writeText hkey 0 0 [])
      rw [writeEntries, List.length_append, List.length_append] at hfuel
      rw [Wire.entriesDepth] at hdepth
      obtain ⟨fuel, rfl⟩ : ∃ k, fuel = k + 2 := ⟨fuel - 2, by omega⟩
      rw [List.length_cons, readEntries, writeEntries, List.append_assoc, List.append_assoc]
      refine bind_eq_some_of (readTree_writeText hkey nesting fuel _) ?_
      refine bind_eq_some_of (hw nesting (fuel + 1) _ (by omega) (by omega)) ?_
      refine bind_eq_some_of (ih (fun e he => hkeys e (List.mem_cons_of_mem _ he))
        (fun e he => h e (List.mem_cons_of_mem _ he)) ?_ ?_) rfl
      all_goals omega

theorem rereads_list {items : List Wire} (hsize : items.length < 0x100000000)
    (h : ∀ w ∈ items, Rereads w) : Rereads (.list items) := by
  intro nesting fuel rest hdepth hfuel
  rw [write, List.length_append] at hfuel
  have hpos : 0 < (writeListHead items.length).length := by
    unfold writeListHead
    split
    · exact Nat.one_pos
    · split <;> exact Nat.succ_pos _
  obtain ⟨fuel, rfl⟩ : ∃ k, fuel = k + 1 := ⟨fuel - 1, by omega⟩
  rw [Wire.depth] at hdepth
  obtain ⟨nesting, rfl⟩ : ∃ k, nesting = k + 1 := ⟨nesting - 1, by omega⟩
  rw [write, List.append_assoc]
  exact readTree_writeListHead hsize (readItems_write h (by omega) (by omega) rest)

theorem rereads_map {entries : List (String × Wire)} (hsize : entries.length < 0x100000000)
    (hkeys : ∀ e ∈ entries, (Bytes.ofString e.1).length < 0x100000000)
    (h : ∀ e ∈ entries, Rereads e.2) : Rereads (.map entries) := by
  intro nesting fuel rest hdepth hfuel
  rw [write, List.length_append] at hfuel
  have hpos : 0 < (writeMapHead entries.length).length := by
    unfold writeMapHead
    split
    · exact Nat.one_pos
    · split <;> exact Nat.succ_pos _
  obtain ⟨fuel, rfl⟩ : ∃ k, fuel = k + 1 := ⟨fuel - 1, by omega⟩
  rw [Wire.depth] at hdepth
  obtain ⟨nesting, rfl⟩ : ∃ k, nesting = k + 1 := ⟨nesting - 1, by omega⟩
  rw [write, List.append_assoc]
  exact readTree_writeMapHead hsize (readEntries_write hkeys h (by omega) (by omega) rest)

theorem rereads_of_plain {w : Wire} (hplain : w.Plain) (hshort : w.isShort = true) : Rereads w := by
  induction hplain with
  | null => exact rereads_of_step fun _ _ _ => by simp [write, readTree]
  | bool b => exact rereads_of_step fun _ _ _ => by cases b <;> simp [write, readTree]
  | int hn => exact rereads_of_step fun _ _ rest => readTree_writeInt hn rest
  | float _ => exact rereads_of_step fun _ _ rest => readTree_float _ rest
  | text s =>
      rw [Wire.isShort, decide_eq_true_eq] at hshort
      exact rereads_of_step fun nesting fuel rest => readTree_writeText hshort nesting fuel rest
  | list _ ih =>
      rw [Wire.isShort, Bool.and_eq_true, decide_eq_true_eq] at hshort
      obtain ⟨hsize, hitems⟩ := hshort
      exact rereads_list hsize fun w hw => ih w hw (Wire.isShort_of_mem hitems hw)
  | map _ ih =>
      rw [Wire.isShort, Bool.and_eq_true, decide_eq_true_eq] at hshort
      obtain ⟨hsize, hentries⟩ := hshort
      exact rereads_map hsize (fun e he => (Wire.isShort_of_mem_entries hentries he).1)
        fun e he => ih e he (Wire.isShort_of_mem_entries hentries he).2

-- The MessagePack form of a tree is read as that tree.
theorem read?_write {w : Wire} (hplain : w.Plain) (hshort : w.isShort = true)
    (hdepth : w.depth ≤ maxNesting) : read? (write w) = some w := by
  have hread := rereads_of_plain hplain hshort maxNesting (2 * (write w).length + 2) [] hdepth
    (by omega)
  rw [List.append_nil] at hread
  rw [read?, hread]
  rfl

end Trees

end DocStore.MessagePack
