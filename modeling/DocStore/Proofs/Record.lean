import Mathlib.Tactic.Ring
import DocStore.Proofs.Key
import DocStore.Identifier
import DocStore.Record

-- Texts read back as they were written, and with them the id of a document from its record.
namespace DocStore

namespace MessagePack

theorem ofBigEndian_bigEndian {count n : Nat} (h : n < 256 ^ count) :
    ofBigEndian (bigEndian count n) = n := by
  have hfold : ∀ count acc : Nat, (bigEndian count n).foldl (fun n b => 256 * n + b.toNat) acc =
      256 ^ count * acc + n % 256 ^ count := by
    intro count
    induction count with
    | zero => intro acc; simp [bigEndian, Nat.mod_one]
    | succ count ih =>
        intro acc
        have hbyte : ((n >>> (8 * count)) % 256).toUInt8.toNat = n / 256 ^ count % 256 := by
          rw [Nat.shiftRight_eq_div_pow, Nat.pow_mul]
          simp
        rw [bigEndian, List.foldl_cons, ih, hbyte, Nat.mod_pow_succ]
        ring
  rw [ofBigEndian, hfold, Nat.mul_zero, Nat.zero_add, Nat.mod_eq_of_lt h]

theorem length_bigEndian (count n : Nat) : (bigEndian count n).length = count := by
  induction count with
  | zero => rfl
  | succ count ih => rw [bigEndian, List.length_cons, ih]

theorem splitAt?_append (front back : Bytes) :
    splitAt? front.length (front ++ back) = some (front, back) := by
  simp [splitAt?, List.splitAt_eq]

theorem readWord_bigEndian (count : Nat) {n : Nat} (h : n < 256 ^ count) (rest : Bytes) :
    readWord count (bigEndian count n ++ rest) = some (n, rest) := by
  have hsplit := splitAt?_append (bigEndian count n) rest
  rw [length_bigEndian] at hsplit
  simp only [readWord, hsplit, Option.map_some, ofBigEndian_bigEndian h]

theorem readText_ofString (wrap : String → Wire) (s : String) (rest : Bytes) :
    readText wrap (Bytes.ofString s).length (Bytes.ofString s ++ rest) = some (wrap s, rest) := by
  simp only [readText, splitAt?_append, Option.map_some, Bytes.toString?_ofString, Option.elim]

-- Lengths are written in four bytes at most.
theorem readTree_writeText {s : String} (h : (Bytes.ofString s).length < 0x100000000)
    (nesting fuel : Nat) (rest : Bytes) :
    readTree nesting (fuel + 1) (writeText s ++ rest) = some (.text s, rest) := by
  simp only [writeText, List.append_assoc]
  split
  · next hsize =>
    have htag : (0xA0 + (Bytes.ofString s).length.toUInt8).toNat =
        0xA0 + (Bytes.ofString s).length := by
      rw [UInt8.toNat_add]
      simp
      omega
    rw [List.cons_append, List.nil_append, readTree, htag]
    rw [if_neg (by omega), if_neg (by omega), if_neg (by omega), if_pos (by omega),
      Nat.add_sub_cancel_left, readText_ofString]
  · split
    · next hsize =>
      have hword := readWord_bigEndian 1 hsize (Bytes.ofString s ++ rest)
      simp [readTree, hword, readText_ofString]
    · split
      · next hsize =>
        have hword := readWord_bigEndian 2 hsize (Bytes.ofString s ++ rest)
        simp [readTree, hword, readText_ofString]
      · have hword := readWord_bigEndian 4 h (Bytes.ofString s ++ rest)
        simp [readTree, hword, readText_ofString]

-- What is read of a map begins with the entry that was written first.
theorem head_of_readEntries {key value : String}
    (hkey : (Bytes.ofString key).length < 0x100000000)
    (hvalue : (Bytes.ofString value).length < 0x100000000) {nesting fuel size : Nat}
    {bytes rest : Bytes} {entries : Option (List (String × Wire))}
    (h : readEntries nesting (fuel + 2) (size + 1) (writeText key ++ (writeText value ++ bytes)) =
      some (entries, rest)) :
    entries = none ∨ ∃ more, entries = some ((key, .text value) :: more) := by
  simp only [readEntries, readTree_writeText hkey, readTree_writeText hvalue, bind,
    Option.bind_some] at h
  obtain ⟨⟨others, _⟩, -, h⟩ := Option.bind_eq_some_iff.mp h
  cases others with
  | none => exact .inl (congrArg Prod.fst (Option.some.inj h)).symm
  | some more => exact .inr ⟨more, (congrArg Prod.fst (Option.some.inj h)).symm⟩

theorem head_of_read?_write {key value : String}
    (hkey : (Bytes.ofString key).length < 0x100000000)
    (hvalue : (Bytes.ofString value).length < 0x100000000) {entries : List (String × Wire)}
    (hsize : entries.length < 15) {w : Wire}
    (h : read? (write (.map ((key, .text value) :: entries))) = some w) :
    w = .unreadable ∨ ∃ more, w = .map ((key, .text value) :: more) := by
  have hwrite : write (.map ((key, .text value) :: entries)) =
      (0x80 + (entries.length + 1).toUInt8) ::
        (writeText key ++ (writeText value ++ writeEntries entries)) := by
    rw [write, writeMapHead, List.length_cons, if_pos (by omega), writeEntries, write]
    simp
  have htag : (0x80 + (entries.length + 1).toUInt8).toNat = 0x80 + (entries.length + 1) := by
    rw [UInt8.toNat_add]
    simp
    omega
  have hfuel (bytes : Bytes) (b : UInt8) :
      2 * (b :: bytes).length + 2 = (2 * bytes.length + 1) + 2 + 1 := by
    rw [List.length_cons]
    omega
  rw [hwrite, read?, hfuel, maxNesting, readTree, htag] at h
  simp only [if_neg (show ¬0x80 + (entries.length + 1) < 0x80 by omega),
    if_pos (show 0x80 + (entries.length + 1) < 0x90 by omega), Nat.add_sub_cancel_left,
    Option.map_map] at h
  obtain ⟨⟨others, _⟩, hentries, h⟩ := Option.map_eq_some_iff.mp h
  rcases head_of_readEntries hkey hvalue hentries with rfl | ⟨more, rfl⟩
  · exact .inl h.symm
  · exact .inr ⟨more, h.symm⟩

end MessagePack

namespace Json

-- What a byte is written as is read as one piece.
def pieceOf (b : UInt8) : Piece :=
  if b < 0x20 ∧ b ∉ [0x08, 0x09, 0x0A, 0x0C, 0x0D] then .unit b.toNat else .byte b

theorem readPieces_control {high low : UInt8} {m n : Nat} (hhigh : hexValue? high = some m)
    (hlow : hexValue? low = some n) (rest : Bytes) :
    readPieces ([backslash, 0x75, 0x30, 0x30, high, low] ++ rest) =
      (readPieces rest).map (Piece.unit (16 * m + n)).before := by
  have hzero : hexValue? 0x30 = some 0 := rfl
  simp only [List.cons_append, List.nil_append]
  rw [readPieces.eq_def]
  simp [quote, backslash, hzero, hhigh, hlow]

theorem readPieces_escapeByte (b : UInt8) (rest : Bytes) :
    readPieces (escapeByte b ++ rest) = (readPieces rest).map (pieceOf b).before := by
  by_cases hplain : b ∈ [quote, backslash, 0x08, 0x09, 0x0A, 0x0C, 0x0D]
  · -- what has a letter of its own
    simp only [List.mem_cons, List.not_mem_nil, or_false] at hplain
    rcases hplain with rfl | rfl | rfl | rfl | rfl | rfl | rfl
    all_goals
      rw [readPieces.eq_def]
      rfl
  · simp only [List.mem_cons, List.not_mem_nil, or_false, not_or] at hplain
    obtain ⟨hquote, hbackslash, h8, h9, h10, h12, h13⟩ := hplain
    simp only [escapeByte, if_neg hquote, if_neg hbackslash, if_neg h8, if_neg h9, if_neg h10,
      if_neg h12, if_neg h13]
    split
    · next hlt =>
      have hnat : b.toNat < 32 := UInt8.lt_iff_toNat_lt.mp hlt
      have hhex : ∀ n < 32, hexValue? (Bytes.hexDigit (n / 16)).toNat.toUInt8 = some (n / 16) ∧
          hexValue? (Bytes.hexDigit (n % 16)).toNat.toUInt8 = some (n % 16) := by decide
      have hpiece : pieceOf b = .unit b.toNat := by
        rw [pieceOf, if_pos]
        simp [hlt, h8, h9, h10, h12, h13]
      obtain ⟨hhigh, hlow⟩ := hhex _ hnat
      rw [readPieces_control hhigh hlow, Nat.div_add_mod, hpiece]
    · next hge =>
      have hpiece : pieceOf b = .byte b := by rw [pieceOf, if_neg (fun h => hge h.1)]
      rw [hpiece, List.cons_append, List.nil_append, readPieces.eq_def]
      simp only [if_neg hquote, if_neg hbackslash, if_neg hge]

theorem joinPieces_unit {n : Nat} (hn : n < 0xD800) (rest : List Piece) :
    joinPieces (.unit n :: rest) = (joinPieces rest).map (bytesOfChar n ++ ·) := by
  match rest with
  | [] | .byte _ :: _ =>
      rw [joinPieces.eq_def]
      simp only [if_neg (show ¬(0xD800 ≤ n ∧ n < 0xE000) by omega)]
  | .unit _ :: _ =>
      rw [joinPieces.eq_def]
      simp only [if_neg (show ¬(0xD800 ≤ n ∧ n < 0xDC00) by omega),
        if_neg (show ¬(0xDC00 ≤ n ∧ n < 0xE000) by omega)]

theorem joinPieces_pieceOf (bytes : Bytes) : joinPieces (bytes.map pieceOf) = some bytes := by
  have hchar : ∀ n < 32, bytesOfChar n = [n.toUInt8] := by
    have hencode : ∀ n < 32, String.utf8EncodeChar (Char.ofNat n) = [n.toUInt8] := by decide
    intro n hn
    rw [bytesOfChar, Bytes.ofString_eq, String.toList_singleton, List.flatMap_singleton,
      hencode n hn]
  induction bytes with
  | nil => rfl
  | cons b bytes ih =>
      rw [List.map_cons, pieceOf]
      split
      · next hcontrol =>
        have hlt : b.toNat < 32 := UInt8.lt_iff_toNat_lt.mp hcontrol.1
        rw [joinPieces_unit (by omega), ih, hchar _ hlt]
        simp
      · rw [joinPieces, ih, Option.map_some]

-- Behind its opening quote, a text is read as it was written.
theorem readText_escape (s : String) (rest : Bytes) :
    readText ((Bytes.ofString s).flatMap escapeByte ++ quote :: rest) = some (some s, rest) := by
  have hpieces : ∀ bytes : Bytes, readPieces (bytes.flatMap escapeByte ++ quote :: rest) =
      some (bytes.map pieceOf, rest) := by
    intro bytes
    induction bytes with
    | nil =>
        rw [List.flatMap_nil, List.nil_append, readPieces.eq_def]
        exact if_pos rfl
    | cons b bytes ih =>
        rw [List.flatMap_cons, List.append_assoc, readPieces_escapeByte, ih]
        rfl
  simp [readText, hpieces, joinPieces_pieceOf]

theorem skipBlanks_of_not_isBlank {b : UInt8} (h : isBlank b = false) (rest : Bytes) :
    skipBlanks (b :: rest) = b :: rest := by
  simp [skipBlanks, h]

theorem readTree_writeText (s : String) (fuel : Nat) (rest : Bytes) :
    readTree (fuel + 1) (writeText s ++ rest) = some (.text s, rest) := by
  have htext := readText_escape s rest
  simp only [writeText, List.cons_append, List.append_assoc, List.nil_append]
  rw [readTree, skipBlanks_of_not_isBlank (by decide)]
  simp only [if_pos, htext, Option.map_some, Option.elim]

theorem head_of_readEntries {key value : String} {fuel : Nat} {bytes rest : Bytes}
    {entries : Option (List (String × Wire))}
    (h : readEntries (fuel + 2) (writeText key ++ colon :: (writeText value ++ bytes)) =
      some (entries, rest)) :
    entries = none ∨ ∃ more, entries = some ((key, .text value) :: more) := by
  have htext := readText_escape key (colon :: (writeText value ++ bytes))
  have hkey : writeText key ++ colon :: (writeText value ++ bytes) =
      quote :: ((Bytes.ofString key).flatMap escapeByte ++
        quote :: colon :: (writeText value ++ bytes)) := by
    simp [writeText]
  rw [hkey, readEntries, skipBlanks_of_not_isBlank (by decide)] at h
  simp only [ne_eq, not_true_eq_false, if_false, htext, bind, Option.bind_some,
    skipBlanks_of_not_isBlank (show isBlank colon = false by decide), readTree_writeText] at h
  split at h
  · cases h
  · next b after _ =>
    split at h
    · exact .inr ⟨[], (congrArg Prod.fst (Option.some.inj h)).symm⟩
    · split at h
      · obtain ⟨⟨others, _⟩, -, h⟩ := Option.bind_eq_some_iff.mp h
        cases others with
        | none => exact .inl (congrArg Prod.fst (Option.some.inj h)).symm
        | some more => exact .inr ⟨more, (congrArg Prod.fst (Option.some.inj h)).symm⟩
      · cases h

theorem head_of_read?_write {key value : String} {entries : List (String × Wire)} {w : Wire}
    (h : read? (write (.map ((key, .text value) :: entries))) = some w) :
    w = .unreadable ∨ ∃ more, w = .map ((key, .text value) :: more) := by
  obtain ⟨tail, hwrite⟩ : ∃ tail, write (.map ((key, .text value) :: entries)) =
      openMap :: (writeText key ++ colon :: (writeText value ++ tail)) := by
    cases entries with
    | nil => exact ⟨[closeMap], by simp [write, writeEntries]⟩
    | cons e entries =>
        exact ⟨comma :: writeEntries (e :: entries) ++ [closeMap], by simp [write, writeEntries]⟩
  have hfuel (bytes : Bytes) (b : UInt8) :
      2 * (b :: bytes).length + 2 = (2 * bytes.length + 1) + 2 + 1 := by
    rw [List.length_cons]
    omega
  obtain ⟨first, hfirst⟩ : ∃ first, writeText key ++ colon :: (writeText value ++ tail) =
      quote :: first := ⟨_, rfl⟩
  rw [hwrite, read?, hfuel, readTree, skipBlanks_of_not_isBlank (by decide)] at h
  simp only [if_neg (show openMap ≠ quote by decide), if_neg (show openMap ≠ openList by decide),
    if_pos] at h
  rw [hfirst, skipBlanks_of_not_isBlank (by decide)] at h
  simp only [if_neg (show quote ≠ closeMap by decide)] at h
  split at h
  · next read rest hread =>
    obtain ⟨⟨others, _⟩, hothers, hread⟩ := Option.map_eq_some_iff.mp hread
    obtain ⟨-, rfl⟩ : _ ∧ read = w := by
      split at h
      · next hblank => exact ⟨hblank, Option.some.inj h⟩
      · cases h
    rw [← hfirst] at hothers
    rcases head_of_readEntries hothers with rfl | ⟨more, rfl⟩
    · exact .inl (congrArg Prod.fst hread).symm
    · exact .inr ⟨more, (congrArg Prod.fst hread).symm⟩
  · cases h

end Json

namespace Wire

theorem head_of_record? {name : String} {names : List String} {w : Wire}
    {entries : List (String × Wire)} {parts : List (Option Wire)}
    (h : record? (name :: names) (.map ((name, w) :: entries)) = some parts) :
    parts.head? = some (some w) := by
  simp only [record?] at h
  split at h
  · rw [← Option.some.inj h]
    simp
  · cases h

end Wire

namespace Document

theorem id_of_ofWire? {nesting : Nat} {id : String} {entries : List (String × Wire)}
    {d : Document} (h : ofWire? nesting (.map (("id", .text id) :: entries)) = some d) :
    d.id = id := by
  simp only [ofWire?, bind, Option.bind_eq_some_iff] at h
  obtain ⟨parts, hparts, h⟩ := h
  have hhead := Wire.head_of_record? hparts
  split at h
  · simp only [List.head?_cons, Option.some.injEq] at hhead
    subst hhead
    simp only [Option.bind_eq_some_iff, Wire.text?, Option.some.injEq, exists_eq_left'] at h
    obtain ⟨_, -, _, -, _, -, h⟩ := h
    split at h
    all_goals
      simp only [Option.bind_eq_some_iff, Option.some.injEq] at h
      obtain ⟨_, -, _, -, _, -, rfl⟩ := h
      rfl
  · cases h

end Document

theorem Identifier.length_le_of_check {label name : String} (h : check label name = .ok ()) :
    (Bytes.ofString name).length ≤ maxBytes := by
  unfold check at h
  split at h
  · next hnone =>
    unfold fault? at hnone
    split at hnone
    · cases hnone
    · split at hnone
      · cases hnone
      · next hle => exact Bytes.length_ofString name ▸ Nat.not_lt.mp hle
  · cases h

-- A record names the document that was written, if it can be read at all.
theorem Record.id_of_decode {encoding : Encoding} {doc d : Document}
    (hid : (Bytes.ofString doc.id).length < 0x100000000)
    (h : decode (encode encoding doc) = .ok d) : d.id = doc.id := by
  obtain ⟨entries, hsize, hwire⟩ : ∃ entries, entries.length < 15 ∧
      doc.toWire = .map (("id", .text doc.id) :: entries) := by
    refine ⟨_, ?_, rfl⟩
    obtain ⟨id, model, version, history, val, status, mutations⟩ := doc
    cases version <;> cases history <;> cases status <;> cases mutations <;>
      exact Nat.le_of_ble_eq_true rfl
  have hname : (Bytes.ofString "id").length < 0x100000000 := by
    rw [Bytes.ofString_eq]
    decide
  have hread : ∀ nesting w, (w = .unreadable ∨ ∃ more, w = .map (("id", .text doc.id) :: more)) →
      Document.ofWire? nesting w = some d → d.id = doc.id := by
    rintro nesting _ (rfl | ⟨more, rfl⟩) hd
    · cases hd
    · exact Document.id_of_ofWire? hd
  cases encoding with
  | json =>
      simp only [decode, encode, if_pos, hwire] at h
      split at h
      · next found hfound =>
        obtain rfl : found = d := Except.ok.inj h
        obtain ⟨w, hw, hdoc⟩ := Option.bind_eq_some_iff.mp hfound
        exact hread _ w (Json.head_of_read?_write hw) hdoc
      · cases h
  | messagePack =>
      have htag : tag .messagePack ≠ tag .json := by decide
      simp only [decode, encode, if_neg htag, if_pos, hwire] at h
      split at h
      · next found hfound =>
        obtain rfl : found = d := Except.ok.inj h
        obtain ⟨w, hw, hdoc⟩ := Option.bind_eq_some_iff.mp hfound
        exact hread _ w (MessagePack.head_of_read?_write hname hid hsize hw) hdoc
      · cases h

end DocStore
