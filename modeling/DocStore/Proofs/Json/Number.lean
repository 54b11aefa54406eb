import Mathlib
import DocStore.Proofs.Double.Shortest
import DocStore.Proofs.Record
import DocStore.Proofs.Timestamp

-- Numbers are read from JSON as they were written.
namespace DocStore.Json

open Text

section Digits

-- The bytes of a text that has no other characters than ASCII.
def ascii (text : List Char) : Bytes := text.map fun c => c.toNat.toUInt8

theorem ofString_ascii {text : List Char} (h : ∀ c ∈ text, c.toNat < 128) :
    Bytes.ofString (String.ofList text) = ascii text := by
  rw [Bytes.ofString_eq, String.toList_ofList]
  induction text with
  | nil => rfl
  | cons c text ih =>
      have hc : c.utf8Size = 1 := by
        rw [Char.utf8Size_eq_one_iff, UInt32.le_iff_toNat_le]
        exact Nat.le_of_lt_succ (h c (List.mem_cons_self ..))
      rw [List.flatMap_cons, String.utf8EncodeChar_eq_singleton hc,
        ih fun d hd => h d (List.mem_cons_of_mem _ hd)]
      rfl

theorem toNat_of_isDigit {c : Char} (h : c.isDigit = true) : 48 ≤ c.toNat ∧ c.toNat ≤ 57 := by
  simp only [Char.isDigit, Bool.and_eq_true, decide_eq_true_eq] at h
  exact ⟨UInt32.le_iff_toNat_le.mp h.1, UInt32.le_iff_toNat_le.mp h.2⟩

theorem toNat_byte {c : Char} (h : c.isDigit = true) : c.toNat.toUInt8.toNat = c.toNat := by
  have hdigit := toNat_of_isDigit h
  rw [Nat.toUInt8_eq, UInt8.toNat_ofNat']
  omega

theorem isDigit_byte {c : Char} (h : c.isDigit = true) : isDigit c.toNat.toUInt8 = true := by
  have hdigit := toNat_of_isDigit h
  simp only [isDigit, Bool.and_eq_true, decide_eq_true_eq, UInt8.le_iff_toNat_le, toNat_byte h]
  exact hdigit

theorem digitsOf_ascii {ds : List Char} (hds : ∀ c ∈ ds, c.isDigit = true) :
    digitsOf (ascii ds) = digitsValue ds := by
  have hfold : ∀ n, (ascii ds).foldl (fun n b => 10 * n + (b.toNat - 0x30)) n =
      ds.foldl (fun n c => 10 * n + (c.toNat - 48)) n := by
    induction ds with
    | nil => exact fun _ => rfl
    | cons c ds ih =>
        intro n
        have hc := toNat_byte (hds c (List.mem_cons_self ..))
        have hrest := ih fun d hd => hds d (List.mem_cons_of_mem _ hd)
        rw [ascii, List.map_cons, List.foldl_cons, List.foldl_cons, hc]
        exact hrest _
  exact hfold 0

theorem readDigits_append {ds : List Char} {rest : Bytes} (hne : ds ≠ [])
    (hds : ∀ c ∈ ds, c.isDigit = true) (hrest : ∀ b ∈ rest.head?, isDigit b = false) :
    readDigits (ascii ds ++ rest) = some (ascii ds, rest) := by
  have hall : ∀ b ∈ ascii ds, isDigit b = true := by
    intro b hb
    obtain ⟨c, hc, rfl⟩ := List.mem_map.mp hb
    exact isDigit_byte (hds c hc)
  have htake : rest.takeWhile isDigit = [] ∧ rest.dropWhile isDigit = rest := by
    cases rest with
    | nil => exact ⟨rfl, rfl⟩
    | cons b rest => simp [hrest b rfl]
  rw [readDigits, List.takeWhile_append_of_pos hall, List.dropWhile_append_of_pos hall, htake.1,
    htake.2, List.append_nil]
  obtain ⟨c, ds, rfl⟩ := List.exists_cons_of_ne_nil hne
  rfl

-- The digits of a positive number start with another one than zero.
theorem head_toDigits {n : Nat} (h : n ≠ 0) : (Nat.toDigits 10 n).head? ≠ some '0' := by
  induction n using Nat.strongRecOn with
  | ind n ih =>
      rcases Nat.lt_or_ge n 10 with hlt | hge
      · rw [Nat.toDigits_of_lt_base hlt]
        interval_cases n
        · exact absurd rfl h
        all_goals decide
      · rw [Nat.toDigits_of_base_le (by decide) hge,
          List.head?_append_of_ne_nil _ Nat.toDigits_ne_nil]
        exact ih (n / 10) (by omega) (by omega)

end Digits

section Numerals

-- A number without its sign: a whole part, a fraction or none, and an exponent or none.
structure Layout where
  whole : List Char
  fraction : List Char
  exponent : Option Int

namespace Layout

def exponentText (e : Int) : List Char :=
  'e' :: (if e < 0 then '-' else '+') :: Nat.toDigits 10 e.natAbs

def text (l : Layout) : List Char :=
  l.whole ++ ((if l.fraction = [] then [] else '.' :: l.fraction) ++ l.exponent.elim [] exponentText)

def numeral (l : Layout) (negative : Bool) : Numeral :=
  ⟨negative, ascii l.whole, if l.fraction = [] then none else some (ascii l.fraction), l.exponent⟩

def decimal (l : Layout) : Decimal :=
  ⟨digitsValue (l.whole ++ l.fraction), l.exponent.getD 0 - l.fraction.length⟩

-- Digits without superfluous zeros in front.
structure Regular (l : Layout) : Prop where
  whole_ne : l.whole ≠ []
  whole : ∀ c ∈ l.whole, c.isDigit = true
  fraction : ∀ c ∈ l.fraction, c.isDigit = true
  leading : l.whole.length = 1 ∨ l.whole.head? ≠ some '0'

end Layout

-- What may stand behind a number in a tree.
def Closes (rest : Bytes) : Prop := ∀ b ∈ rest.head?, b = comma ∨ b = closeList ∨ b = closeMap

-- Reads a number behind its fraction.
def readPower (negative : Bool) (whole : Bytes) (fraction : Option Bytes) (bytes : Bytes) :
    Option (Numeral × Bytes) := do
  let (exponent, rest) ← match bytes with
    | b :: after =>
      if b = 0x65 ∨ b = 0x45 then (readExponent after).map (fun (e, rest) => (some e, rest))
      else some (none, bytes)
    | [] => some (none, [])
  some (⟨negative, whole, fraction, exponent⟩, rest)

-- Reads a number behind its whole part.
def readFraction (negative : Bool) (whole bytes : Bytes) : Option (Numeral × Bytes) := do
  let (fraction, rest) ← match bytes with
    | 0x2E :: rest => (readDigits rest).map (fun (digits, rest) => (some digits, rest))
    | _ => some (none, bytes)
  readPower negative whole fraction rest

-- Reads a number behind its sign.
def readUnsigned (negative : Bool) (bytes : Bytes) : Option (Numeral × Bytes) := do
  let (whole, rest) ← readDigits bytes
  if whole.length ≠ 1 ∧ whole.head? = some 0x30 then none else readFraction negative whole rest

theorem readNumeral_digit {b : UInt8} (h : b ≠ 0x2D) (rest : Bytes) :
    readNumeral (b :: rest) = readUnsigned false (b :: rest) := by
  rw [readNumeral]
  simp only [if_neg h]
  rfl

theorem Closes.not_isDigit {rest : Bytes} (h : Closes rest) :
    ∀ b ∈ rest.head?, isDigit b = false := by
  intro b hb
  rcases h b hb with rfl | rfl | rfl <;> rfl

theorem readExponent_append (e : Int) {rest : Bytes} (hrest : Closes rest) :
    readExponent (ascii ((if e < 0 then '-' else '+') :: Nat.toDigits 10 e.natAbs) ++ rest) =
      some (e, rest) := by
  have hdigits : ∀ c ∈ Nat.toDigits 10 e.natAbs, c.isDigit = true :=
    fun c hc => Nat.isDigit_of_mem_toDigits (by decide) (by decide) hc
  have hread := readDigits_append Nat.toDigits_ne_nil hdigits hrest.not_isDigit
  have hvalue : digitsOf (ascii (Nat.toDigits 10 e.natAbs)) = e.natAbs := by
    rw [digitsOf_ascii hdigits, digitsValue_toDigits]
  split
  · next hneg =>
    have hsign : ascii ('-' :: Nat.toDigits 10 e.natAbs) ++ rest =
        0x2D :: (ascii (Nat.toDigits 10 e.natAbs) ++ rest) := rfl
    rw [hsign, readExponent]
    simp only [if_neg (show ¬(0x2D : UInt8) = 0x2B by decide), if_pos, hread, Option.map_some, hvalue]
    rw [show -(e.natAbs : Int) = e by omega]
  · next hpos =>
    have hsign : ascii ('+' :: Nat.toDigits 10 e.natAbs) ++ rest =
        0x2B :: (ascii (Nat.toDigits 10 e.natAbs) ++ rest) := rfl
    rw [hsign, readExponent]
    simp only [if_pos, hread, Option.map_some, hvalue, Bool.false_eq_true, if_false]
    rw [show (e.natAbs : Int) = e by omega]

theorem readPower_append (negative : Bool) (whole : Bytes) (fraction : Option Bytes)
    (exponent : Option Int) {rest : Bytes} (hrest : Closes rest) :
    readPower negative whole fraction (ascii (exponent.elim [] Layout.exponentText) ++ rest) =
      some (⟨negative, whole, fraction, exponent⟩, rest) := by
  cases exponent with
  | some e =>
      have hbytes : ascii (Layout.exponentText e) ++ rest = 0x65 ::
          (ascii ((if e < 0 then '-' else '+') :: Nat.toDigits 10 e.natAbs) ++ rest) := rfl
      rw [Option.elim_some, hbytes, readPower]
      simp only [true_or, if_true, readExponent_append e hrest, Option.map_some]
      rfl
  | none =>
      cases rest with
      | nil => rfl
      | cons b rest => rcases hrest b rfl with rfl | rfl | rfl <;> rfl

theorem readFraction_append (negative : Bool) (whole : Bytes) {fraction : List Char}
    (hfraction : ∀ c ∈ fraction, c.isDigit = true) (exponent : Option Int) {rest : Bytes}
    (hrest : Closes rest) :
    readFraction negative whole (ascii (if fraction = [] then [] else '.' :: fraction) ++
        (ascii (exponent.elim [] Layout.exponentText) ++ rest)) =
      some (⟨negative, whole, if fraction = [] then none else some (ascii fraction), exponent⟩,
        rest) := by
  have hpower := fun frac => readPower_append negative whole frac exponent hrest
  have htail : ∀ b ∈ (ascii (exponent.elim [] Layout.exponentText) ++ rest).head?,
      b = 0x65 ∨ b = comma ∨ b = closeList ∨ b = closeMap := by
    cases exponent with
    | some e =>
        rintro _ ⟨⟩
        exact .inl rfl
    | none => exact fun b hb => .inr (hrest b hb)
  generalize ascii (exponent.elim [] Layout.exponentText) ++ rest = tail at hpower htail
  by_cases hfrac : fraction = []
  · rw [if_pos hfrac, if_pos hfrac]
    cases tail with
    | nil => exact hpower none
    | cons b tail => rcases htail b rfl with rfl | rfl | rfl | rfl <;> exact hpower none
  · have hdigit : ∀ b ∈ tail.head?, isDigit b = false := by
      intro b hb
      rcases htail b hb with rfl | rfl | rfl | rfl <;> rfl
    have hread := readDigits_append hfrac hfraction hdigit
    rw [if_neg hfrac, if_neg hfrac]
    refine bind_eq_some_of (a := (some (ascii fraction), tail)) ?_ (hpower (some (ascii fraction)))
    exact congrArg (Option.map _) hread

-- What is written as a regular number is read as the same digits.
theorem readUnsigned_text {l : Layout} (h : l.Regular) (negative : Bool) {rest : Bytes}
    (hrest : Closes rest) :
    readUnsigned negative (ascii l.text ++ rest) = some (l.numeral negative, rest) := by
  have hbytes : ascii l.text ++ rest = ascii l.whole ++
      (ascii (if l.fraction = [] then [] else '.' :: l.fraction) ++
        (ascii (l.exponent.elim [] Layout.exponentText) ++ rest)) := by
    simp [Layout.text, ascii]
  have hdigit : ∀ b ∈ (ascii (if l.fraction = [] then [] else '.' :: l.fraction) ++
      (ascii (l.exponent.elim [] Layout.exponentText) ++ rest)).head?, isDigit b = false := by
    split
    · cases l.exponent with
      | some e =>
          rintro _ ⟨⟩
          rfl
      | none => exact hrest.not_isDigit
    · rintro _ ⟨⟩
      rfl
  have hzero : ¬((ascii l.whole).length ≠ 1 ∧ (ascii l.whole).head? = some 0x30) := by
    rintro ⟨hlength, hhead⟩
    obtain ⟨c, others, hcons⟩ := List.exists_cons_of_ne_nil h.whole_ne
    have hc := h.whole c (hcons ▸ List.mem_cons_self ..)
    have hleading := h.leading
    rw [hcons] at hlength hhead hleading
    have hbyte : c.toNat.toUInt8 = 0x30 := Option.some.inj hhead
    have hnat : c.toNat = 48 := by
      rw [← toNat_byte hc, hbyte]
      rfl
    obtain rfl : c = '0' := Char.toNat_inj.mp hnat
    exact hleading.elim (fun h => hlength (by simpa [ascii] using h)) fun h => h rfl
  rw [hbytes]
  refine bind_eq_some_of (readDigits_append h.whole_ne h.whole hdigit) ?_
  exact (if_neg hzero).trans (readFraction_append negative _ h.fraction _ hrest)

-- A sign may stand in front.
def signed (negative : Bool) (l : Layout) : List Char := (if negative then ['-'] else []) ++ l.text

theorem readNumeral_signed {l : Layout} (h : l.Regular) (negative : Bool) {rest : Bytes}
    (hrest : Closes rest) :
    readNumeral (ascii (signed negative l) ++ rest) = some (l.numeral negative, rest) := by
  have hread := readUnsigned_text h negative hrest
  cases negative with
  | true => exact hread
  | false =>
      obtain ⟨c, others, hcons⟩ := List.exists_cons_of_ne_nil h.whole_ne
      have hc := h.whole c (hcons ▸ List.mem_cons_self ..)
      have hminus : c.toNat.toUInt8 ≠ 0x2D := by
        intro heq
        have hdigit := isDigit_byte hc
        rw [heq] at hdigit
        cases hdigit
      obtain ⟨tail, htail⟩ : ∃ tail, ascii l.text ++ rest = c.toNat.toUInt8 :: tail := by
        rw [Layout.text, hcons]
        exact ⟨_, rfl⟩
      have hsigned : ascii (signed false l) ++ rest = ascii l.text ++ rest := rfl
      rw [hsigned, ← hread, htail, readNumeral_digit hminus]

theorem decimal_numeral {l : Layout} (h : l.Regular) (negative : Bool) :
    (l.numeral negative).decimal = l.decimal := by
  have hdigits : ∀ c ∈ l.whole ++ l.fraction, c.isDigit = true := fun c hc =>
    (List.mem_append.mp hc).elim (h.whole c) (h.fraction c)
  have hfraction : (if l.fraction = [] then none else some (ascii l.fraction)).getD [] =
      ascii l.fraction := by
    split
    · next hnil =>
      rw [hnil]
      rfl
    · rfl
  have hwhole : ascii l.whole ++ ascii l.fraction = ascii (l.whole ++ l.fraction) :=
    (List.map_append ..).symm
  simp only [Numeral.decimal, Layout.numeral, Layout.decimal, hfraction, hwhole,
    digitsOf_ascii hdigits]
  rw [ascii, List.length_map]

-- The characters of a number are few.
theorem toNat_of_mem_signed {l : Layout} (h : l.Regular) (negative : Bool) {c : Char}
    (hc : c ∈ signed negative l) : c.toNat < 128 := by
  have hdigit : ∀ {c : Char}, c.isDigit = true → c.toNat < 128 := fun hc =>
    Nat.lt_of_le_of_lt (toNat_of_isDigit hc).2 (by decide)
  have hsplit : c ∈ (if negative then ['-'] else []) ∨ c ∈ l.whole ∨
      c ∈ (if l.fraction = [] then [] else '.' :: l.fraction) ∨
      c ∈ l.exponent.elim [] Layout.exponentText := by
    simpa [signed, Layout.text] using hc
  rcases hsplit with hc | hc | hc | hc
  · split at hc
    · rw [List.mem_singleton.mp hc]
      decide
    · cases hc
  · exact hdigit (h.whole c hc)
  · split at hc
    · cases hc
    · rcases List.mem_cons.mp hc with rfl | hc
      · decide
      · exact hdigit (h.fraction c hc)
  · cases he : l.exponent with
    | none =>
        rw [he] at hc
        cases hc
    | some e =>
        rw [he] at hc
        rcases List.mem_cons.mp hc with rfl | hc
        · decide
        · rcases List.mem_cons.mp hc with rfl | hc
          · split <;> decide
          · exact hdigit (Nat.isDigit_of_mem_toDigits (by decide) (by decide) hc)

end Numerals

section Integers

theorem isDigit_of_mem_toDigits {n : Nat} {c : Char} (h : c ∈ Nat.toDigits 10 n) :
    c.isDigit = true := Nat.isDigit_of_mem_toDigits (by decide) (by decide) h

theorem regular_toDigits (n : Nat) : Layout.Regular ⟨Nat.toDigits 10 n, [], none⟩ where
  whole_ne := Nat.toDigits_ne_nil
  whole := fun c hc => isDigit_of_mem_toDigits hc
  fraction := by simp
  leading := by
    by_cases h : n = 0
    · subst h
      exact .inl rfl
    · exact .inr (head_toDigits h)

theorem toString_int (n : Int) : toString n =
    String.ofList (signed (decide (n < 0)) ⟨Nat.toDigits 10 n.natAbs, [], none⟩) := by
  cases n with
  | ofNat m =>
      have hnot : ¬(Int.ofNat m < 0) := Int.not_lt.mpr (Int.natCast_nonneg m)
      simp only [signed, Layout.text, hnot, decide_false, Bool.false_eq_true, if_false, if_true,
        Option.elim_none, List.append_nil, List.nil_append]
      rfl
  | negSucc m =>
      simp only [signed, Layout.text, Int.negSucc_lt_zero, decide_true, if_true, Option.elim_none,
        List.append_nil]
      rw [String.ofList_append]
      rfl

-- Integers of 64 bits, with a sign or without one, are told from floats.
theorem readNumeral_int {n : Int} (h : Word.isSigned n = true ∨ Word.isUnsigned n = true)
    {rest : Bytes} (hrest : Closes rest) :
    ∃ m, readNumeral (Bytes.ofString (toString n) ++ rest) = some (m, rest) ∧
      m.toWire = .int n := by
  have hregular := regular_toDigits n.natAbs
  refine ⟨Layout.numeral ⟨Nat.toDigits 10 n.natAbs, [], none⟩ (decide (n < 0)), ?_, ?_⟩
  · rw [toString_int, ofString_ascii fun c hc => toNat_of_mem_signed hregular _ hc]
    exact readNumeral_signed hregular _ hrest
  · have hvalue : digitsOf (ascii (Nat.toDigits 10 n.natAbs)) = n.natAbs := by
      rw [digitsOf_ascii fun c hc => isDigit_of_mem_toDigits hc, digitsValue_toDigits]
    simp only [Word.isSigned, Word.isUnsigned, Bool.and_eq_true, decide_eq_true_eq] at h
    simp only [Numeral.toWire, Layout.numeral, hvalue, if_true, Option.isNone_none, Bool.and_self,
      Bool.true_and]
    by_cases hneg : n < 0
    · simp only [hneg, decide_true, Bool.not_true, Bool.false_and, Bool.false_eq_true, if_false,
        Bool.true_and, Word.isSigned]
      rw [show -(n.natAbs : Int) = n by omega, if_pos]
      simp only [Bool.and_eq_true, decide_eq_true_eq]
      omega
    · simp only [hneg, decide_false, Bool.not_false, Bool.true_and, Word.isUnsigned]
      rw [show (n.natAbs : Int) = n by omega, if_pos]
      simp only [Bool.and_eq_true, decide_eq_true_eq]
      omega

end Integers

section Floats

theorem layout_numbers (d : Decimal) :
    let ds := Nat.toDigits 10 d.digits
    let leading : Int := d.exp + ds.length - 1
    d.layout numbers =
      if -5 ≤ leading ∧ leading < 16 then
        if 0 ≤ d.exp then ds ++ List.replicate d.exp.toNat '0' ++ ['.', '0']
        else if 0 ≤ leading then
          ds.take (leading.toNat + 1) ++ '.' :: ds.drop (leading.toNat + 1)
        else '0' :: '.' :: List.replicate (-leading - 1).toNat '0' ++ ds
      else
        Layout.text ⟨ds.take 1, ds.drop 1, some leading⟩ := by
  intro ds leading
  simp only [Decimal.layout, numbers, Option.all_some, if_true, Bool.and_eq_true,
    decide_eq_true_eq]
  refine if_congr Iff.rfl ?_ ?_
  · rfl
  · simp only [Layout.text, Option.elim_some, Layout.exponentText, List.append_assoc]
    cases (Nat.toDigits 10 d.digits).drop 1 <;> rfl

-- A layout of a positive number, which does not look like an integer.
structure Layout.Spells (l : Layout) (d : Decimal) : Prop where
  regular : l.Regular
  form : l.fraction ≠ [] ∨ l.exponent ≠ none
  value : l.decimal.value = d.value

section Forms

variable {d : Decimal} {ds : List Char}

theorem isDigit_of_mem_zeros {n : Nat} {c : Char} (h : c ∈ List.replicate n '0') :
    c.isDigit = true := by
  rw [List.eq_of_mem_replicate h]
  rfl

theorem spells_whole (hdigits : ∀ c ∈ ds, c.isDigit = true) (hne : ds ≠ [])
    (hhead : ds.head? ≠ some '0') (hvalue : digitsValue ds = d.digits) (hexp : 0 ≤ d.exp) :
    Layout.Spells ⟨ds ++ List.replicate d.exp.toNat '0', ['0'], none⟩ d where
  regular := {
    whole_ne := List.append_ne_nil_of_left_ne_nil hne _
    whole := fun c hc => (List.mem_append.mp hc).elim (hdigits c) isDigit_of_mem_zeros
    fraction := by simp
    leading := .inr (by rwa [List.head?_append_of_ne_nil _ hne]) }
  form := .inl (List.cons_ne_nil _ _)
  value := by
    have hzero : digitsValue ['0'] = 0 := rfl
    simp only [Layout.decimal, digitsValue_append, digitsValue_zeros, hvalue, hzero,
      Decimal.value, Option.getD_none, List.length_singleton, List.length_replicate]
    push_cast
    rw [← zpow_natCast, Int.toNat_of_nonneg hexp]
    norm_num
    ring

theorem spells_split (hdigits : ∀ c ∈ ds, c.isDigit = true) (hhead : ds.head? ≠ some '0')
    (hvalue : digitsValue ds = d.digits) {n : Nat} (hn : n + 1 < ds.length)
    (hexp : d.exp = n + 1 - ds.length) :
    Layout.Spells ⟨ds.take (n + 1), ds.drop (n + 1), none⟩ d where
  regular := {
    whole_ne := by
      rw [ne_eq, List.take_eq_nil_iff, not_or]
      exact ⟨Nat.succ_ne_zero n, List.ne_nil_of_length_pos (by omega)⟩
    whole := fun c hc => hdigits c (List.mem_of_mem_take hc)
    fraction := fun c hc => hdigits c (List.mem_of_mem_drop hc)
    leading := .inr (by rwa [List.head?_take, if_neg (Nat.succ_ne_zero n)]) }
  form := .inl (by
    rw [ne_eq, List.drop_eq_nil_iff]
    omega)
  value := by
    simp only [Layout.decimal, List.take_append_drop, hvalue, Decimal.value, Option.getD_none,
      List.length_drop, hexp]
    congr 2
    omega

theorem spells_small (hdigits : ∀ c ∈ ds, c.isDigit = true) (hne : ds ≠ [])
    (hvalue : digitsValue ds = d.digits) {n : Nat} (hexp : d.exp = -(n + ds.length : Int)) :
    Layout.Spells ⟨['0'], List.replicate n '0' ++ ds, none⟩ d where
  regular := {
    whole_ne := List.cons_ne_nil _ _
    whole := by simp
    fraction := fun c hc => (List.mem_append.mp hc).elim isDigit_of_mem_zeros (hdigits c)
    leading := .inl rfl }
  form := .inl (List.append_ne_nil_of_right_ne_nil _ hne)
  value := by
    have hzero : digitsValue ['0'] = 0 := rfl
    simp only [Layout.decimal, digitsValue_append, digitsValue_zeros, hvalue, hzero,
      Nat.mul_zero, Nat.zero_add, Decimal.value, Option.getD_none, List.length_append,
      List.length_replicate, hexp]
    congr 2
    omega

theorem spells_power {first : Char} (hdigits : ∀ c ∈ first :: ds, c.isDigit = true)
    (hvalue : digitsValue (first :: ds) = d.digits) {leading : Int}
    (hexp : d.exp = leading - ds.length) : Layout.Spells ⟨[first], ds, some leading⟩ d where
  regular := {
    whole_ne := List.cons_ne_nil _ _
    whole := fun c hc => hdigits c (List.mem_singleton.mp hc ▸ List.mem_cons_self ..)
    fraction := fun c hc => hdigits c (List.mem_cons_of_mem _ hc)
    leading := .inl rfl }
  form := .inr (Option.some_ne_none _)
  value := by
    simp only [Layout.decimal, List.singleton_append, hvalue, Decimal.value, Option.getD_some,
      hexp]

end Forms

-- A positive number is written in one of four forms.
theorem exists_layout {d : Decimal} (h : d.digits ≠ 0) :
    ∃ l : Layout, l.Spells d ∧ d.layout numbers = l.text := by
  have hdigits : ∀ c ∈ Nat.toDigits 10 d.digits, c.isDigit = true :=
    fun c hc => isDigit_of_mem_toDigits hc
  have hhead := head_toDigits h
  have hvalue := digitsValue_toDigits d.digits
  obtain ⟨first, others, hds⟩ :=
    List.exists_cons_of_ne_nil (Nat.toDigits_ne_nil (n := d.digits) (b := 10))
  have hne := List.cons_ne_nil first others
  rw [layout_numbers]
  rw [hds] at hdigits hhead hvalue ⊢
  generalize hleading : d.exp + (first :: others).length - 1 = leading
  rw [List.length_cons] at hleading
  split
  · split
    · next hexp =>
      exact ⟨_, spells_whole hdigits hne hhead hvalue hexp, by simp [Layout.text]⟩
    · split
      · next hneg hplace =>
        have hspells := spells_split hdigits hhead hvalue (n := leading.toNat)
          (by rw [List.length_cons]; omega) (by rw [List.length_cons]; omega)
        refine ⟨_, hspells, ?_⟩
        rw [Layout.text, if_neg (hspells.form.resolve_right fun hnone => hnone rfl)]
        simp
      · next hneg hplace =>
        have hspells := spells_small hdigits hne hvalue (n := (-leading - 1).toNat)
          (by rw [List.length_cons]; omega)
        exact ⟨_, hspells, by simp [Layout.text]⟩
  · exact ⟨_, spells_power hdigits hvalue (by omega), rfl⟩

-- Only what has a fraction or an exponent is read as a float.
theorem toWire_numeral {l : Layout} (h : l.Regular) (hform : l.fraction ≠ [] ∨ l.exponent ≠ none)
    (negative : Bool) {x : Double} (hfinite : x.isFinite = true)
    (hx : l.decimal.toDouble negative = x) : (l.numeral negative).toWire = .float x := by
  have hwhole : (Option.isNone (if l.fraction = [] then none else some (ascii l.fraction)) &&
      l.exponent.isNone) = false := by
    rcases hform with hne | hne
    · rw [if_neg hne]
      rfl
    · rw [Option.ne_none_iff_isSome] at hne
      simp [Option.isNone_eq_false_iff.mpr hne]
  rw [Numeral.toWire, decimal_numeral h]
  simp only [Layout.numeral, hwhole, Bool.false_and, Bool.false_eq_true, if_false, hx, hfinite,
    if_true]

theorem exists_layout_render {x : Double} (hfinite : x.isFinite = true) :
    ∃ l : Layout, l.Regular ∧ x.render numbers = String.ofList (signed x.isNegative l) ∧
      (l.fraction ≠ [] ∨ l.exponent ≠ none) ∧ l.decimal.nearestMagnitude = x.magnitude := by
  rcases Nat.eq_zero_or_pos x.magnitude with hzero | hpos
  · refine ⟨⟨['0'], ['0'], none⟩, ?_, ?_, .inl (List.cons_ne_nil _ _), ?_⟩
    · exact {
        whole_ne := List.cons_ne_nil _ _
        whole := by simp
        fraction := by simp
        leading := .inl rfl }
    · rw [Double.render, if_pos hzero]
      rfl
    · rw [hzero]
      rfl
  · have hnormal := Double.normal_of_finite hfinite hpos
    have hattracts := Decimal.attracts_shortest hnormal numbers.tie
    have hdigits : (Decimal.shortest numbers.tie x).digits ≠ 0 := by
      intro hzero
      have hpositive := (Decimal.value_lt_of_attracts hnormal hattracts).2
      rw [Decimal.value, hzero, Nat.cast_zero, zero_mul] at hpositive
      exact absurd hpositive (not_lt.mpr (by positivity))
    obtain ⟨l, hspells, htext⟩ := exists_layout hdigits
    refine ⟨l, hspells.regular, ?_, hspells.form,
      Decimal.nearestMagnitude_eq hfinite hpos (hspells.value ▸ hattracts)⟩
    rw [Double.render, if_neg hpos.ne', htext]
    rfl

-- Floats keep their sign, even at zero, and are told from integers.
theorem readNumeral_render {x : Double} (hfinite : x.isFinite = true) {rest : Bytes}
    (hrest : Closes rest) :
    ∃ m, readNumeral (Bytes.ofString (x.render numbers) ++ rest) = some (m, rest) ∧
      m.toWire = .float x := by
  obtain ⟨l, hregular, hrender, hform, hnearest⟩ := exists_layout_render hfinite
  refine ⟨l.numeral x.isNegative, ?_, toWire_numeral hregular hform _ hfinite ?_⟩
  · rw [hrender, ofString_ascii fun c hc => toNat_of_mem_signed hregular _ hc]
    exact readNumeral_signed hregular _ hrest
  · rw [Decimal.toDouble, hnearest, Double.ofMagnitude_magnitude]

end Floats

end DocStore.Json
