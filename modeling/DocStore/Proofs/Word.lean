import Mathlib.Algebra.Group.Nat.Defs
import DocStore.Key

-- The bytes that a word is stored as.
namespace DocStore.Bytes

-- The number that bytes make up, the least significant byte first.
private def number (bytes : Bytes) : Nat := bytes.foldr (fun b n => n * 256 + b.toNat) 0

private theorem number_lt (bytes : Bytes) : number bytes < 256 ^ bytes.length := by
  induction bytes with
  | nil => simp [number]
  | cons b rest ih =>
      have hb := b.toNat_lt
      have hstep : number (b :: rest) = number rest * 256 + b.toNat := rfl
      rw [hstep, List.length_cons, Nat.pow_succ]
      omega

private theorem toNat_push {acc : UInt64} (b : UInt8) (h : acc.toNat < 2 ^ 56) :
    (acc <<< 8 ||| b.toUInt64).toNat = acc.toNat * 256 + b.toNat := by
  have hb : b.toNat < 2 ^ 8 := b.toNat_lt
  have hshift : acc.toNat <<< 8 % 2 ^ 64 = acc.toNat <<< 8 := by
    rw [Nat.shiftLeft_eq]
    omega
  have hor := Nat.shiftLeft_add_eq_or_of_lt hb acc.toNat
  simp only [UInt64.toNat_or, UInt64.toNat_shiftLeft, UInt8.toNat_toUInt64]
  show acc.toNat <<< 8 % 2 ^ 64 ||| b.toNat = _
  rw [hshift, ← hor, Nat.shiftLeft_eq]

private theorem toNat_toWord {bytes : Bytes} (h : bytes.length ≤ 8) :
    (toWord bytes).toNat = number bytes := by
  induction bytes with
  | nil => rfl
  | cons b rest ih =>
      rw [List.length_cons] at h
      have hrest := ih (by omega)
      have hpow : 256 ^ rest.length ≤ 256 ^ 7 := Nat.pow_le_pow_right (by decide) (by omega)
      have hlt := number_lt rest
      have hfits : (toWord rest).toNat < 2 ^ 56 := by omega
      have hpush := toNat_push b hfits
      rw [hrest] at hpush
      exact hpush

-- A word is made of its bytes again.
theorem toWord_ofWord (word : UInt64) : toWord (ofWord word) = word := by
  have hbyte : ∀ i < 8, (word >>> (8 * i).toUInt64).toUInt8.toNat = word.toNat / 256 ^ i % 256 := by
    intro i hi
    have hs : (8 * i) % 18446744073709551616 % 64 = 8 * i := by omega
    simp only [UInt64.toNat_toUInt8, UInt64.toNat_shiftRight, Nat.toUInt64_eq, UInt64.toNat_ofNat',
      hs, Nat.shiftRight_eq_div_pow, Nat.pow_mul]
  have hw := word.toNat_lt
  have hlength : (ofWord word).length ≤ 8 := Nat.le_refl 8
  rw [← UInt64.toNat_inj, toNat_toWord hlength]
  simp only [ofWord, List.range, List.range.loop, List.map_cons, List.map_nil, number,
    List.foldr_cons, List.foldr_nil]
  rw [hbyte 0 (by decide), hbyte 1 (by decide), hbyte 2 (by decide), hbyte 3 (by decide),
    hbyte 4 (by decide), hbyte 5 (by decide), hbyte 6 (by decide), hbyte 7 (by decide)]
  omega

end DocStore.Bytes

-- An indexed number is read as the number that was indexed.
theorem DocStore.Key.decodeNumber?_encodeNumber (x : Double) :
    decodeNumber? (encodeNumber x) = some x := by
  have hlength : (encodeNumber x).length = 8 := rfl
  rw [decodeNumber?, if_pos hlength, encodeNumber, Bytes.toWord_ofWord]
