import DocStore.Proofs.Query.Literal
import DocStore.Proofs.Query.Token

-- Operands as tokens: which of them have a token that is read as the operand, and which operands
-- words are read as.
namespace DocStore

namespace Double

variable {negative : Bool} {m : Nat}

def negativeInfinity : Double := ofMagnitude true infiniteMagnitude

theorem magnitude_ofMagnitude (h : m < signUnit) : (ofMagnitude negative m).magnitude = m := by
  simp only [signUnit] at h
  cases negative with
  | true =>
      simp only [ofMagnitude, magnitude, signUnit, if_true, UInt64.toNat_ofNat']
      omega
  | false =>
      simp only [ofMagnitude, magnitude, signUnit, Bool.false_eq_true, if_false,
        UInt64.toNat_ofNat']
      omega

end Double

theorem Decimal.nearestMagnitude_le (d : Decimal) :
    d.nearestMagnitude ≤ Double.infiniteMagnitude := by
  simp only [nearestMagnitude, Double.nearestMagnitude]
  split_ifs
  · exact Nat.zero_le _
  · exact Nat.le_refl _
  · exact Nat.zero_le _
  · exact Nat.zero_le _
  · exact Nat.min_le_left _ _

namespace Literal

open Token (Spelled Apart startsWord continuesWord)

-- The operands that are read back from their text. There is a word for either infinity but the
-- negative one, and for no NaN but one.
def Readable : Value → Prop
  | .bool _ => True
  | .float x => x.isFinite ∨ x = Double.infinity ∨ x = Double.nan
  | .string s => '"' ∉ s.toList
  | _ => False

-- The token of an operand.
def token : Value → Token
  | .string s => .quoted s
  | v => .word (render v)

theorem spelled_renderNumber {x : Double} (hfinite : x.isFinite = true) :
    Spelled (renderNumber x).toList := by
  obtain ⟨text, d, hrender, hd, -⟩ := exists_numeral_renderNumber hfinite
  have hcontinued : ∀ c ∈ text, continuesWord c := fun c hc => by
    rcases hd.mem hc with hdigit | rfl
    · exact Token.continuesWord_of_isDigit hdigit
    · decide +kernel
  obtain ⟨c, rest, rfl, hc⟩ := hd.digit_head
  rw [hrender]
  split
  · exact ⟨'-', _, rfl, .inr ⟨rfl, c, rfl, hc⟩, hcontinued⟩
  · refine ⟨c, _, rfl, .inl ?_, fun a ha => hcontinued a (List.mem_cons_of_mem _ ha)⟩
    simp [startsWord, hc]

-- Readable operands that are not texts are written as words.
theorem spelled_render {v : Value} (hv : Readable v) (htext : ∀ s, v ≠ .string s) :
    Spelled (render v).toList ∧ value (render v) = v := by
  have hspelled : ∀ {c : Char} {rest : List Char}, startsWord c = true →
      rest.all continuesWord = true → Spelled (c :: rest) := fun hstart hrest =>
    ⟨_, _, rfl, .inl hstart, List.all_eq_true.mp hrest⟩
  cases v with
  | bool b =>
      cases b with
      | true => exact ⟨hspelled (by decide +kernel) (by decide +kernel), rfl⟩
      | false => exact ⟨hspelled (by decide +kernel) (by decide +kernel), by cbv⟩
  | float x =>
      rcases hv with hfinite | rfl | rfl
      · exact ⟨spelled_renderNumber hfinite, value_of_number? (number?_renderNumber hfinite)⟩
      · have hrender : render (.float Double.infinity) = "inf" := by cbv
        rw [hrender]
        exact ⟨hspelled (by decide +kernel) (by decide +kernel), value_of_number? (by cbv)⟩
      · have hrender : render (.float Double.nan) = "NaN" := by cbv
        rw [hrender]
        exact ⟨hspelled (by decide +kernel) (by decide +kernel), value_of_number? (by cbv)⟩
  | string s => exact absurd rfl (htext s)
  | int n => cases hv
  | null => cases hv
  | array items => cases hv
  | object fields => cases hv

theorem token_eq_word {v : Value} (htext : ∀ s, v ≠ .string s) : token v = .word (render v) := by
  cases v with
  | string s => exact absurd rfl (htext s)
  | _ => rfl

theorem scan_render {v : Value} (hv : Readable v) {rest : List Char} (hrest : Apart rest) :
    Token.scan ((render v).toList ++ rest) = token v :: Token.scan rest := by
  by_cases htext : ∃ s, v = .string s
  · obtain ⟨s, rfl⟩ := htext
    have hrender : (render (.string s)).toList ++ rest = '"' :: (s.toList ++ '"' :: rest) := by
      simp [render]
    rw [hrender, Token.scan_quoted hv, String.ofList_toList]
    rfl
  · have hother : ∀ s, v ≠ .string s := fun s heq => htext ⟨s, heq⟩
    rw [token_eq_word hother, Token.scan_word (spelled_render hv hother).1 hrest,
      String.ofList_toList]

-- What a decimal is read as: a finite number, or an infinity where it is too great.
theorem toDouble_cases (negative : Bool) (d : Decimal) :
    (d.toDouble negative).isFinite = true ∨
      d.toDouble negative = Double.ofMagnitude negative Double.infiniteMagnitude := by
  have hle := d.nearestMagnitude_le
  have hlt : d.nearestMagnitude < Double.signUnit := lt_of_le_of_lt hle (by decide)
  rcases Nat.lt_or_eq_of_le hle with hfinite | heq
  · refine .inl ?_
    rw [Decimal.toDouble, Double.isFinite, Double.magnitude_ofMagnitude hlt]
    exact decide_eq_true hfinite
  · exact .inr (by rw [Decimal.toDouble, heq])

theorem unsigned?_cases {negative : Bool} {text : List Char} {x : Double}
    (h : unsigned? negative text = some x) :
    x.isFinite = true ∨ x = Double.ofMagnitude negative Double.infiniteMagnitude ∨
      x = Double.ofMagnitude negative Double.nan.magnitude := by
  unfold unsigned? at h
  split at h
  · exact .inr (.inl (Option.some.inj h).symm)
  · exact .inr (.inl (Option.some.inj h).symm)
  · exact .inr (.inr (Option.some.inj h).symm)
  · obtain ⟨d, -, rfl⟩ := Option.map_eq_some_iff.mp h
    exact (toDouble_cases negative d).imp_right .inl

-- A sign stands in front of digits only, so that the names of numbers are never negative.
theorem number?_cases {text : String} (hspelled : Spelled text.toList) {x : Double}
    (h : number? text = some x) :
    Readable (.float x) ∨ x = Double.negativeInfinity := by
  obtain ⟨c, rest, htext, hfirst, -⟩ := hspelled
  rw [number?, htext] at h
  split at h
  · next tail heq =>
    obtain ⟨rfl, rfl⟩ := List.cons.inj heq
    rcases hfirst with hstart | ⟨-, d, hd, hdigit⟩
    · exact absurd hstart (by decide +kernel)
    · obtain ⟨tail, rfl⟩ : ∃ tail, rest = d :: tail := List.head?_eq_some_iff.mp hd
      rw [unsigned?_of_digit hdigit] at h
      obtain ⟨e, -, rfl⟩ := Option.map_eq_some_iff.mp h
      exact (toDouble_cases true e).imp_left .inl
  · next tail heq =>
    obtain ⟨rfl, rfl⟩ := List.cons.inj heq
    rcases hfirst with hstart | ⟨hsign, -⟩
    · exact absurd hstart (by decide +kernel)
    · exact absurd hsign (by decide)
  · exact .inl (unsigned?_cases h)

-- A word is read as an operand that can be read back, or as the negative infinity.
theorem readable_value {text : String} (h : Spelled text.toList) :
    Readable (value text) ∨ value text = .float Double.negativeInfinity := by
  have hquote : '"' ∉ text.toList := by
    obtain ⟨c, rest, htext, hfirst, hrest⟩ := h
    rw [htext]
    intro hmem
    rcases List.mem_cons.mp hmem with rfl | hmem
    · rcases hfirst with hstart | ⟨hsign, -⟩
      · exact absurd hstart (by decide +kernel)
      · exact absurd hsign (by decide)
    · exact absurd (hrest _ hmem) (by decide +kernel)
  unfold value
  split_ifs
  · exact .inl trivial
  · exact .inl trivial
  · split
    · next x hread =>
      exact (number?_cases h hread).imp_right (congrArg Value.float)
    · exact .inl hquote

end Literal

end DocStore
