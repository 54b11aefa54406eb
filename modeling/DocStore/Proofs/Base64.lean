import DocStore.Base64
namespace DocStore.Base64

private theorem digits : ∀ n : Fin 64, value? (digit n) = some n.val ∧ digit n ≠ '=' := by
  decide +kernel

theorem value?_digit {n : Nat} (h : n < 64) : value? (digit n) = some n := (digits ⟨n, h⟩).1

theorem digit_ne_pad {n : Nat} (h : n < 64) : digit n ≠ '=' := (digits ⟨n, h⟩).2

private theorem eq_toUInt8 {n : Nat} {b : UInt8} (h : n % 256 = b.toNat) : n.toUInt8 = b := by
  rw [← UInt8.toNat_inj]
  simpa using h

-- What is written is read as the bytes that were written.
theorem decode?_encode (bytes : Bytes) : decode? (encode bytes) = some bytes := by
  fun_induction encode bytes with
  | case1 => rfl
  | case2 a n =>
      have ha := a.toNat_lt
      have hn : n = a.toNat * 16 := rfl
      have h1 := value?_digit (n := n / 64) (by omega)
      have h2 := value?_digit (n := n % 64) (by omega)
      simp only [decode?, h1, h2, bind, Option.bind]
      rw [if_pos (by omega), eq_toUInt8 (b := a) (by omega)]
  | case3 a b n =>
      have ha := a.toNat_lt
      have hb := b.toNat_lt
      have hn : n = (a.toNat * 256 + b.toNat) * 4 := rfl
      have h1 := value?_digit (n := n / 4096) (by omega)
      have h2 := value?_digit (n := n / 64 % 64) (by omega)
      have h3 := value?_digit (n := n % 64) (by omega)
      have hpad := digit_ne_pad (n := n % 64) (by omega)
      simp only [decode?, h1, h2, h3, bind, Option.bind]
      rw [if_pos (by omega), eq_toUInt8 (b := a) (by omega), eq_toUInt8 (b := b) (by omega)]
  | case4 a b c rest n ih =>
      have ha := a.toNat_lt
      have hb := b.toNat_lt
      have hc := c.toNat_lt
      have hn : n = (a.toNat * 256 + b.toNat) * 256 + c.toNat := rfl
      have h1 := value?_digit (n := n / 262144) (by omega)
      have h2 := value?_digit (n := n / 4096 % 64) (by omega)
      have h3 := value?_digit (n := n / 64 % 64) (by omega)
      have h4 := value?_digit (n := n % 64) (by omega)
      have hpad := digit_ne_pad (n := n % 64) (by omega)
      rw [decode?]
      · simp only [h1, h2, h3, h4, ih, bind, Option.bind]
        rw [eq_toUInt8 (b := a) (by omega), eq_toUInt8 (b := b) (by omega),
          eq_toUInt8 (b := c) (by omega)]
      all_goals
        intros
        simp_all
end DocStore.Base64
