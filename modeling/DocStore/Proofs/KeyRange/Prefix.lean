import DocStore.Proofs.Bytes

-- The keys that begin with some bytes are a range, whose end is found from the end of those bytes:
-- each 0xFF is dropped, and the byte in front of them is counted up.
namespace DocStore.Bytes

variable {start : Bytes}

theorem afterPrefix_eq_nil_iff : afterPrefix start = [] ↔ ∀ b ∈ start, b = 0xFF := by
  induction start with
  | nil => simp [afterPrefix]
  | cons b rest ih =>
      rw [List.forall_mem_cons, ← ih]
      cases hafter : afterPrefix rest with
      | nil =>
          simp only [afterPrefix, hafter, and_true]
          by_cases hb : b = 0xFF
          · simp [hb]
          · simp [hb]
      | cons next nexts => simp [afterPrefix, hafter]

theorem afterPrefix_concat (start : Bytes) (b : UInt8) :
    afterPrefix (start ++ [b]) = if b = 0xFF then afterPrefix start else start ++ [b + 1] := by
  induction start with
  | nil => simp [afterPrefix]
  | cons first rest ih =>
      rw [List.cons_append, afterPrefix, ih]
      by_cases hb : b = 0xFF
      · simp only [hb, if_true, afterPrefix]
      · cases rest <;> simp [hb]

theorem afterPrefix_append_replicate (start : Bytes) (n : Nat) :
    afterPrefix (start ++ List.replicate n 0xFF) = afterPrefix start := by
  induction n with
  | zero => simp
  | succ n ih =>
      rw [List.replicate_succ', ← List.append_assoc, afterPrefix_concat, if_pos rfl, ih]

-- A key lies between a beginning and the bound behind it if and only if it has that beginning. More
-- bytes 0xFF at the end of a beginning move the bound nowhere, and where there is nothing else, not
-- even one byte, there is no bound.
theorem between_iff_prefix (start key : Bytes) :
    (start ≤ key ∧ (start.afterPrefix = [] ∨ key < start.afterPrefix) ↔ start <+: key) ∧
      (∀ n, (start ++ List.replicate n 0xFF).afterPrefix = start.afterPrefix) ∧
      (start.afterPrefix = [] ↔ ∀ b ∈ start, b = 0xFF) := by
  refine ⟨?_, start.afterPrefix_append_replicate, afterPrefix_eq_nil_iff⟩
  rw [← KeyRange.contains_ofPrefix, KeyRange.contains_iff]
  rfl

example : Bytes.afterPrefix [0x61, 0xFF, 0xFF] = [0x62] := rfl

end DocStore.Bytes
