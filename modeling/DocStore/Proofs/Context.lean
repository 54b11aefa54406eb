import Mathlib.Order.Basic
import DocStore.Retry

-- When a context goes on, and waits that it does not cut short.
namespace DocStore

theorem Signal.check_eq_ok_iff (signal : Signal) : signal.check = .ok () ↔ signal = .go := by
  cases signal <;> simp [check]

namespace Context

variable (ctx : Context)

-- From some instant on, a context goes on until it ends.
theorem signal_eq_go_iff {now later : Time} (h : now ≤ later) :
    ctx.signal later = .go ↔ ∀ stop, ctx.ends now = some stop → later < stop := by
  obtain ⟨cancelledAt, deadline⟩ := ctx
  cases cancelledAt with
  | none =>
      cases deadline with
      | none => simp [signal, ends]
      | some d => by_cases hd : d ≤ later <;> simp [signal, ends, hd] <;> grind
  | some c =>
      by_cases hc : c ≤ later
      · cases deadline <;> simp [signal, ends, hc] <;> grind
      · cases deadline with
        | none =>
            simp [signal, ends, hc]
            grind
        | some d => by_cases hd : d ≤ later <;> simp [signal, ends, hc, hd] <;> grind

-- Nothing cuts a wait short under a context that never ends.
theorem wait_of_endless (h : ∀ now, ctx.signal now = .go) (now duration : Time) :
    ctx.wait now duration = (.go, now + duration) := by
  have hends : ctx.ends now = none := by
    cases hstop : ctx.ends now with
    | none => rfl
    | some stop =>
        have hlt := (ctx.signal_eq_go_iff (Nat.le_max_left now stop)).mp (h _) stop hstop
        exact absurd (Nat.le_max_right now stop) (Nat.not_le_of_lt hlt)
  simp only [wait, h now, hends]

end Context

end DocStore
