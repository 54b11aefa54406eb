import Mathlib.Data.Nat.Basic
import DocStore.Bus
import DocStore.Proofs.Context
import DocStore.Proofs.SortedMap

-- Who waits for a lock looks at it now and then, and the first look that settles the matter ends the
-- wait.
namespace DocStore

namespace Bus

theorem expired_iff (lease : Lease) (now : Time) :
    lease.expired now = true ↔ lease.expiry ≤ now := by
  simp only [Lease.expired, Lease.expiry, decide_eq_true_eq]
  exact Nat.lt_iff_add_one_le

-- What one look at a lock gives who wants it: the lock, if it is free or its lease has expired.
def look (bus : Bus) (now : Time) (key : String) (duration : Time) : Option (Lock × Bus) :=
  if (bus.leases.get? key).all (fun lease => lease.expired now) then
    some (bus.grant now key duration)
  else none

-- The instant of a look, where the looks are counted from zero.
def lookAt (now : Time) (n : Nat) : Time := now + n * pollInterval

-- How many looks come before the first one at which an instant has come.
def looksBefore (now instant : Time) : Nat := (instant - now + pollInterval - 1) / pollInterval

theorem le_lookAt (now : Time) (n : Nat) : now ≤ lookAt now n := Nat.le_add_right now _

@[simp] theorem lookAt_zero (now : Time) : lookAt now 0 = now := by simp [lookAt]

theorem lookAt_le_lookAt_iff (now : Time) (m n : Nat) : lookAt now m ≤ lookAt now n ↔ m ≤ n := by
  have hpoll : pollInterval = 10000000 := rfl
  simp only [lookAt, hpoll]
  unfold Time at *
  omega

theorem le_lookAt_iff (now instant : Time) (n : Nat) :
    instant ≤ lookAt now n ↔ looksBefore now instant ≤ n := by
  have hpoll : pollInterval = 10000000 := rfl
  simp only [lookAt, looksBefore, hpoll]
  unfold Time at *
  omega

section Lock

variable {bus : Bus} {now : Time} {key : String} {duration : Time}

-- A look comes to nothing if and only if somebody keeps the lock.
theorem look_eq_none_iff : bus.look now key duration = none ↔
    ∃ lease, bus.leases.get? key = some lease ∧ now < lease.expiry := by
  unfold look
  cases bus.leases.get? key with
  | none => simp
  | some lease =>
      simp only [Option.all_some, expired_iff]
      by_cases h : lease.expiry ≤ now
      · simp [h]
      · simp [h, Nat.lt_of_not_le h]

theorem look_of_free (h : ∀ lease, bus.leases.get? key = some lease → lease.expiry ≤ now) :
    bus.look now key duration = some (bus.grant now key duration) := by
  unfold look
  rw [if_pos]
  cases hget : bus.leases.get? key with
  | none => rfl
  | some lease => exact (expired_iff lease now).mpr (h lease hget)

theorem grant_of_look {lock : Lock} {after : Bus}
    (h : bus.look now key duration = some (lock, after)) :
    bus.grant now key duration = (lock, after) := by
  unfold look at h
  split at h
  · exact Option.some.inj h
  · cases h

variable (bus now key duration)

-- How many looks come to nothing, if the context does not end the wait.
def looksInVain : Nat :=
  match bus.leases.get? key with
  | none => 0
  | some lease => looksBefore now lease.expiry

theorem look_in_vain {n : Nat} (h : n < bus.looksInVain now key) :
    bus.look (lookAt now n) key duration = none := by
  rw [look_eq_none_iff]
  unfold looksInVain at h
  cases hget : bus.leases.get? key with
  | none => simp [hget] at h
  | some lease =>
      simp only [hget] at h
      refine ⟨lease, rfl, ?_⟩
      apply Nat.lt_of_not_le
      rw [le_lookAt_iff]
      omega

theorem look_after {n : Nat} (h : bus.looksInVain now key ≤ n) :
    bus.look (lookAt now n) key duration = some (bus.grant (lookAt now n) key duration) := by
  apply look_of_free
  intro lease hget
  rw [le_lookAt_iff]
  simpa [looksInVain, hget] using h

theorem lock_eq (ctx : Context) : bus.lock ctx now key duration =
    let granted := lookAt now (bus.looksInVain now key)
    let had := (.ok (bus.grant granted key duration).1, (bus.grant granted key duration).2, granted)
    match ctx.ends now with
    | none => had
    | some stop =>
      let seen := lookAt now (looksBefore now stop)
      match (ctx.signal seen).check with
      | .ok () => had
      | .error e => if seen ≤ granted then (.error e, bus, seen) else had := by
  unfold lock looksInVain
  cases bus.leases.get? key with
  | none =>
      simp only [lookAt_zero]
      rfl
  | some lease => rfl

-- A wait for a lock ends with the first look at which the context has ended or the lock can be had.
-- The context is asked first.
theorem lock_cases (ctx : Context) : ∃ n,
    (∀ m < n, ctx.signal (lookAt now m) = .go ∧ bus.look (lookAt now m) key duration = none) ∧
      ((∃ e, (ctx.signal (lookAt now n)).check = .error e ∧
          bus.lock ctx now key duration = (.error e, bus, lookAt now n)) ∨
        ∃ lock after, ctx.signal (lookAt now n) = .go ∧
          bus.look (lookAt now n) key duration = some (lock, after) ∧
          bus.lock ctx now key duration = (.ok lock, after, lookAt now n)) := by
  have hgo (n : Nat) : ctx.signal (lookAt now n) = .go ↔
      ∀ stop, ctx.ends now = some stop → lookAt now n < stop :=
    ctx.signal_eq_go_iff (le_lookAt now n)
  have hvain (m : Nat) (h : m < bus.looksInVain now key) :=
    bus.look_in_vain now key duration h
  have hhad := bus.look_after now key duration (Nat.le_refl _)
  rw [lock_eq]
  cases hends : ctx.ends now with
  | none =>
      rw [hends] at hgo
      have hgoes (n : Nat) : ctx.signal (lookAt now n) = .go := (hgo n).mpr (by simp)
      exact ⟨bus.looksInVain now key, fun m hm => ⟨hgoes m, hvain m hm⟩,
        .inr ⟨_, _, hgoes _, hhad, rfl⟩⟩
  | some stop =>
      have hbefore (n : Nat) : ctx.signal (lookAt now n) = .go ↔ n < looksBefore now stop := by
        rw [hgo, hends]
        simp only [Option.some.injEq, forall_eq', ← Nat.not_le, le_lookAt_iff]
      simp only
      cases hcheck : (ctx.signal (lookAt now (looksBefore now stop))).check with
      | ok _ =>
          rw [Signal.check_eq_ok_iff, hbefore] at hcheck
          omega
      | error e =>
          simp only [lookAt_le_lookAt_iff]
          split
          · next hle =>
            refine ⟨looksBefore now stop, fun m hm => ⟨(hbefore m).mpr hm, hvain m ?_⟩,
              .inl ⟨e, hcheck, rfl⟩⟩
            omega
          · next hlt =>
            refine ⟨bus.looksInVain now key, fun m hm => ⟨(hbefore m).mpr ?_, hvain m hm⟩,
              .inr ⟨_, _, (hbefore _).mpr ?_, hhad, rfl⟩⟩ <;> omega

end Lock

section Holder

variable {bus : Bus} {lock : Lock} {lease : Lease}

theorem keepAlive_of_leased (hget : bus.leases.get? lock.key = some lease)
    (htoken : lease.token = lock.token) (hheld : lock.held) (now : Time) :
    bus.keepAlive now lock = .ok
      { bus with leases := bus.leases.insert lock.key { lease with keptAlive := now } } := by
  simp [keepAlive, hget, htoken, hheld]

theorem unlock_of_leased (hget : bus.leases.get? lock.key = some lease)
    (htoken : lease.token = lock.token) (hheld : lock.held) :
    bus.unlock lock =
      ({ lock with held := false }, { bus with leases := bus.leases.erase lock.key }) := by
  simp [unlock, hget, htoken, hheld]

end Holder

end Bus

end DocStore
