import Mathlib.Data.List.Induction
import DocStore.Proofs.Bus.Wait

-- Locks exclude each other while their leases last, and who has lost a lock to somebody else cannot
-- get at it any more.
namespace DocStore

-- A lock that was granted, as its holder has it in hand: for how long it is leased, and since when,
-- which is since the grant or since it was last kept alive.
structure Grant where
  lock : Lock
  duration : Time
  since : Time

namespace Grant

-- Neither given up nor past its lease.
def InForce (g : Grant) (now : Time) : Prop := g.lock.held ∧ now ≤ g.since + g.duration

-- What the bus has on record of a lock.
def lease (g : Grant) : Lease := ⟨g.lock.token, g.duration, g.since⟩

theorem not_inForce_iff (g : Grant) (now : Time) :
    ¬g.InForce now ↔ (g.lock.held → g.lease.expiry ≤ now) := by
  simp only [InForce, lease, Lease.expiry, not_and, Nat.not_le]
  rfl

end Grant

-- A bus in use, with all locks that were ever granted, in order.
structure Tenancy where
  bus : Bus
  grants : List Grant
  now : Time

namespace Tenancy

inductive Move where
  | elapse (duration : Time)
  -- a wait for a lock that nobody comes between
  | lock (ctx : Context) (key : String) (duration : Time)
  -- one look of a wait that others come between
  | look (key : String) (duration : Time)
  | keepAlive (n : Nat)
  -- a lock is given up, or its holder is gone
  | unlock (n : Nat)

def start : Tenancy := ⟨Bus.empty, [], 0⟩

def note (x : Tenancy) (lock : Lock) (bus : Bus) (duration : Time) : Tenancy :=
  ⟨bus, x.grants ++ [⟨lock, duration, x.now⟩], x.now⟩

def look (x : Tenancy) (key : String) (duration : Time) : Tenancy :=
  match x.bus.look x.now key duration with
  | some (lock, bus) => x.note lock bus duration
  | none => x

def lock (x : Tenancy) (ctx : Context) (key : String) (duration : Time) : Tenancy :=
  match x.bus.lock ctx x.now key duration with
  | (.ok lock, bus, now) => { x with now := now }.note lock bus duration
  | (.error _, bus, now) => { x with bus := bus, now := now }

def keepAlive (x : Tenancy) (n : Nat) : Tenancy :=
  match x.grants[n]? with
  | none => x
  | some g =>
    match x.bus.keepAlive x.now g.lock with
    | .ok bus => { x with bus := bus, grants := x.grants.set n { g with since := x.now } }
    | .error _ => x

def unlock (x : Tenancy) (n : Nat) : Tenancy :=
  match x.grants[n]? with
  | none => x
  | some g =>
    let (lock, bus) := x.bus.unlock g.lock
    { x with bus := bus, grants := x.grants.set n { g with lock := lock } }

def step (x : Tenancy) : Move → Tenancy
  | .elapse duration => { x with now := x.now + duration }
  | .lock ctx key duration => x.lock ctx key duration
  | .look key duration => x.look key duration
  | .keepAlive n => x.keepAlive n
  | .unlock n => x.unlock n

def run (moves : List Move) : Tenancy := moves.foldl step start

-- The keys of the locks that were granted.
def keys (x : Tenancy) : List String := x.grants.map (fun g => g.lock.key)

-- The key of a lock was granted again after it.
def Superseded (x : Tenancy) (n : Nat) : Prop :=
  ∃ m key, n < m ∧ x.keys[n]? = some key ∧ x.keys[m]? = some key

section Grants

variable (x : Tenancy) {n : Nat} {g : Grant}

theorem getElem?_keys (h : x.grants[n]? = some g) : x.keys[n]? = some g.lock.key := by
  simp [keys, h]

theorem Superseded.lt_length (h : x.Superseded n) : n + 1 < x.grants.length := by
  obtain ⟨m, key, hlt, -, hm⟩ := h
  obtain ⟨hbound, -⟩ := List.getElem?_eq_some_iff.mp hm
  simp only [keys, List.length_map] at hbound
  omega

variable (lock : Lock) (bus : Bus) (duration : Time)

@[simp] theorem bus_note : (x.note lock bus duration).bus = bus := rfl

theorem getElem?_note : (x.note lock bus duration).grants[n]? = some g ↔
    x.grants[n]? = some g ∨ n = x.grants.length ∧ g = ⟨lock, duration, x.now⟩ := by
  simp only [note]
  by_cases hlt : n < x.grants.length
  · rw [List.getElem?_append_left hlt]
    simp [Nat.ne_of_lt hlt]
  · rw [List.getElem?_append_right (by omega), List.getElem?_eq_none (l := x.grants) (by omega)]
    by_cases heq : n = x.grants.length
    · simp [heq, eq_comm]
    · rw [List.getElem?_eq_none (by simp; omega)]
      simp [heq]

theorem keys_note : (x.note lock bus duration).keys = x.keys ++ [lock.key] := by
  simp [keys, note]

-- A grant supersedes the grants of its key before, and no others.
theorem superseded_note_iff : (x.note lock bus duration).Superseded n ↔
    x.Superseded n ∨ x.keys[n]? = some lock.key := by
  unfold Superseded
  rw [keys_note]
  constructor
  · rintro ⟨m, key, hlt, hn, hm⟩
    obtain ⟨hbound, -⟩ := List.getElem?_eq_some_iff.mp hm
    simp only [List.length_append, List.length_singleton] at hbound
    rw [List.getElem?_append_left (by omega)] at hn
    by_cases hlast : m = x.keys.length
    · subst hlast
      simp only [List.getElem?_concat_length, Option.some.injEq] at hm
      exact .inr (hm ▸ hn)
    · rw [List.getElem?_append_left (by omega)] at hm
      exact .inl ⟨m, key, hlt, hn, hm⟩
  · rintro (⟨m, key, hlt, hn, hm⟩ | hn)
    · obtain ⟨hbound, -⟩ := List.getElem?_eq_some_iff.mp hm
      refine ⟨m, key, hlt, ?_, ?_⟩
      · rw [List.getElem?_append_left (by omega), hn]
      · rw [List.getElem?_append_left hbound, hm]
    · obtain ⟨hbound, -⟩ := List.getElem?_eq_some_iff.mp hn
      refine ⟨x.keys.length, lock.key, hbound, ?_, by simp⟩
      rw [List.getElem?_append_left hbound, hn]

theorem not_superseded_last : ¬(x.note lock bus duration).Superseded x.grants.length := by
  intro h
  have hlt := Superseded.lt_length _ h
  simp only [note, List.length_append, List.length_singleton] at hlt
  omega

-- Whatever becomes of a lock, its key stays the same.
theorem keys_set (bus : Bus) (hg : x.grants[n]? = some g) (g' : Grant)
    (hkey : g'.lock.key = g.lock.key) :
    { x with bus := bus, grants := x.grants.set n g' }.keys = x.keys := by
  obtain ⟨hlt, -⟩ := List.getElem?_eq_some_iff.mp hg
  apply List.ext_getElem?
  intro m
  simp only [keys, List.getElem?_map, List.getElem?_set]
  by_cases hm : n = m
  · subst hm
    rw [if_pos rfl, if_pos hlt, hg]
    exact congrArg some hkey
  · rw [if_neg hm]

theorem superseded_congr {y : Tenancy} (h : y.keys = x.keys) :
    y.Superseded n ↔ x.Superseded n := by
  unfold Superseded
  rw [h]

end Grants

-- What is known at any time: the bus has on record just those locks that are neither given up nor
-- granted again, and a lock that was granted again is given up or past its lease.
structure Kept (x : Tenancy) : Prop where
  issued : x.bus.issued = x.grants.length
  token : ∀ (n : Nat) (g : Grant), x.grants[n]? = some g → g.lock.token = n
  leased : ∀ (key : String) (lease : Lease), x.bus.leases.get? key = some lease ↔
    ∃ g : Grant, x.grants[lease.token]? = some g ∧ g.lock.key = key ∧ g.lock.held ∧ g.lease = lease ∧
      ¬x.Superseded lease.token
  lapsed : ∀ (n : Nat) (g : Grant), x.grants[n]? = some g → x.Superseded n → ¬g.InForce x.now

namespace Kept

variable {x : Tenancy} {n : Nat} {g : Grant}

theorem start : start.Kept where
  issued := rfl
  token n g h := by simp [Tenancy.start] at h
  leased key lease := by simp [Tenancy.start, Bus.empty]
  lapsed n g h := by simp [Tenancy.start] at h

-- What is on record under the token of a lock is this lock.
theorem eq_of_leased (h : x.Kept) (hg : x.grants[n]? = some g) {key : String} {lease : Lease}
    (hget : x.bus.leases.get? key = some lease) (htoken : lease.token = n) :
    g.lock.key = key ∧ g.lease = lease := by
  obtain ⟨g', hg', hkey, -, hlease, -⟩ := (h.leased key lease).mp hget
  rw [htoken, hg] at hg'
  cases hg'
  exact ⟨hkey, hlease⟩

theorem leased_iff (h : x.Kept) (hg : x.grants[n]? = some g) :
    x.bus.leases.get? g.lock.key = some g.lease ↔ g.lock.held ∧ ¬x.Superseded n := by
  have htoken : g.lease.token = n := h.token n g hg
  rw [h.leased, htoken]
  constructor
  · rintro ⟨g', hg', -, hheld, -, hlast⟩
    rw [hg] at hg'
    cases hg'
    exact ⟨hheld, hlast⟩
  · rintro ⟨hheld, hlast⟩
    exact ⟨g, hg, rfl, hheld, rfl, hlast⟩

theorem later (h : x.Kept) {now : Time} (hle : x.now ≤ now) : Kept { x with now := now } where
  issued := h.issued
  token := h.token
  leased := h.leased
  lapsed n g hg hlost hforce := h.lapsed n g hg hlost ⟨hforce.1, Nat.le_trans hle hforce.2⟩

-- The lock is free if and only if nobody has it in force.
theorem look_iff (h : x.Kept) (key : String) (duration : Time) :
    (x.bus.look x.now key duration).isSome ↔
      ∀ g ∈ x.grants, g.lock.key = key → ¬g.InForce x.now := by
  rw [Option.isSome_iff_ne_none, ne_eq, Bus.look_eq_none_iff, not_exists]
  constructor
  · intro hfree g hm hkey
    obtain ⟨n, hg⟩ := List.mem_iff_getElem?.mp hm
    by_cases hlost : x.Superseded n
    · exact h.lapsed n g hg hlost
    · rw [g.not_inForce_iff]
      intro hheld
      have hrecord := (h.leased_iff hg).mpr ⟨hheld, hlost⟩
      rw [hkey] at hrecord
      exact Nat.le_of_not_lt (fun hlt => hfree g.lease ⟨hrecord, hlt⟩)
  · rintro hall lease ⟨hget, hlt⟩
    obtain ⟨g, hg, hkey, hheld, rfl, -⟩ := (h.leased key lease).mp hget
    have hpast := (g.not_inForce_iff x.now).mp (hall g (List.mem_of_getElem? hg) hkey) hheld
    exact Nat.not_lt.mpr hpast hlt

theorem note (h : x.Kept) {key : String} {duration : Time} {lock : Lock} {bus : Bus}
    (hlook : x.bus.look x.now key duration = some (lock, bus)) : (x.note lock bus duration).Kept := by
  have hfree := (h.look_iff key duration).mp (by rw [hlook]; rfl)
  have hgrant := Bus.grant_of_look hlook
  simp only [Bus.grant, Prod.mk.injEq] at hgrant
  obtain ⟨rfl, rfl⟩ := hgrant
  have hissued := h.issued
  constructor
  case issued => simp [Tenancy.note, hissued]
  case token =>
    intro n g hg
    rcases (getElem?_note _ _ _ _).mp hg with hold | ⟨rfl, rfl⟩
    · exact h.token n g hold
    · exact hissued
  case leased =>
    intro key' lease
    have hget : ∀ {g : Grant}, x.grants[lease.token]? = some g →
        x.keys[lease.token]? = some g.lock.key := fun hg => x.getElem?_keys hg
    simp only [getElem?_note, superseded_note_iff, bus_note, SortedMap.get?_insert]
    by_cases hkey : key = key'
    · subst hkey
      simp only [ite_true, Option.some.injEq]
      constructor
      · rintro rfl
        refine ⟨⟨⟨key, x.bus.issued, true⟩, duration, x.now⟩, .inr ⟨hissued, rfl⟩, rfl, rfl, rfl, ?_⟩
        rw [hissued, ← superseded_note_iff x ⟨key, x.bus.issued, true⟩ x.bus duration]
        exact not_superseded_last _ _ _ _
      · rintro ⟨g, hold | ⟨-, rfl⟩, hgkey, -, hlease, hlast⟩
        · exact absurd (.inr (hgkey ▸ hget hold)) hlast
        · exact hlease
    · rw [if_neg hkey, h.leased]
      constructor
      · rintro ⟨g, hg, hgkey, hheld, hlease, hlast⟩
        refine ⟨g, .inl hg, hgkey, hheld, hlease, ?_⟩
        rintro (hlost | hsame)
        · exact hlast hlost
        · rw [hget hg, Option.some.injEq] at hsame
          exact hkey (hsame.symm.trans hgkey)
      · rintro ⟨g, hold | ⟨-, rfl⟩, hgkey, hheld, hlease, hlast⟩
        · exact ⟨g, hold, hgkey, hheld, hlease, fun hlost => hlast (.inl hlost)⟩
        · exact absurd hgkey hkey
  case lapsed =>
    intro n g hg hlost
    rcases (getElem?_note _ _ _ _).mp hg with hold | ⟨rfl, -⟩
    · rcases (superseded_note_iff _ _ _ _).mp hlost with hbefore | hsame
      · exact h.lapsed n g hold hbefore
      · rw [x.getElem?_keys hold, Option.some.injEq] at hsame
        exact hfree g (List.mem_of_getElem? hold) hsame
    · exact absurd hlost (not_superseded_last _ _ _ _)

-- Something becomes of one lock, and the bus has it on record as it is then.
theorem change (h : x.Kept) (hg : x.grants[n]? = some g) {g' : Grant} {bus : Bus}
    (hkey : g'.lock.key = g.lock.key) (htoken : g'.lock.token = g.lock.token)
    (hheld : g'.lock.held → g.lock.held ∧ ¬x.Superseded n) (hissued : bus.issued = x.bus.issued)
    (hleases : ∀ key lease, bus.leases.get? key = some lease ↔
      lease.token ≠ n ∧ x.bus.leases.get? key = some lease ∨
        g.lock.key = key ∧ g'.lock.held ∧ g'.lease = lease) :
    Kept { x with bus := bus, grants := x.grants.set n g' } := by
  obtain ⟨hlt, -⟩ := List.getElem?_eq_some_iff.mp hg
  have hsame (m : Nat) :
      Superseded { x with bus := bus, grants := x.grants.set n g' } m ↔ x.Superseded m :=
    superseded_congr _ (keys_set x bus hg g' hkey)
  constructor
  case issued => simp [hissued, h.issued]
  case token =>
    intro m k hk
    simp only [List.getElem?_set] at hk
    by_cases hm : n = m
    · subst hm
      simp only [ite_true, hlt, Option.some.injEq] at hk
      rw [← hk, htoken, h.token n g hg]
    · rw [if_neg hm] at hk
      exact h.token m k hk
  case leased =>
    intro key lease
    simp only [hleases, hsame, List.getElem?_set]
    by_cases hm : n = lease.token
    · rw [← hm, if_pos rfl, if_pos hlt]
      simp only [ne_eq, not_true_eq_false, false_and, false_or, Option.some.injEq]
      constructor
      · rintro ⟨hgkey, hholds, hlease⟩
        exact ⟨g', rfl, hkey.trans hgkey, hholds, hlease, (hheld hholds).2⟩
      · rintro ⟨_, rfl, hgkey, hholds, hlease, -⟩
        exact ⟨hkey.symm.trans hgkey, hholds, hlease⟩
    · rw [if_neg hm, ← h.leased]
      have htoken' : g'.lease.token = n := htoken.trans (h.token n g hg)
      constructor
      · rintro (⟨-, hget⟩ | ⟨-, -, rfl⟩)
        · exact hget
        · exact absurd htoken'.symm hm
      · intro hget
        exact .inl ⟨Ne.symm hm, hget⟩
  case lapsed =>
    intro m k hk hlost hforce
    rw [hsame] at hlost
    simp only [List.getElem?_set] at hk
    by_cases hm : n = m
    · subst hm
      simp only [ite_true, hlt, Option.some.injEq] at hk
      exact (hheld (hk ▸ hforce.1)).2 hlost
    · rw [if_neg hm] at hk
      exact h.lapsed m k hk hlost hforce

-- What is on record after something else is noted under the key of a lock that is on record.
theorem leased_after (h : x.Kept) (hg : x.grants[n]? = some g)
    (hholds : g.lock.held ∧ ¬x.Superseded n) {leases : SortedMap String Lease} {noted : Option Lease}
    (hget : ∀ key, leases.get? key =
      if g.lock.key = key then noted else x.bus.leases.get? key) (key : String) (lease : Lease) :
    leases.get? key = some lease ↔
      lease.token ≠ n ∧ x.bus.leases.get? key = some lease ∨
        g.lock.key = key ∧ noted = some lease := by
  rw [hget]
  by_cases hkey : g.lock.key = key
  · subst hkey
    rw [if_pos rfl, (h.leased_iff hg).mpr hholds]
    constructor
    · exact fun hnoted => .inr ⟨rfl, hnoted⟩
    · rintro (⟨htoken, hsame⟩ | ⟨-, hnoted⟩)
      · cases hsame
        exact absurd (h.token n g hg) htoken
      · exact hnoted
  · rw [if_neg hkey]
    constructor
    · exact fun hother => .inl ⟨fun htoken => hkey (h.eq_of_leased hg hother htoken).1, hother⟩
    · rintro (⟨-, hother⟩ | ⟨hsame, -⟩)
      · exact hother
      · exact absurd hsame hkey

-- A lock that is lost or given up cannot be kept alive.
theorem keepAlive_of_lost (h : x.Kept) (hg : x.grants[n]? = some g)
    (hlost : ¬(g.lock.held ∧ ¬x.Superseded n)) (now : Time) :
    x.bus.keepAlive now g.lock = .error (.conflict ("bus lock " ++ g.lock.key ++ " was lost")) := by
  unfold Bus.keepAlive
  cases hget : x.bus.leases.get? g.lock.key with
  | none => rfl
  | some lease =>
      simp only
      rw [if_neg]
      rintro ⟨htoken, -⟩
      have heq := (h.eq_of_leased hg hget (htoken.trans (h.token n g hg))).2
      rw [← heq, h.leased_iff hg] at hget
      exact hlost hget

theorem unlock_of_lost (h : x.Kept) (hg : x.grants[n]? = some g)
    (hlost : ¬(g.lock.held ∧ ¬x.Superseded n)) :
    x.bus.unlock g.lock = ({ g.lock with held := false }, x.bus) := by
  unfold Bus.unlock
  rw [if_neg]
  intro htest
  simp only [Bool.and_eq_true, Option.any_eq_true, beq_iff_eq] at htest
  obtain ⟨-, lease, hget, htoken⟩ := htest
  have heq := (h.eq_of_leased hg hget (htoken.trans (h.token n g hg))).2
  rw [← heq, h.leased_iff hg] at hget
  exact hlost hget

theorem keepAlive (h : x.Kept) (n : Nat) : (x.keepAlive n).Kept := by
  unfold Tenancy.keepAlive
  cases hg : x.grants[n]? with
  | none => exact h
  | some g =>
      simp only
      by_cases hholds : g.lock.held ∧ ¬x.Superseded n
      · have hget := (h.leased_iff hg).mpr hholds
        rw [Bus.keepAlive_of_leased hget rfl hholds.1]
        refine h.change hg rfl rfl (fun _ => hholds) rfl (fun key lease => ?_)
        rw [h.leased_after hg hholds (fun key => SortedMap.get?_insert _ _ _ _)]
        simp [hholds.1, Grant.lease]
      · rw [h.keepAlive_of_lost hg hholds]
        exact h

theorem unlock (h : x.Kept) (n : Nat) : (x.unlock n).Kept := by
  unfold Tenancy.unlock
  cases hg : x.grants[n]? with
  | none => exact h
  | some g =>
      simp only
      by_cases hholds : g.lock.held ∧ ¬x.Superseded n
      · have hget := (h.leased_iff hg).mpr hholds
        rw [Bus.unlock_of_leased hget rfl hholds.1]
        refine h.change hg rfl rfl (fun hheld => absurd hheld (by simp)) rfl (fun key lease => ?_)
        rw [h.leased_after hg hholds (fun key => SortedMap.get?_erase _ _ _)]
        simp
      · rw [h.unlock_of_lost hg hholds]
        refine h.change hg rfl rfl (fun hheld => absurd hheld (by simp)) rfl (fun key lease => ?_)
        constructor
        · intro hget
          refine .inl ⟨fun htoken => ?_, hget⟩
          obtain ⟨rfl, rfl⟩ := h.eq_of_leased hg hget htoken
          exact hholds ((h.leased_iff hg).mp hget)
        · rintro (⟨-, hget⟩ | ⟨-, hheld, -⟩)
          · exact hget
          · cases hheld

theorem look (h : x.Kept) (key : String) (duration : Time) : (x.look key duration).Kept := by
  unfold Tenancy.look
  split
  · next lock bus hlook => exact h.note hlook
  · exact h

theorem lock (h : x.Kept) (ctx : Context) (key : String) (duration : Time) :
    (x.lock ctx key duration).Kept := by
  obtain ⟨n, -, ⟨e, -, hlock⟩ | ⟨lock, bus, -, hlook, hlock⟩⟩ :=
    x.bus.lock_cases x.now key duration ctx
  · rw [Tenancy.lock, hlock]
    exact h.later (Bus.le_lookAt _ _)
  · rw [Tenancy.lock, hlock]
    exact (h.later (Bus.le_lookAt _ _)).note hlook

theorem step (h : x.Kept) (move : Move) : (x.step move).Kept := by
  cases move with
  | elapse duration => exact h.later (Nat.le_add_right _ _)
  | lock ctx key duration => exact h.lock ctx key duration
  | look key duration => exact h.look key duration
  | keepAlive n => exact h.keepAlive n
  | unlock n => exact h.unlock n

theorem run (moves : List Move) : (Tenancy.run moves).Kept := by
  induction moves using List.reverseRecOn with
  | nil => exact start
  | append_singleton moves move ih =>
      rw [Tenancy.run, List.foldl_append]
      exact ih.step move

end Kept

section Keys

variable (x : Tenancy)

-- Grants are never forgotten.
theorem keys_step (move : Move) : x.keys <+: (x.step move).keys := by
  cases move with
  | elapse duration => exact List.prefix_refl _
  | lock ctx key duration =>
      simp only [step, lock]
      split
      · rw [keys_note]
        exact List.prefix_append _ _
      · exact List.prefix_refl _
  | look key duration =>
      simp only [step, look]
      split
      · rw [keys_note]
        exact List.prefix_append _ _
      · exact List.prefix_refl _
  | keepAlive n =>
      simp only [step, keepAlive]
      split
      · exact List.prefix_refl _
      · next g hg =>
        split
        · next bus _ =>
          simp only [keys_set x bus hg { g with since := x.now } rfl, List.prefix_rfl]
        · exact List.prefix_refl _
  | unlock n =>
      simp only [step, unlock]
      split
      · exact List.prefix_refl _
      · next g hg =>
        have hkey : (x.bus.unlock g.lock).1.key = g.lock.key := by
          unfold Bus.unlock
          split <;> rfl
        simp only [keys_set x _ hg { g with lock := (x.bus.unlock g.lock).1 } hkey, List.prefix_rfl]

theorem keys_foldl (moves : List Move) : x.keys <+: (moves.foldl step x).keys := by
  induction moves generalizing x with
  | nil => exact List.prefix_refl _
  | cons move rest ih => exact (keys_step x move).trans (ih (x.step move))

theorem Superseded.of_prefix {x y : Tenancy} {n : Nat} (h : x.Superseded n)
    (hkeys : x.keys <+: y.keys) : y.Superseded n := by
  obtain ⟨m, key, hlt, hn, hm⟩ := h
  have hstays {k : Nat} (hk : x.keys[k]? = some key) : y.keys[k]? = some key := by
    obtain ⟨hbound, -⟩ := List.getElem?_eq_some_iff.mp hk
    obtain ⟨more, hmore⟩ := hkeys
    rw [← hmore, List.getElem?_append_left hbound, hk]
  exact ⟨m, key, hlt, hstays hn, hstays hm⟩

end Keys

-- A lock is granted just if nobody has it in force, and once its key was granted again, its holder is
-- told so for good when it wants to keep it alive, and gives up nothing.
theorem leases_exclude (moves later : List Move) :
    let x := run moves
    let y := run (moves ++ later)
    (∀ key duration, (x.bus.look x.now key duration).isSome ↔
      ∀ g ∈ x.grants, g.lock.key = key → ¬g.InForce x.now) ∧
    (∀ ctx key duration lock bus now, x.bus.lock ctx x.now key duration = (.ok lock, bus, now) →
      ∀ g ∈ x.grants, g.lock.key = key → ¬g.InForce now) ∧
    ∀ n, x.Superseded n → ∃ g : Grant, y.grants[n]? = some g ∧
      y.bus.keepAlive y.now g.lock =
        .error (.conflict ("bus lock " ++ g.lock.key ++ " was lost")) ∧
      (y.bus.unlock g.lock).2 = y.bus := by
  intro x y
  have hx : x.Kept := Kept.run moves
  have hy : y.Kept := Kept.run (moves ++ later)
  refine ⟨hx.look_iff, ?_, ?_⟩
  · intro ctx key duration lock bus now hlock g hm hkey
    obtain ⟨n, -, ⟨e, -, hfailed⟩ | ⟨lock', bus', -, hlook, hgranted⟩⟩ :=
      x.bus.lock_cases x.now key duration ctx
    · rw [hlock] at hfailed
      cases hfailed
    · rw [hlock] at hgranted
      cases hgranted
      have hthen := hx.later (Bus.le_lookAt x.now n)
      exact (hthen.look_iff key duration).mp (Option.isSome_of_eq_some hlook) g hm hkey
  · intro n hlost
    have hkeys : x.keys <+: y.keys := by
      have hy' : y = later.foldl step x := List.foldl_append
      rw [hy']
      exact keys_foldl x later
    have hlost' := hlost.of_prefix hkeys
    obtain ⟨g, hg⟩ : ∃ g, y.grants[n]? = some g := by
      have hlt := Superseded.lt_length y hlost'
      exact ⟨_, List.getElem?_eq_getElem (by omega)⟩
    have hnot : ¬(g.lock.held ∧ ¬y.Superseded n) := fun h => h.2 hlost'
    exact ⟨g, hg, hy.keepAlive_of_lost hg hnot y.now, by rw [hy.unlock_of_lost hg hnot]⟩

-- A lock is taken over when its lease has run out. The new holder keeps it, although the old one gives
-- up what it once had.
theorem leases_exclude_takeover :
    let moves : List Move := [.lock Context.background "k" (Time.ofMillis 5),
      .elapse (Time.ofMillis 20), .lock Context.background "k" (Time.ofMillis 10000)]
    let x := run moves
    let y := run (moves ++ [.keepAlive 1, .unlock 0])
    x.Superseded 0 ∧
      (∃ g : Grant, x.grants[1]? = some g ∧ g.InForce x.now ∧ (x.bus.look x.now "k" 1).isNone) ∧
      ∃ g : Grant, y.grants[0]? = some g ∧
        y.bus.keepAlive y.now g.lock =
          .error (.conflict ("bus lock " ++ g.lock.key ++ " was lost")) ∧
        (y.bus.unlock g.lock).2 = y.bus ∧ y.bus.heldLocks = 1 := by
  intro moves x y
  have hlost : x.Superseded 0 := ⟨1, "k", by decide, rfl, rfl⟩
  obtain ⟨hlook, -, hgone⟩ := leases_exclude moves [.keepAlive 1, .unlock 0]
  obtain ⟨g, hg, hkeep, hunlock⟩ := hgone 0 hlost
  have hforce : ∃ g : Grant, x.grants[1]? = some g ∧ g.InForce x.now := ⟨_, rfl, rfl, by decide⟩
  obtain ⟨g', hg', hforce⟩ := hforce
  have hkey : g'.lock.key = "k" := by cases hg'; rfl
  have hnone : ¬(x.bus.look x.now "k" 1).isSome := fun hsome =>
    (hlook "k" 1).mp hsome g' (List.mem_of_getElem? hg') hkey hforce
  exact ⟨hlost, ⟨g', hg', hforce, by simpa using hnone⟩, g, hg, hkeep, hunlock, rfl⟩

end Tenancy

end DocStore
