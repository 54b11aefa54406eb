import DocStore.Proofs.SortedMap
import DocStore.Proofs.Storage.Chain

namespace DocStore

-- A commit that wrote something: whose it was, and what it wrote.
structure Commit where
  client : Nat
  writes : SortedMap Bytes (Option Bytes)

-- Every commit there ever was, the oldest first. The first of them made version 1.
abbrev CommitLog := List Commit

namespace CommitLog

variable {log : CommitLog} {version : Nat} {key : Bytes}

-- The map that was committed at a version. A version to come looks like the newest one.
def mapAt (log : CommitLog) (version : Nat) : SortedMap Bytes Bytes :=
  (log.take version).foldl (fun map commit => map.setAll commit.writes.toList) SortedMap.empty

def current (log : CommitLog) : SortedMap Bytes Bytes := log.mapAt log.length

def written? (log : CommitLog) (version : Nat) (key : Bytes) : Option (Option Bytes) :=
  match version with
  | 0 => none
  | n + 1 => log[n]?.bind (fun commit => commit.writes.get? key)

@[simp] theorem mapAt_nil : mapAt [] version = SortedMap.empty := by simp [mapAt]

@[simp] theorem current_nil : current [] = SortedMap.empty := mapAt_nil

theorem mapAt_of_length_le (h : log.length ≤ version) : log.mapAt version = log.current := by
  simp [mapAt, current, List.take_of_length_le h]

theorem mapAt_append (commit : Commit) (h : version ≤ log.length) :
    mapAt (log ++ [commit]) version = log.mapAt version := by
  simp [mapAt, List.take_append_of_le_length h]

theorem mapAt_of_prefix {later : CommitLog} (h : log <+: later) (hle : version ≤ log.length) :
    later.mapAt version = log.mapAt version := by
  obtain ⟨more, rfl⟩ := h
  simp [mapAt, List.take_append_of_le_length hle]

theorem mapAt_eq_current_take (log : CommitLog) (version : Nat) :
    log.mapAt version = current (log.take version) := by
  rw [current, mapAt, mapAt, List.take_of_length_le (Nat.le_refl _)]

-- A commit performs all its writes at once, on what was committed before.
theorem current_append (log : CommitLog) (commit : Commit) :
    current (log ++ [commit]) = log.current.setAll commit.writes.toList := by
  simp [current, mapAt, List.take_of_length_le]

theorem written?_append_of_le (commit : Commit) (h : version ≤ log.length) :
    written? (log ++ [commit]) version key = log.written? version key := by
  cases version with
  | zero => rfl
  | succ n => simp [written?, List.getElem?_append_left (show n < log.length by omega)]

theorem written?_append_length (log : CommitLog) (commit : Commit) (key : Bytes) :
    written? (log ++ [commit]) (log.length + 1) key = commit.writes.get? key := by
  simp [written?]

theorem le_length_of_written? {value : Option Bytes}
    (h : log.written? version key = some value) : version ≤ log.length := by
  cases version with
  | zero => exact Nat.zero_le _
  | succ n =>
      obtain ⟨commit, hc, -⟩ := Option.bind_eq_some_iff.mp h
      obtain ⟨hn, -⟩ := List.getElem?_eq_some_iff.mp hc
      omega

theorem written?_of_length_lt (h : log.length < version) : log.written? version key = none := by
  by_contra hne
  obtain ⟨value, hv⟩ := Option.ne_none_iff_exists'.mp hne
  exact absurd (le_length_of_written? hv) (Nat.not_le.mpr h)

-- A key that no version after some version wrote is still as it was then.
theorem get?_current_of_unwritten (h : version ≤ log.length)
    (hun : ∀ later, version < later → log.written? later key = none) :
    (log.mapAt version).get? key = log.current.get? key := by
  induction log using List.reverseRecOn with
  | nil => simp
  | append_singleton log commit ih =>
      rw [List.length_append, List.length_singleton] at h
      rcases Nat.lt_or_ge log.length version with hlt | hle
      · rw [mapAt_of_length_le (by simp; omega)]
      · have hlast := hun (log.length + 1) (by omega)
        rw [written?_append_length] at hlast
        rw [mapAt_append _ hle, current_append, SortedMap.get?_setAll, hlast, Option.getD_none]
        apply ih hle
        intro later hlater
        rcases Nat.lt_or_ge log.length later with hl | hl
        · exact written?_of_length_lt hl
        · rw [← written?_append_of_le commit hl]
          exact hun later hlater

end CommitLog

-- What a chain, pruned or not, has to tell about the commits of its key as long as nobody reads
-- versions older than `oldest`.
structure VersionChain.Tells (chain : VersionChain) (log : CommitLog) (key : Bytes)
    (oldest : Nat) : Prop where
  -- every version that is kept was committed so
  genuine : ∀ e ∈ chain, log.written? e.1 key = some e.2
  -- the values that readers may ask for
  answers : ∀ version, oldest ≤ version →
    chain.valueAt? version = (log.mapAt version).get? key
  -- commits that readers may not have seen are not forgotten, be they deletions
  remembers : ∀ version value, oldest < version → log.written? version key = some value →
    ∃ e, chain.getLast? = some e ∧ version ≤ e.1

namespace VersionChain.Tells

open CommitLog

variable {chain : VersionChain} {log : CommitLog} {key : Bytes} {oldest : Nat}

theorem bounded (h : chain.Tells log key oldest) : ∀ e ∈ chain, e.1 ≤ log.length :=
  fun e he => le_length_of_written? (h.genuine e he)

theorem mono (h : chain.Tells log key oldest) {later : Nat} (hle : oldest ≤ later) :
    chain.Tells log key later where
  genuine := h.genuine
  answers version hv := h.answers version (Nat.le_trans hle hv)
  remembers version value hv := h.remembers version value (Nat.lt_of_le_of_lt hle hv)

theorem empty (key : Bytes) : Tells [] [] key oldest where
  genuine := by simp
  answers version _ := by simp [valueAt?]
  remembers version value _ hw := by cases version <;> simp [written?] at hw

-- Pruning as far as nobody looks leaves all that a chain has to tell.
theorem prune (h : chain.Tells log key oldest) :
    (chain.prune oldest).Tells log key oldest where
  genuine e he := h.genuine e ((prune_sublist chain oldest).subset he)
  answers version hv := by rw [valueAt?_prune chain hv, h.answers version hv]
  remembers version value hv hw := by
    obtain ⟨e, he, hle⟩ := h.remembers version value hv hw
    exact ⟨e, getLast?_prune he (Nat.lt_of_lt_of_le hv hle), hle⟩

-- A chain takes up what a commit writes to its key.
theorem record (h : chain.Tells log key oldest) (commit : Commit) {value : Option Bytes}
    (hw : commit.writes.get? key = some value) :
    (chain.record (log.length + 1) value).Tells (log ++ [commit]) key oldest := by
  rw [record_of_lt (fun e he => Nat.lt_succ_of_le (h.bounded e he))]
  constructor
  case genuine =>
    intro e he
    rcases List.mem_append.mp he with he | he
    · rw [written?_append_of_le _ (h.bounded e he)]
      exact h.genuine e he
    · rw [List.mem_singleton.mp he]
      exact (written?_append_length log commit key).trans hw
  case answers =>
    intro version hv
    rcases Nat.lt_or_ge log.length version with hlt | hle
    · rw [valueAt?_append_of_le hlt, mapAt_of_length_le (by simp; omega), current_append,
        SortedMap.get?_setAll, hw, Option.getD_some]
    · rw [valueAt?_append_of_lt (Nat.lt_succ_of_le hle), h.answers version hv, mapAt_append _ hle]
  case remembers =>
    intro version value' _ hw'
    refine ⟨_, List.getLast?_concat, ?_⟩
    simpa using le_length_of_written? hw'

-- A chain whose key a commit leaves alone has nothing to take up.
theorem append (h : chain.Tells log key oldest) (hold : oldest ≤ log.length)
    (commit : Commit) (hw : commit.writes.get? key = none) :
    chain.Tells (log ++ [commit]) key oldest := by
  constructor
  case genuine =>
    intro e he
    rw [written?_append_of_le _ (h.bounded e he)]
    exact h.genuine e he
  case answers =>
    intro version hv
    rcases Nat.lt_or_ge log.length version with hlt | hle
    · have hnow : (log ++ [commit]).length ≤ version := by simp; omega
      rw [valueAt?_of_bounded h.bounded (Nat.le_of_lt hlt), h.answers _ hold,
        mapAt_of_length_le hnow, current_append, SortedMap.get?_setAll, hw]
      rfl
    · rw [h.answers version hv, mapAt_append _ hle]
  case remembers =>
    intro version value hv hw'
    rcases Nat.lt_or_ge log.length version with hlt | hle
    · have hlast : version = log.length + 1 := by
        have := le_length_of_written? hw'
        simp only [List.length_append, List.length_singleton] at this
        omega
      rw [hlast, written?_append_length, hw] at hw'
      cases hw'
    · rw [written?_append_of_le _ hle] at hw'
      exact h.remembers version value hv hw'

end VersionChain.Tells

end DocStore
