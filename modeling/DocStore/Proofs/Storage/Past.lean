import DocStore.Proofs.Storage.Versions

-- A store that is pruned time and again answers, for the versions that were to stay readable, as if
-- the batches up to them were performed anew.
namespace DocStore

-- What is done to a store of versions.
inductive VersionStore.Step where
  | apply (writes : List Write) (version : Nat)
  | prune (keys : List Bytes) (oldest : Nat)

namespace VersionStore.Step

def perform (store : VersionStore) : Step → VersionStore
  | .apply writes version => store.apply writes version
  | .prune keys oldest => store.prune keys oldest

-- What a reader at a version is to see of it. Nobody is to see that something was pruned.
def shown (version : Nat) (map : SortedMap Bytes Bytes) : Step → SortedMap Bytes Bytes
  | .apply writes newer => if newer ≤ version then map.setAll writes else map
  | .prune _ _ => map

def writes : Step → List Write
  | .apply writes _ => writes
  | .prune _ _ => []

def version? : Step → Option Nat
  | .apply _ version => some version
  | .prune _ _ => none

def bound? : Step → Option Nat
  | .apply _ _ => none
  | .prune _ oldest => some oldest

end VersionStore.Step

-- All that was done to a store, from the empty one on.
abbrev Past := List VersionStore.Step

namespace Past

def store (past : Past) : VersionStore := past.foldl VersionStore.Step.perform .empty

-- The map that the batches up to a version make.
def mapAt (past : Past) (version : Nat) : SortedMap Bytes Bytes :=
  past.foldl (VersionStore.Step.shown version) .empty

def versions (past : Past) : List Nat := past.filterMap (·.version?)

-- The versions up to which it was pruned.
def bounds (past : Past) : List Nat := past.filterMap (·.bound?)

-- Every batch has a greater version than those before, and writes every key at most once. Of what
-- is pruned, and how far, nothing is asked.
structure Orderly (past : Past) : Prop where
  ascending : past.versions.Pairwise (· < ·)
  distinct : ∀ step ∈ past, (step.writes.map (·.1)).Nodup

variable {past : Past} {writes : List Write} {keys : List Bytes} {version oldest : Nat}

@[simp] theorem store_append (past : Past) (step : VersionStore.Step) :
    store (past ++ [step]) = step.perform past.store := by simp [store]

@[simp] theorem mapAt_append (past : Past) (step : VersionStore.Step) (version : Nat) :
    mapAt (past ++ [step]) version = step.shown version (past.mapAt version) := by simp [mapAt]

@[simp] theorem versions_apply :
    versions (past ++ [.apply writes version]) = past.versions ++ [version] := by
  simp [versions, VersionStore.Step.version?]

@[simp] theorem versions_prune : versions (past ++ [.prune keys oldest]) = past.versions := by
  simp [versions, VersionStore.Step.version?]

@[simp] theorem bounds_apply : bounds (past ++ [.apply writes version]) = past.bounds := by
  simp [bounds, VersionStore.Step.bound?]

@[simp] theorem bounds_prune : bounds (past ++ [.prune keys oldest]) = past.bounds ++ [oldest] := by
  simp [bounds, VersionStore.Step.bound?]

theorem Orderly.of_append {step : VersionStore.Step} (h : Orderly (past ++ [step])) :
    past.Orderly where
  ascending := by
    have hall := h.ascending
    rw [versions, List.filterMap_append] at hall
    exact (List.pairwise_append.mp hall).1
  distinct other hm := h.distinct other (List.mem_append_left _ hm)

theorem Orderly.lt_of_apply (h : Orderly (past ++ [.apply writes version])) :
    ∀ older ∈ past.versions, older < version := by
  have hall := h.ascending
  rw [versions_apply, List.pairwise_append] at hall
  exact fun older hm => hall.2.2 older hm version (by simp)

theorem Orderly.nodup_of_apply (h : Orderly (past ++ [.apply writes version])) :
    (writes.map (·.1)).Nodup := h.distinct (.apply writes version) (by simp)

end Past

-- A chain has those versions of a key that readers from version `oldest` on may ask for.
structure VersionChain.Follows (chain : VersionChain) (past : Past) (key : Bytes)
    (oldest : Nat) : Prop where
  ascending : chain.Pairwise (fun a b => a.1 < b.1)
  applied : ∀ e ∈ chain, e.1 ∈ past.versions
  answers : ∀ version, oldest ≤ version →
    chain.valueAt? version = (past.mapAt version).get? key

namespace VersionChain.Follows

variable {chain : VersionChain} {past : Past} {key : Bytes} {oldest : Nat}

theorem start (key : Bytes) (oldest : Nat) : Follows [] [] key oldest where
  ascending := .nil
  applied := by simp
  answers _ _ := rfl

theorem prune (h : chain.Follows past key oldest) {bound : Nat} (hle : bound ≤ oldest) :
    (chain.prune bound).Follows past key oldest where
  ascending := h.ascending.sublist (prune_sublist chain bound)
  applied e he := h.applied e ((prune_sublist chain bound).subset he)
  answers version hv := by rw [valueAt?_prune chain (Nat.le_trans hle hv), h.answers version hv]

theorem pruned (h : chain.Follows past key oldest) (keys : List Bytes) (bound : Nat) :
    chain.Follows (past ++ [.prune keys bound]) key oldest where
  ascending := h.ascending
  applied e he := by rw [Past.versions_prune]; exact h.applied e he
  answers version hv := by rw [Past.mapAt_append]; exact h.answers version hv

variable {writes : List Write} {version : Nat}

-- A chain takes up what a batch writes to its key.
theorem record (h : chain.Follows past key oldest) (hnodup : (writes.map (·.1)).Nodup)
    (hnew : ∀ older ∈ past.versions, older < version) {value : Option Bytes}
    (hw : Assoc.get? key writes = some value) :
    (chain.record version value).Follows (past ++ [.apply writes version]) key oldest := by
  have hbelow : ∀ e ∈ chain, e.1 < version := fun e he => hnew e.1 (h.applied e he)
  rw [record_of_lt hbelow]
  constructor
  case ascending =>
    rw [List.pairwise_append]
    exact ⟨h.ascending, List.pairwise_singleton _ _, by simpa using hbelow⟩
  case applied =>
    intro e he
    rw [Past.versions_apply]
    rcases List.mem_append.mp he with he | he
    · exact List.mem_append_left _ (h.applied e he)
    · simp [List.mem_singleton.mp he]
  case answers =>
    intro reader hv
    rw [Past.mapAt_append, VersionStore.Step.shown]
    by_cases hle : version ≤ reader
    · rw [if_pos hle, valueAt?_append_of_le hle, SortedMap.get?_setAll_of_nodup _ hnodup, hw]
      rfl
    · rw [if_neg hle, valueAt?_append_of_lt (Nat.not_le.mp hle), h.answers reader hv]

-- A chain whose key a batch leaves alone has nothing to take up.
theorem append (h : chain.Follows past key oldest) (hnodup : (writes.map (·.1)).Nodup)
    (version : Nat) (hw : Assoc.get? key writes = none) :
    chain.Follows (past ++ [.apply writes version]) key oldest where
  ascending := h.ascending
  applied e he := by rw [Past.versions_apply]; exact List.mem_append_left _ (h.applied e he)
  answers reader hv := by
    rw [Past.mapAt_append, VersionStore.Step.shown, h.answers reader hv]
    split
    · rw [SortedMap.get?_setAll_of_nodup _ hnodup, hw]
      rfl
    · rfl

end VersionChain.Follows

namespace Past

variable {past : Past} {oldest : Nat}

-- One step keeps every chain in line with the past, if no pruning goes beyond the oldest reader.
theorem Orderly.follows_step {step : VersionStore.Step} (h : Orderly (past ++ [step]))
    (hbounds : ∀ bound ∈ bounds (past ++ [step]), bound ≤ oldest)
    (hf : ∀ key, (past.store.chain key).Follows past key oldest) (key : Bytes) :
    ((store (past ++ [step])).chain key).Follows (past ++ [step]) key oldest := by
  rw [store_append]
  cases step with
  | apply writes version =>
      simp only [VersionStore.Step.perform]
      rw [VersionStore.chain_apply past.store h.nodup_of_apply]
      cases hw : Assoc.get? key writes with
      | some value => exact (hf key).record h.nodup_of_apply h.lt_of_apply hw
      | none => exact (hf key).append h.nodup_of_apply version hw
  | prune keys bound =>
      have hle : bound ≤ oldest := hbounds bound (by simp)
      have hkept := VersionStore.chain_prune_of (P := fun chain => chain.Follows past key oldest)
        (fun _ hchain => hchain.prune hle) (hf key) keys
      exact hkept.pruned keys bound

theorem Orderly.follows (h : past.Orderly) (hbounds : ∀ bound ∈ past.bounds, bound ≤ oldest)
    (key : Bytes) : (past.store.chain key).Follows past key oldest := by
  induction past using List.reverseRecOn generalizing key with
  | nil => exact .start key oldest
  | append_singleton past step ih =>
      have hbefore : ∀ bound ∈ bounds past, bound ≤ oldest := by
        intro bound hm
        apply hbounds
        rw [bounds, List.filterMap_append]
        exact List.mem_append_left _ hm
      exact h.follows_step hbounds (ih h.of_append hbefore) key

-- Whatever was pruned between the batches, every version from the bounds on reads as the batches
-- up to it, key by key and range by range, and the versions of every key ascend.
theorem reads_as_unpruned (h : past.Orderly) {version : Nat}
    (hbounds : ∀ bound ∈ past.bounds, bound ≤ version) :
    (∀ key, past.store.getAt? key version = (past.mapAt version).get? key) ∧
      (∀ range limit, past.store.scanAt range version limit =
        (range.select (past.mapAt version)).take limit) ∧
      ∀ key, (past.store.chain key).Pairwise (fun a b => a.1 < b.1) := by
  have hfollows : ∀ key, (past.store.chain key).Follows past key version := h.follows hbounds
  have hget : ∀ key, past.store.getAt? key version = (past.mapAt version).get? key :=
    fun key => (hfollows key).answers version (Nat.le_refl version)
  refine ⟨hget, fun range limit => ?_, fun key => (hfollows key).ascending⟩
  rw [VersionStore.scanAt, VersionStore.pairs_eq_select hget range]

-- A key is deleted, its deletion is forgotten, and then it is written anew.
def recreated : Past :=
  [.apply [([2], some [20]), ([1], some [10])] 3, .apply [([1], none)] 5, .prune [[1], [2], [1]] 6,
    .apply [([1], some [11]), ([3], some [30])] 9, .prune [[3], [1]] 7]

theorem reads_as_unpruned_recreated :
    recreated.Orderly ∧ (∀ bound ∈ recreated.bounds, bound ≤ 7) ∧
      recreated.store.getAt? [1] 7 = none ∧
      recreated.store.scanAt .all 7 5 = [([2], [20])] ∧
      (recreated.store.chain [1]).Pairwise (fun a b => a.1 < b.1) := by
  have horderly : recreated.Orderly := ⟨by decide, by decide⟩
  have hbounds : ∀ bound ∈ recreated.bounds, bound ≤ 7 := by decide
  obtain ⟨hget, hscan, hascending⟩ := reads_as_unpruned horderly hbounds
  exact ⟨horderly, hbounds, (hget [1]).trans rfl, (hscan .all 5).trans rfl, hascending [1]⟩

end Past

end DocStore
