import DocStore.Proofs.Storage.CommitLog

namespace DocStore.VersionStore

variable {store : VersionStore} {log : CommitLog} {oldest : Nat}

-- The chain of a key after a batch of writes that writes every key at most once.
theorem chain_apply (store : VersionStore) {writes : List Write} (h : (writes.map (·.1)).Nodup)
    (version : Nat) (key : Bytes) :
    (store.apply writes version).chain key =
      match Assoc.get? key writes with
      | some value => (store.chain key).record version value
      | none => store.chain key := by
  induction writes generalizing store with
  | nil => rfl
  | cons w rest ih =>
      obtain ⟨k, x⟩ := w
      obtain ⟨hhead, hrest⟩ := List.nodup_cons.mp h
      have hstep : (store.apply ((k, x) :: rest) version).chain key =
          ((store.apply [(k, x)] version).apply rest version).chain key := rfl
      have hone : (store.apply [(k, x)] version).chain key =
          if k = key then (store.chain k).record version x else store.chain key := by
        simp only [chain, apply, List.foldl_cons, List.foldl_nil, SortedMap.get?_insert]
        split <;> rfl
      rw [hstep, ih _ hrest, hone]
      by_cases hk : k = key
      · subst hk
        simp [Assoc.get?, Assoc.get?_eq_none_iff.mpr hhead]
      · simp [Assoc.get?, hk]

theorem chain_prune_singleton (store : VersionStore) (pruned : Bytes) (oldest : Nat) (key : Bytes) :
    (store.prune [pruned] oldest).chain key =
      if pruned = key then (store.chain key).prune oldest else store.chain key := by
  simp only [chain, prune, List.foldl_cons, List.foldl_nil]
  cases hc : store.chains.get? pruned with
  | none =>
      by_cases hk : pruned = key
      · subst hk
        simp [hc, VersionChain.prune]
      · simp [hk]
  | some versions =>
      cases hp : VersionChain.prune versions oldest with
      | nil =>
          by_cases hk : pruned = key
          · subst hk
            simp [hc, hp, SortedMap.get?_erase]
          · simp [hk, hp, SortedMap.get?_erase]
      | cons first rest =>
          by_cases hk : pruned = key
          · subst hk
            simp [hc, hp, SortedMap.get?_insert]
          · simp [hk, hp, SortedMap.get?_insert]

theorem chain_prune (store : VersionStore) {keys : List Bytes} (h : keys.Nodup) (oldest : Nat)
    (key : Bytes) :
    (store.prune keys oldest).chain key =
      if key ∈ keys then (store.chain key).prune oldest else store.chain key := by
  induction keys generalizing store with
  | nil => simp [prune]
  | cons pruned rest ih =>
      obtain ⟨hnot, hrest⟩ := List.nodup_cons.mp h
      have hstep : (store.prune (pruned :: rest) oldest).chain key =
          ((store.prune [pruned] oldest).prune rest oldest).chain key := rfl
      rw [hstep, ih _ hrest, chain_prune_singleton]
      by_cases hk : pruned = key
      · subst hk
        simp [hnot]
      · simp [hk, Ne.symm hk]

-- What the pruning of a chain keeps, the pruning of a store keeps for every key.
theorem chain_prune_of {P : VersionChain → Prop} (hP : ∀ chain, P chain → P (chain.prune oldest))
    {store : VersionStore} {key : Bytes} (h : P (store.chain key)) (keys : List Bytes) :
    P ((store.prune keys oldest).chain key) := by
  induction keys generalizing store with
  | nil => exact h
  | cons pruned rest ih =>
      have hone : P ((store.prune [pruned] oldest).chain key) := by
        rw [chain_prune_singleton]
        split
        · exact hP _ h
        · exact h
      exact ih hone

theorem get?_of_chain {key : Bytes} {versions : VersionChain} (h : store.chain key = versions)
    (hne : versions ≠ []) : store.chains.get? key = some versions := by
  unfold chain at h
  cases hc : store.chains.get? key with
  | none =>
      rw [hc] at h
      exact absurd h.symm hne
  | some kept =>
      rw [hc] at h
      exact congrArg some h

-- A key that is there has versions.
def Filled (store : VersionStore) : Prop := ∀ key, store.chains.get? key ≠ some []

theorem Filled.empty : VersionStore.empty.Filled := by
  intro key
  simp [VersionStore.empty]

theorem Filled.get?_eq_none_iff (h : store.Filled) {key : Bytes} :
    store.chains.get? key = none ↔ store.chain key = [] := by
  unfold chain
  cases hc : store.chains.get? key with
  | none => simp
  | some versions =>
      have hne : versions ≠ [] := fun hnil => h key (hnil ▸ hc)
      simp [hne]

theorem Filled.apply (h : store.Filled) (writes : List Write) (version : Nat) :
    (store.apply writes version).Filled := by
  induction writes generalizing store with
  | nil => exact h
  | cons w rest ih =>
      have hone : (store.apply [w] version).Filled := by
        intro key
        simp only [VersionStore.apply, List.foldl_cons, List.foldl_nil, SortedMap.get?_insert]
        split
        · simpa using VersionChain.record_ne_nil _ version w.2
        · exact h key
      exact ih hone

theorem Filled.prune (h : store.Filled) (keys : List Bytes) (oldest : Nat) :
    (store.prune keys oldest).Filled := by
  induction keys generalizing store with
  | nil => exact h
  | cons pruned rest ih =>
      have hone : (store.prune [pruned] oldest).Filled := by
        intro key
        simp only [VersionStore.prune, List.foldl_cons, List.foldl_nil]
        split
        · exact h key
        · next versions hc =>
          split
          · simp only [SortedMap.get?_erase]
            split
            · simp
            · exact h key
          · next hne =>
            simp only [SortedMap.get?_insert]
            split
            · simpa using hne
            · exact h key
      exact ih hone

-- The pairs that are seen at a version are those of the map that the look-ups at this version make
-- up, in the same order.
theorem pairs_eq_select {map : SortedMap Bytes Bytes} {version : Nat}
    (h : ∀ key, store.getAt? key version = map.get? key) (range : KeyRange) :
    (range.select store.chains).filterMap
        (fun e => (VersionChain.valueAt? e.2 version).map (fun value => (e.1, value))) =
      range.select map := by
  have hasc := range.ascending_select store.chains
  apply Assoc.eq_of_get? (hasc.filterMap _) (range.ascending_select _)
  intro key
  rw [Assoc.get?_filterMap hasc (fun e => VersionChain.valueAt? e.2 version), range.get?_select,
    range.get?_select]
  have hkey := h key
  simp only [VersionStore.getAt?, chain] at hkey
  by_cases hc : range.contains key
  · simp only [hc, ite_true]
    rw [← hkey]
    cases store.chains.get? key with
    | none => rfl
    | some versions => rfl
  · simp [hc]

-- A store that knows enough of a log for readers from version `oldest` on.
structure Keeps (store : VersionStore) (log : CommitLog) (oldest : Nat) : Prop where
  current : store.current = log.length
  tells : ∀ key, (store.chain key).Tells log key oldest

namespace Keeps

theorem empty (oldest : Nat) : VersionStore.empty.Keeps [] oldest where
  current := rfl
  tells key := VersionChain.Tells.empty key

theorem mono (h : store.Keeps log oldest) {later : Nat} (hle : oldest ≤ later) :
    store.Keeps log later where
  current := h.current
  tells key := (h.tells key).mono hle

theorem getAt? (h : store.Keeps log oldest) (key : Bytes) {version : Nat}
    (hv : oldest ≤ version) : store.getAt? key version = (log.mapAt version).get? key :=
  (h.tells key).answers version hv

theorem pairs_eq (h : store.Keeps log oldest) (range : KeyRange) {version : Nat}
    (hv : oldest ≤ version) :
    (range.select store.chains).filterMap
        (fun e => (VersionChain.valueAt? e.2 version).map (fun value => (e.1, value))) =
      range.select (log.mapAt version) :=
  pairs_eq_select (fun key => h.getAt? key hv) range

theorem scanAt (h : store.Keeps log oldest) (range : KeyRange) {version : Nat} (limit : Nat)
    (hv : oldest ≤ version) :
    store.scanAt range version limit = (range.select (log.mapAt version)).take limit := by
  rw [VersionStore.scanAt, h.pairs_eq range hv]

theorem length_current_le (h : store.Keeps log oldest) (hold : oldest ≤ log.length) :
    log.current.toList.length ≤ store.keyCount := by
  have hpairs := h.pairs_eq KeyRange.all hold
  rw [KeyRange.select_all, KeyRange.select_all] at hpairs
  rw [CommitLog.current, ← hpairs]
  exact List.length_filterMap_le _ _

theorem scanAt_all (h : store.Keeps log oldest) (hold : oldest ≤ log.length) :
    store.scanAt KeyRange.all store.current store.keyCount = log.current.toList := by
  rw [h.current, h.scanAt _ _ hold, KeyRange.select_all]
  exact List.take_of_length_le (h.length_current_le hold)

theorem apply (h : store.Keeps log oldest) (hold : oldest ≤ log.length) (commit : Commit) :
    (store.apply commit.writes.toList (log.length + 1)).Keeps (log ++ [commit]) oldest where
  current := by simp [VersionStore.apply, h.current]
  tells key := by
    have hkeys : (commit.writes.toList.map (·.1)).Nodup := commit.writes.nodup_keys
    rw [chain_apply store hkeys]
    cases hw : Assoc.get? key commit.writes.toList with
    | none => exact (h.tells key).append hold commit hw
    | some value => exact (h.tells key).record commit hw

theorem prune (h : store.Keeps log oldest) (keys : List Bytes) :
    (store.prune keys oldest).Keeps log oldest where
  current := h.current
  tells key := chain_prune_of (P := fun chain => chain.Tells log key oldest)
    (fun _ hchain => hchain.prune) (h.tells key) keys

end Keeps

end DocStore.VersionStore
