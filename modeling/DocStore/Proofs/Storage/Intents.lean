import DocStore.Proofs.SortedMap
import DocStore.Storage.Intents

-- What comes of asking for keys, whatever the transaction has reserved before.
namespace DocStore

namespace IntentTable

variable {table : IntentTable} {id : Nat}

theorem mem_order_iff (keys : List Bytes) (key : Bytes) : key ∈ order keys ↔ key ∈ keys := by
  have step : ∀ (todo : List Bytes) (acc : List (Bytes × Unit)),
      (Assoc.get? key ((todo.map (fun k => (k, ()))).foldl
        (fun acc e => Assoc.insert e.1 e.2 acc) acc)).isSome ↔
        key ∈ todo ∨ (Assoc.get? key acc).isSome := by
    intro todo
    induction todo with
    | nil => simp
    | cons k rest ih =>
        intro acc
        rw [List.map_cons, List.foldl_cons, ih, Assoc.get?_insert, List.mem_cons]
        by_cases hk : k = key
        · simp [hk]
        · simp [hk, Ne.symm hk]
  have h := step keys []
  rw [order, ← Assoc.isSome_get?_iff]
  simpa [Assoc.get?, Assoc.ofList] using h

theorem pairwise_order (keys : List Bytes) : (order keys).Pairwise (· < ·) := by
  rw [order, List.pairwise_map]
  exact Assoc.ascending_ofList _

-- Somebody else has the key.
def Bars (table : IntentTable) (id : Nat) (key : Bytes) : Prop :=
  ∃ owner, table.owner? key = some owner ∧ owner ≠ id

theorem not_bars_iff {key : Bytes} :
    ¬table.Bars id key ↔ table.owner? key = none ∨ table.owner? key = some id := by
  unfold Bars
  cases table.owner? key with
  | none => simp
  | some owner => simp

theorem take?_eq_none_iff {key : Bytes} : table.take? id key = none ↔ table.Bars id key := by
  unfold take? Bars
  cases table.owner? key with
  | none => simp
  | some owner => simp

theorem take?_eq_some {key : Bytes} {taken : IntentTable} (h : table.take? id key = some taken) :
    (table.owner? key = none ∨ table.owner? key = some id) ∧
      ∀ other, taken.owner? other = if key = other then some id else table.owner? other := by
  have hinsert : ∀ other, owner? ⟨table.owners.insert key id⟩ other =
      if key = other then some id else table.owner? other :=
    fun other => SortedMap.get?_insert table.owners key other id
  simp only [take?] at h
  split at h
  · next owner ho =>
    split at h
    · next heq =>
      cases h
      exact ⟨.inr (heq ▸ ho), hinsert⟩
    · cases h
  · next ho =>
    cases h
    exact ⟨.inl ho, hinsert⟩

-- Keys that are taken were free, or belonged to the taker.
theorem takeAll_spec {keys taken : List Bytes} {progress : Progress} {after : IntentTable}
    (h : table.takeAll id keys = (progress, taken, after)) :
    (∀ key, after.owner? key = if key ∈ taken then some id else table.owner? key) ∧
      (∀ key ∈ taken, table.owner? key = none ∨ table.owner? key = some id) ∧
      (progress = .granted → taken = keys) := by
  induction keys generalizing table taken with
  | nil =>
      simp only [takeAll, Prod.mk.injEq] at h
      obtain ⟨-, rfl, rfl⟩ := h
      simp
  | cons key rest ih =>
      simp only [takeAll] at h
      split at h
      · next ht =>
        simp only [Prod.mk.injEq] at h
        obtain ⟨rfl, rfl, rfl⟩ := h
        simp
      · next table' ht =>
        simp only [Prod.mk.injEq] at h
        obtain ⟨rfl, rfl, rfl⟩ := h
        obtain ⟨hfree, howner⟩ := take?_eq_some ht
        obtain ⟨hafter, htaken, hall⟩ :=
          ih (show table'.takeAll id rest = _ from rfl)
        refine ⟨fun other => ?_, fun other hm => ?_, fun hp => by rw [hall hp]⟩
        · rw [hafter, howner]
          by_cases hk : key = other
          · simp [hk]
          · simp [hk, Ne.symm hk]
        · rcases List.mem_cons.mp hm with rfl | hm
          · exact hfree
          · have hother := htaken other hm
            rw [howner] at hother
            by_cases hk : key = other
            · exact hk ▸ hfree
            · simpa [hk] using hother

-- A transaction that waits has the keys up to the one that it waits for.
theorem takeAll_waiting {keys taken : List Bytes} {after : IntentTable}
    (h : table.takeAll id keys = (.waiting, taken, after)) :
    ∃ barred rest, keys = taken ++ barred :: rest ∧ after.Bars id barred := by
  induction keys generalizing table taken with
  | nil => cases h
  | cons key rest ih =>
      simp only [takeAll] at h
      split at h
      · next ht =>
        simp only [Prod.mk.injEq, true_and] at h
        obtain ⟨rfl, rfl⟩ := h
        exact ⟨key, rest, rfl, take?_eq_none_iff.mp ht⟩
      · next table' ht =>
        rcases hall : table'.takeAll id rest with ⟨progress, taken', after'⟩
        rw [hall] at h
        simp only [Prod.mk.injEq] at h
        obtain ⟨rfl, rfl, rfl⟩ := h
        obtain ⟨barred, rest', rfl, hbars⟩ := ih hall
        exact ⟨barred, rest', rfl, hbars⟩

theorem takeAll_of_free {keys : List Bytes}
    (hfree : ∀ key, table.owner? key = none ∨ table.owner? key = some id) :
    (table.takeAll id keys).1 = .granted := by
  rcases h : table.takeAll id keys with ⟨_ | _, taken, after⟩
  · rfl
  · obtain ⟨hafter, -, -⟩ := takeAll_spec h
    obtain ⟨barred, rest, -, hbars⟩ := takeAll_waiting h
    refine absurd hbars (not_bars_iff.mpr ?_)
    rw [hafter]
    split
    · exact .inr rfl
    · exact hfree barred

theorem owner?_drop (table : IntentTable) (keys : List Bytes) (key : Bytes) :
    (table.drop keys).owner? key = if key ∈ keys then none else table.owner? key := by
  induction keys generalizing table with
  | nil => simp [drop]
  | cons k rest ih =>
      have hstep : (table.drop (k :: rest)).owner? key =
          (drop ⟨table.owners.erase k⟩ rest).owner? key := rfl
      rw [hstep, ih]
      simp only [owner?, SortedMap.get?_erase, List.mem_cons]
      by_cases hk : k = key
      · simp [hk]
      · simp [hk, Ne.symm hk]

theorem owner?_release (table : IntentTable) (id : Nat) (keys : List Bytes) (key : Bytes) :
    (table.release id keys).owner? key =
      if key ∈ keys ∧ table.owner? key = some id then none else table.owner? key := by
  induction keys generalizing table with
  | nil => simp [release]
  | cons k rest ih =>
      have hstep : (table.release id (k :: rest)).owner? key =
          (release ⟨if table.owners.get? k = some id then table.owners.erase k
            else table.owners⟩ id rest).owner? key := rfl
      rw [hstep, ih]
      simp only [List.mem_cons]
      by_cases ho : table.owners.get? k = some id
      · simp only [ho, ite_true, owner?, SortedMap.get?_erase]
        by_cases hk : k = key
        · subst hk
          simp [ho]
        · simp [hk, Ne.symm hk]
      · simp only [ho, ite_false]
        by_cases hk : key = k
        · subst hk
          simp [owner?, ho]
        · simp [hk]

-- Tables in which every key has the same owner are the same.
theorem ext_owner? {table after : IntentTable}
    (h : ∀ key, table.owner? key = after.owner? key) : table = after :=
  congrArg IntentTable.mk (SortedMap.ext_get? h)

section Acquisition

variable {keys taken : List Bytes} {after : IntentTable}

theorem owner?_of_granted (h : table.acquire id keys = (.granted, taken, after)) :
    taken = order keys ∧
      (∀ key ∈ keys, table.owner? key = none ∨ table.owner? key = some id) ∧
      ∀ key, after.owner? key = if key ∈ keys then some id else table.owner? key := by
  simp only [acquire] at h
  split at h
  · next taken' after' ht =>
    simp only [Prod.mk.injEq, true_and] at h
    obtain ⟨rfl, rfl⟩ := h
    obtain ⟨hafter, htaken, hall⟩ := takeAll_spec ht
    obtain rfl := hall rfl
    refine ⟨rfl, fun key hm => htaken key ((mem_order_iff keys key).mpr hm), fun key => ?_⟩
    simpa only [mem_order_iff] using hafter key
  · simp at h

-- A transaction that has to wait gives up what it asked for up to the key that it waits for, also
-- what it had before.
theorem owner?_of_waiting (h : table.acquire id keys = (.waiting, taken, after)) :
    taken = [] ∧ ∃ barred ∈ keys, table.Bars id barred ∧
      (∀ key ∈ keys, key < barred → table.owner? key = none ∨ table.owner? key = some id) ∧
      ∀ key, after.owner? key =
        if key ∈ keys ∧ key < barred then none else table.owner? key := by
  simp only [acquire] at h
  split at h
  · simp at h
  · next taken' after' ht =>
    simp only [Prod.mk.injEq, true_and] at h
    obtain ⟨rfl, rfl⟩ := h
    obtain ⟨hafter, htaken, -⟩ := takeAll_spec ht
    obtain ⟨barred, rest, horder, hbars⟩ := takeAll_waiting ht
    have hpairwise := pairwise_order keys
    rw [horder, List.pairwise_append] at hpairwise
    obtain ⟨-, hbehind, hbelow⟩ := hpairwise
    -- the keys up to the barred one are the smaller ones
    have hmem : ∀ key, key ∈ taken' ↔ key ∈ keys ∧ key < barred := by
      intro key
      rw [← mem_order_iff keys key, horder, List.mem_append, List.mem_cons]
      constructor
      · exact fun hm => ⟨.inl hm, hbelow key hm barred List.mem_cons_self⟩
      · rintro ⟨hm | rfl | hm, hlt⟩
        · exact hm
        · exact absurd hlt Std.lt_irrefl
        · exact absurd (Std.lt_trans hlt ((List.pairwise_cons.mp hbehind).1 key hm)) Std.lt_irrefl
    have hnot : barred ∉ taken' := fun hm => Std.lt_irrefl ((hmem barred).mp hm).2
    refine ⟨rfl, barred, ?_, ?_, fun key hm hlt => htaken key ((hmem key).mpr ⟨hm, hlt⟩),
      fun key => ?_⟩
    · rw [← mem_order_iff keys, horder]
      simp
    · obtain ⟨owner, howner, hne⟩ := hbars
      rw [hafter, if_neg hnot] at howner
      exact ⟨owner, howner, hne⟩
    · rw [owner?_drop, hafter]
      simp only [hmem]
      split <;> rfl

theorem acquire_granted_iff (table : IntentTable) (id : Nat) (keys : List Bytes) :
    (table.acquire id keys).1 = .granted ↔ ∀ key ∈ keys, ¬table.Bars id key := by
  rcases h : table.acquire id keys with ⟨_ | _, taken, after⟩
  · obtain ⟨-, hfree, -⟩ := owner?_of_granted h
    simpa only [not_bars_iff, true_iff] using hfree
  · obtain ⟨-, barred, hm, hbars, -⟩ := owner?_of_waiting h
    constructor
    · intro hgranted
      cases hgranted
    · exact fun hnone => absurd hbars (hnone barred hm)

-- A transaction that has to wait leaves everything as it was if and only if each key that it had
-- before, of those it asks for, comes behind one that somebody else has.
theorem acquire_unmoved_iff (h : table.acquire id keys = (.waiting, taken, after)) :
    after = table ↔ ∀ key ∈ keys, table.owner? key = some id →
      ∃ barred ∈ keys, barred < key ∧ table.Bars id barred := by
  obtain ⟨-, barred, hm, hbars, hbelow, hafter⟩ := owner?_of_waiting h
  constructor
  · rintro rfl key hkey hown
    refine ⟨barred, hm, Std.not_le.mp (fun hle => ?_), hbars⟩
    obtain ⟨owner, howner, hne⟩ := hbars
    by_cases hsame : key = barred
    · rw [← hsame, hown] at howner
      exact hne (Option.some.inj howner).symm
    · have hlost := hafter key
      rw [if_pos ⟨hkey, Std.lt_of_le_of_ne hle hsame⟩, hown] at hlost
      cases hlost
  · intro hbehind
    refine ext_owner? (fun key => ?_)
    rw [hafter]
    split
    · next hlow =>
      obtain ⟨hkey, hlt⟩ := hlow
      rcases hbelow key hkey hlt with hnone | hown
      · exact hnone.symm
      · obtain ⟨other, hother, hbefore, hbars'⟩ := hbehind key hkey hown
        exact absurd hbars' (not_bars_iff.mpr (hbelow other hother (Std.lt_trans hbefore hlt)))
    · rfl

-- A transaction that has none of the keys yet gets them all, or nothing changes.
theorem all_or_nothing {progress : Progress} (hnew : ∀ key ∈ keys, table.owner? key ≠ some id)
    (h : table.acquire id keys = (progress, taken, after)) :
    (progress = .granted ∧
        ∀ key, after.owner? key = if key ∈ keys then some id else table.owner? key) ∨
      (progress = .waiting ∧ after = table) := by
  cases progress with
  | granted => exact .inl ⟨rfl, (owner?_of_granted h).2.2⟩
  | waiting =>
      refine .inr ⟨rfl, (acquire_unmoved_iff h).mpr (fun key hkey hown => ?_)⟩
      exact absurd hown (hnew key hkey)

-- One that has some of them loses what it had on the way to a key that somebody else has.
example :
    let table := ((empty.acquire 7 [[1]]).2.2.acquire 8 [[2]]).2.2
    table.owner? [1] = some 7 ∧ (table.acquire 7 [[1], [2]]).1 = .waiting ∧
      (table.acquire 7 [[1], [2]]).2.2.owner? [1] = none := by
  decide

-- A transaction that owns nothing yet gets all the keys that it asks for, or none.
theorem acquire_granted (hfresh : ∀ key, table.owner? key ≠ some id)
    (h : table.acquire id keys = (.granted, taken, after)) :
    (∀ key, key ∈ taken ↔ key ∈ keys) ∧ (∀ key ∈ keys, table.owner? key = none) ∧
      ∀ key, after.owner? key = if key ∈ keys then some id else table.owner? key := by
  obtain ⟨rfl, hfree, hafter⟩ := owner?_of_granted h
  exact ⟨mem_order_iff keys, fun key hm => (hfree key hm).resolve_right (hfresh key), hafter⟩

-- Nobody waits for keys that nobody has.
theorem acquire_of_free (id : Nat) (keys : List Bytes)
    (hfree : ∀ key, table.owner? key = none) :
    ∃ taken after, table.acquire id keys = (.granted, taken, after) := by
  have hgranted : (table.takeAll id (order keys)).1 = .granted :=
    takeAll_of_free (fun key => .inl (hfree key))
  generalize hall : table.takeAll id (order keys) = outcome at hgranted
  obtain ⟨progress, taken, after⟩ := outcome
  obtain rfl : progress = .granted := hgranted
  exact ⟨taken, after, by simp only [acquire, hall]⟩

theorem acquire_waiting (hfresh : ∀ key, table.owner? key ≠ some id)
    (h : table.acquire id keys = (.waiting, taken, after)) (key : Bytes) :
    after.owner? key = table.owner? key := by
  obtain ⟨-, barred, -, -, hbelow, hafter⟩ := owner?_of_waiting h
  rw [hafter]
  split
  · next hlow => exact ((hbelow key hlow.1 hlow.2).resolve_right (hfresh key)).symm
  · rfl

end Acquisition

end IntentTable

end DocStore
