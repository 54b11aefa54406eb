import Mathlib.Data.List.Basic
import Mathlib.Order.Basic
import DocStore.KeyRange

namespace DocStore

namespace Assoc

variable {κ α β : Type}

theorem get?_eq_none_iff [DecidableEq κ] {key : κ} {entries : List (κ × α)} :
    get? key entries = none ↔ key ∉ entries.map (·.1) := by
  induction entries with
  | nil => simp [get?]
  | cons head rest ih =>
      obtain ⟨k, v⟩ := head
      simp only [get?, List.map_cons, List.mem_cons, not_or]
      by_cases hk : k = key
      · simp [hk]
      · simp [hk, Ne.symm hk, ih]

theorem isSome_get?_iff [DecidableEq κ] {key : κ} {entries : List (κ × α)} :
    (get? key entries).isSome ↔ key ∈ entries.map (·.1) := by
  rw [← not_iff_not, ← get?_eq_none_iff, Bool.not_eq_true, Option.isSome_eq_false_iff,
    Option.isNone_iff_eq_none]

theorem get?_eq_none_of_lt [DecidableEq κ] [LE κ] [LT κ] [Std.IsLinearOrder κ]
    [Std.LawfulOrderLT κ] {key : κ} {entries : List (κ × α)} (h : ∀ e ∈ entries, key < e.1) :
    get? key entries = none := by
  rw [get?_eq_none_iff]
  intro hm
  obtain ⟨e, he, rfl⟩ := List.mem_map.mp hm
  exact Std.lt_irrefl (h e he)

theorem get?_filter [DecidableEq κ] (p : κ → Bool) (key : κ) (entries : List (κ × α)) :
    get? key (entries.filter (fun e => p e.1)) = if p key then get? key entries else none := by
  induction entries with
  | nil => simp [get?]
  | cons head rest ih =>
      obtain ⟨k, v⟩ := head
      by_cases hk : k = key
      · subst hk
        by_cases hp : p k
        · simp [hp, get?]
        · simp only [List.filter_cons, hp, Bool.false_eq_true, ite_false, ih]
      · by_cases hp : p k
        · simp only [List.filter_cons, hp, ite_true, get?, hk, ite_false, ih]
        · simp only [List.filter_cons, hp, Bool.false_eq_true, ite_false, ih, get?, hk]

theorem Ascending.filterMap [LT κ] {entries : List (κ × α)} (h : Ascending entries)
    (f : κ × α → Option β) :
    Ascending (entries.filterMap (fun e => (f e).map (fun b => (e.1, b)))) := by
  refine List.Pairwise.filterMap _ ?_ h
  intro a b hab a' ha b' hb
  obtain ⟨x, -, rfl⟩ := Option.map_eq_some_iff.mp ha
  obtain ⟨y, -, rfl⟩ := Option.map_eq_some_iff.mp hb
  exact hab

theorem get?_filterMap [DecidableEq κ] [LE κ] [LT κ] [Std.IsLinearOrder κ]
    [Std.LawfulOrderLT κ] {entries : List (κ × α)} (h : Ascending entries)
    (f : κ × α → Option β) (key : κ) :
    get? key (entries.filterMap (fun e => (f e).map (fun b => (e.1, b)))) =
      (get? key entries).bind (fun v => f (key, v)) := by
  induction entries with
  | nil => simp [get?]
  | cons head rest ih =>
      obtain ⟨k, v⟩ := head
      obtain ⟨hhead, hrest⟩ := List.pairwise_cons.mp h
      by_cases hk : k = key
      · subst hk
        have hnone := get?_eq_none_of_lt hhead
        cases hf : f (k, v) with
        | none => simp [hf, get?, ih hrest, hnone]
        | some b => simp [hf, get?]
      · cases hf : f (k, v) with
        | none => simp [hf, get?, hk, ih hrest]
        | some b => simp [hf, get?, hk, ih hrest]

end Assoc

namespace SortedMap

section Basic

variable {κ α : Type} [LT κ] [DecidableEq κ]

theorem mem_keys_iff (m : SortedMap κ α) {key : κ} : key ∈ m.keys ↔ (m.get? key).isSome :=
  Assoc.isSome_get?_iff.symm

theorem get?_eq_none_iff (m : SortedMap κ α) {key : κ} : m.get? key = none ↔ key ∉ m.keys :=
  Assoc.get?_eq_none_iff

end Basic

variable {κ α : Type} [LT κ] [DecidableEq κ] [LE κ] [DecidableLT κ] [Std.IsLinearOrder κ]
  [Std.LawfulOrderLT κ]

omit [DecidableLT κ] [DecidableEq κ] in
theorem head_keys_le (m : SortedMap κ α) {key other : κ} (h : m.keys.head? = some key)
    (hm : other ∈ m.keys) : key ≤ other := by
  have hasc := m.ascending
  unfold keys at h hm
  cases hentries : m.entries with
  | nil => simp [hentries] at h
  | cons head rest =>
      rw [hentries] at hasc h hm
      simp only [List.map_cons, List.head?_cons, Option.some.injEq] at h
      subst h
      rcases List.mem_map.mp hm with ⟨e, he, rfl⟩
      rcases List.mem_cons.mp he with rfl | he
      · exact Std.le_refl _
      · exact Std.le_of_lt ((List.pairwise_cons.mp hasc).1 e he)

omit [DecidableLT κ] [DecidableEq κ] [Std.IsLinearOrder κ] in
theorem nodup_keys (m : SortedMap κ α) : m.keys.Nodup := by
  rw [keys, List.nodup_iff_pairwise_ne, List.pairwise_map]
  exact m.ascending.imp (fun hlt => Std.ne_of_lt hlt)

omit [DecidableLT κ] [DecidableEq κ] [Std.IsLinearOrder κ] in
theorem nodup_toList (m : SortedMap κ α) : m.toList.Nodup :=
  m.ascending.imp (fun hlt heq => Std.ne_of_lt hlt (congrArg Prod.fst heq))

-- An entry that is found can be put first.
omit [DecidableLT κ] [Std.IsLinearOrder κ] in
theorem perm_cons_erase (m : SortedMap κ α) {key : κ} {value : α} (h : m.get? key = some value) :
    m.toList.Perm ((key, value) :: (m.erase key).toList) := by
  have hnotMem : (key, value) ∉ (m.erase key).toList := fun hm => (Assoc.mem_erase.mp hm).2 rfl
  rw [List.perm_ext_iff_of_nodup m.nodup_toList
    (List.nodup_cons.mpr ⟨hnotMem, (m.erase key).nodup_toList⟩)]
  rintro ⟨k, v⟩
  rw [List.mem_cons, ← get?_eq_some_iff, ← get?_eq_some_iff, get?_erase, Prod.mk.injEq]
  by_cases hk : key = k
  · subst hk
    simp [h, eq_comm]
  · simp [hk, Ne.symm hk]

omit [DecidableLT κ] in
theorem erase_eq_self (m : SortedMap κ α) {key : κ} (h : m.get? key = none) : m.erase key = m := by
  refine ext_get? (fun other => ?_)
  rw [get?_erase]
  split
  · next heq => rw [← heq, h]
  · rfl

theorem erase_insert (m : SortedMap κ α) (key : κ) (value : α) :
    (m.insert key value).erase key = m.erase key := by
  refine ext_get? (fun other => ?_)
  rw [get?_erase, get?_erase, get?_insert]
  split <;> rfl

-- Of a batch that writes every key at most once, each key gets its own write.
theorem get?_setAll_of_nodup (m : SortedMap κ α) {writes : List (κ × Option α)}
    (h : (writes.map (·.1)).Nodup) (key : κ) :
    (m.setAll writes).get? key = (Assoc.get? key writes).getD (m.get? key) := by
  induction writes generalizing m with
  | nil => simp [setAll, Assoc.get?]
  | cons w rest ih =>
      obtain ⟨k, x⟩ := w
      obtain ⟨hhead, hrest⟩ := List.nodup_cons.mp h
      have hstep : (m.setAll ((k, x) :: rest)).get? key =
          (Assoc.get? key rest).getD ((m.set k x).get? key) := ih (m.set k x) hrest
      rw [hstep, get?_set]
      by_cases hk : k = key
      · subst hk
        simp [Assoc.get?, Assoc.get?_eq_none_iff.mpr hhead]
      · simp [Assoc.get?, hk]

-- What is seen of a map under the writes of a transaction.
theorem get?_setAll (m : SortedMap κ α) (writes : SortedMap κ (Option α)) (key : κ) :
    (m.setAll writes.toList).get? key = (writes.get? key).getD (m.get? key) :=
  get?_setAll_of_nodup m writes.nodup_keys key

@[simp] theorem setAll_empty (m : SortedMap κ α) :
    m.setAll (empty : SortedMap κ (Option α)).toList = m := rfl

-- Adds a batch to the writes of a transaction, where later writes of a key win.
def insertAll (m : SortedMap κ α) (writes : List (κ × α)) : SortedMap κ α :=
  writes.foldl (fun acc w => acc.insert w.1 w.2) m

theorem get?_insertAll_of_notMem (m : SortedMap κ α) {writes : List (κ × α)} {key : κ}
    (h : key ∉ writes.map (·.1)) : (m.insertAll writes).get? key = m.get? key := by
  induction writes generalizing m with
  | nil => rfl
  | cons w rest ih =>
      simp only [List.map_cons, List.mem_cons, not_or] at h
      have hstep : (m.insertAll (w :: rest)).get? key = (m.insert w.1 w.2).get? key :=
        ih (m.insert w.1 w.2) h.2
      rw [hstep, get?_insert, if_neg (Ne.symm h.1)]

theorem get?_insertAll_of_mem (m : SortedMap κ α) {writes : List (κ × α)} {key : κ} {value : α}
    (hm : key ∈ writes.map (·.1)) (h : ∀ w ∈ writes, w.1 = key → w.2 = value) :
    (m.insertAll writes).get? key = some value := by
  induction writes generalizing m with
  | nil => simp at hm
  | cons w rest ih =>
      have hstep : m.insertAll (w :: rest) = (m.insert w.1 w.2).insertAll rest := rfl
      rw [hstep]
      by_cases hr : key ∈ rest.map (·.1)
      · exact ih _ hr (fun x hx => h x (List.mem_cons_of_mem _ hx))
      · rw [get?_insertAll_of_notMem _ hr, get?_insert]
        simp only [List.map_cons, List.mem_cons] at hm
        rcases hm with rfl | hm
        · rw [if_pos rfl, h w (by simp) rfl]
        · exact absurd hm hr

theorem isSome_get?_insertAll (m : SortedMap κ α) {writes : List (κ × α)} {key : κ}
    (h : key ∈ writes.map (·.1)) : ((m.insertAll writes).get? key).isSome := by
  induction writes generalizing m with
  | nil => simp at h
  | cons w rest ih =>
      by_cases hr : key ∈ rest.map (·.1)
      · exact ih (m.insert w.1 w.2) hr
      · obtain rfl : key = w.1 := by simpa [hr] using h
        have hlast := (m.insert w.1 w.2).get?_insertAll_of_notMem hr
        rw [get?_insert, if_pos rfl] at hlast
        exact Option.isSome_of_eq_some hlast

theorem get?_insertAll_eq_some (m : SortedMap κ α) {writes : List (κ × α)} {key : κ} {value : α}
    (h : (m.insertAll writes).get? key = some value) :
    (key, value) ∈ writes ∨ m.get? key = some value := by
  induction writes generalizing m with
  | nil => exact .inr h
  | cons w rest ih =>
      rcases ih (m.insert w.1 w.2) h with hm | hold
      · exact .inl (List.mem_cons_of_mem _ hm)
      · rw [get?_insert] at hold
        split at hold
        · next heq =>
          rw [← heq, ← Option.some.inj hold]
          exact .inl List.mem_cons_self
        · exact .inr hold

end SortedMap

namespace KeyRange

variable {α : Type}

theorem ascending_select (range : KeyRange) (map : SortedMap Bytes α) :
    Assoc.Ascending (range.select map) := map.ascending.filter _

theorem get?_select (range : KeyRange) (map : SortedMap Bytes α) (key : Bytes) :
    Assoc.get? key (range.select map) = if range.contains key then map.get? key else none :=
  Assoc.get?_filter range.contains key map.entries

theorem mem_select_iff (range : KeyRange) (map : SortedMap Bytes α) {e : Bytes × α} :
    e ∈ range.select map ↔ e ∈ map.toList ∧ range.contains e.1 = true := List.mem_filter

@[simp] theorem contains_all (key : Bytes) : all.contains key = true := by
  simp [all, contains]

@[simp] theorem select_all (map : SortedMap Bytes α) : all.select map = map.toList :=
  List.filter_eq_self.mpr (fun _ _ => contains_all _)

end KeyRange

end DocStore
