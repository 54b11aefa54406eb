namespace DocStore

-- Association lists kept in ascending order of their keys.
namespace Assoc

variable {κ α β : Type}

-- No key occurs twice, and keys ascend.
def Ascending [LT κ] (entries : List (κ × α)) : Prop :=
  entries.Pairwise (fun a b => a.1 < b.1)

instance [LT κ] [DecidableLT κ] (entries : List (κ × α)) : Decidable (Ascending entries) :=
  inferInstanceAs (Decidable (entries.Pairwise _))

-- The value stored under a key.
def get? [DecidableEq κ] (key : κ) : List (κ × α) → Option α
  | [] => none
  | (k, v) :: rest => if k = key then some v else get? key rest

-- Stores a value under a key, in the place where the order wants it.
def insert [LT κ] [DecidableLT κ] (key : κ) (value : α) : List (κ × α) → List (κ × α)
  | [] => [(key, value)]
  | (k, v) :: rest =>
    if key < k then (key, value) :: (k, v) :: rest
    else if k < key then (k, v) :: insert key value rest
    else (key, value) :: rest

-- Forgets whatever is stored under a key.
def erase [DecidableEq κ] (key : κ) : List (κ × α) → List (κ × α)
  | [] => []
  | (k, v) :: rest => if k = key then erase key rest else (k, v) :: erase key rest

-- The ascending list in which the last entry given for a key wins.
def ofList [LT κ] [DecidableLT κ] (entries : List (κ × α)) : List (κ × α) :=
  entries.foldl (fun acc e => insert e.1 e.2 acc) []

section Lemmas

theorem mem_insert [LT κ] [DecidableLT κ] {key : κ} {value : α} {entries : List (κ × α)}
    {e : κ × α} (h : e ∈ insert key value entries) : e = (key, value) ∨ e ∈ entries := by
  induction entries with
  | nil => simpa [insert] using h
  | cons head rest ih =>
    obtain ⟨k, v⟩ := head
    simp only [insert] at h
    split at h
    · simpa using h
    · split at h
      · rcases List.mem_cons.mp h with h | h
        · exact Or.inr (by simp [h])
        · rcases ih h with h | h
          · exact Or.inl h
          · exact Or.inr (by simp [h])
      · rcases List.mem_cons.mp h with h | h
        · exact Or.inl h
        · exact Or.inr (by simp [h])

theorem mem_erase [DecidableEq κ] {key : κ} {entries : List (κ × α)} {e : κ × α} :
    e ∈ erase key entries ↔ e ∈ entries ∧ e.1 ≠ key := by
  induction entries with
  | nil => simp [erase]
  | cons head rest ih =>
    obtain ⟨k, v⟩ := head
    simp only [erase]
    split
    · next h =>
      subst h
      rw [ih, List.mem_cons]
      constructor
      · exact fun ⟨hm, hne⟩ => ⟨Or.inr hm, hne⟩
      · rintro ⟨hm | hm, hne⟩
        · exact absurd (by rw [hm]) hne
        · exact ⟨hm, hne⟩
    · next h =>
      rw [List.mem_cons, ih, List.mem_cons]
      constructor
      · rintro (hm | ⟨hm, hne⟩)
        · exact ⟨Or.inl hm, by rw [hm]; exact h⟩
        · exact ⟨Or.inr hm, hne⟩
      · rintro ⟨hm | hm, hne⟩
        · exact Or.inl hm
        · exact Or.inr ⟨hm, hne⟩

variable [LE κ] [LT κ] [DecidableLT κ] [Std.IsLinearOrder κ] [Std.LawfulOrderLT κ]

theorem ascending_insert (key : κ) (value : α) {entries : List (κ × α)}
    (h : Ascending entries) : Ascending (insert key value entries) := by
  induction entries with
  | nil => simp [insert, Ascending]
  | cons head rest ih =>
    obtain ⟨k, v⟩ := head
    simp only [Ascending, List.pairwise_cons] at h ih
    obtain ⟨hhead, hrest⟩ := h
    simp only [insert]
    split
    · next hlt =>
      refine List.pairwise_cons.mpr ⟨?_, List.pairwise_cons.mpr ⟨hhead, hrest⟩⟩
      intro e he
      rcases List.mem_cons.mp he with he | he
      · rw [he]; exact hlt
      · exact Std.lt_trans hlt (hhead e he)
    · split
      · next hgt =>
        refine List.pairwise_cons.mpr ⟨?_, ih hrest⟩
        intro e he
        rcases mem_insert he with he | he
        · rw [he]; exact hgt
        · exact hhead e he
      · next hnlt hngt =>
        have hk : key = k := Std.le_antisymm (Std.not_lt.mp hngt) (Std.not_lt.mp hnlt)
        subst hk
        exact List.pairwise_cons.mpr ⟨hhead, hrest⟩

omit [LE κ] [DecidableLT κ] [Std.IsLinearOrder κ] [Std.LawfulOrderLT κ] in
theorem ascending_erase [DecidableEq κ] (key : κ) {entries : List (κ × α)}
    (h : Ascending entries) : Ascending (erase key entries) := by
  induction entries with
  | nil => exact h
  | cons head rest ih =>
    obtain ⟨k, v⟩ := head
    obtain ⟨hhead, hrest⟩ := List.pairwise_cons.mp h
    simp only [erase]
    split
    · exact ih hrest
    · exact List.pairwise_cons.mpr ⟨fun e he => hhead e (mem_erase.mp he).1, ih hrest⟩

theorem ascending_ofList (entries : List (κ × α)) : Ascending (ofList entries) := by
  have step : ∀ (todo acc : List (κ × α)), Ascending acc →
      Ascending (todo.foldl (fun acc e => insert e.1 e.2 acc) acc) := by
    intro todo
    induction todo with
    | nil => exact fun acc h => h
    | cons e rest ih => exact fun acc h => ih _ (ascending_insert e.1 e.2 h)
  exact step entries [] List.Pairwise.nil

theorem get?_insert [DecidableEq κ] (key other : κ) (value : α) (entries : List (κ × α)) :
    get? other (insert key value entries) =
      if key = other then some value else get? other entries := by
  induction entries with
  | nil => simp [insert, get?]
  | cons head rest ih =>
    obtain ⟨k, v⟩ := head
    simp only [insert]
    split
    · next hlt => simp [get?]
    · split
      · next hgt =>
        simp only [get?, ih]
        have hne : k ≠ key := fun h => Std.lt_irrefl (h ▸ hgt)
        by_cases hk : k = other
        · subst hk; simp [Ne.symm hne]
        · simp [hk]
      · next hnlt hngt =>
        have hk : key = k := Std.le_antisymm (Std.not_lt.mp hngt) (Std.not_lt.mp hnlt)
        subst hk
        simp only [get?]
        split <;> rfl

omit [LE κ] [LT κ] [DecidableLT κ] [Std.IsLinearOrder κ] [Std.LawfulOrderLT κ] in
theorem get?_erase [DecidableEq κ] (key other : κ) (entries : List (κ × α)) :
    get? other (erase key entries) = if key = other then none else get? other entries := by
  induction entries with
  | nil => simp [erase, get?]
  | cons head rest ih =>
    obtain ⟨k, v⟩ := head
    simp only [erase]
    split
    · next h =>
      subst h
      rw [ih]
      by_cases hk : k = other <;> simp [get?, hk]
    · next h =>
      simp only [get?, ih]
      by_cases hk : k = other
      · subst hk; simp [Ne.symm h]
      · simp [hk]

-- In an ascending list, being present and being found are the same.
omit [DecidableLT κ] [Std.IsLinearOrder κ] in
theorem get?_eq_some_iff [DecidableEq κ] {key : κ} {value : α} {entries : List (κ × α)}
    (h : Ascending entries) : get? key entries = some value ↔ (key, value) ∈ entries := by
  induction entries with
  | nil => simp [get?]
  | cons head rest ih =>
    obtain ⟨k, v⟩ := head
    obtain ⟨hhead, hrest⟩ := List.pairwise_cons.mp h
    simp only [get?]
    split
    · next hk =>
      subst hk
      constructor
      · intro hv; simp only [Option.some.injEq] at hv; simp [hv]
      · intro hm
        rcases List.mem_cons.mp hm with hm | hm
        · simp only [Prod.mk.injEq, true_and] at hm; simp [hm]
        · exact absurd (hhead _ hm) Std.lt_irrefl
    · next hk =>
      rw [ih hrest, List.mem_cons]
      constructor
      · exact Or.inr
      · rintro (hm | hm)
        · simp only [Prod.mk.injEq] at hm; exact absurd hm.1.symm hk
        · exact hm

-- Two ascending lists that answer every look-up alike are equal.
omit [DecidableLT κ] in
theorem eq_of_get? [DecidableEq κ] {a b : List (κ × α)} (ha : Ascending a) (hb : Ascending b)
    (h : ∀ key, get? key a = get? key b) : a = b := by
  have mem : ∀ e : κ × α, e ∈ a ↔ e ∈ b := fun e => by
    rw [← get?_eq_some_iff ha, ← get?_eq_some_iff hb, h]
  clear h
  induction a generalizing b with
  | nil =>
    cases b with
    | nil => rfl
    | cons e rest => exact absurd ((mem e).mpr (by simp)) (by simp)
  | cons x xs ih =>
    cases b with
    | nil => exact absurd ((mem x).mp (by simp)) (by simp)
    | cons y ys =>
      obtain ⟨hx, hxs⟩ := List.pairwise_cons.mp ha
      obtain ⟨hy, hys⟩ := List.pairwise_cons.mp hb
      have hxy : x = y := by
        have h1 := (mem x).mp (by simp)
        have h2 := (mem y).mpr (by simp)
        rcases List.mem_cons.mp h1 with h1 | h1
        · exact h1
        · rcases List.mem_cons.mp h2 with h2 | h2
          · exact h2.symm
          · exact absurd (Std.lt_trans (hx y h2) (hy x h1)) Std.lt_irrefl
      subst hxy
      congr 1
      refine ih hxs hys (fun e => ?_)
      constructor
      · intro he
        rcases List.mem_cons.mp ((mem e).mp (by simp [he])) with h | h
        · exact absurd (h ▸ hx e he) Std.lt_irrefl
        · exact h
      · intro he
        rcases List.mem_cons.mp ((mem e).mpr (by simp [he])) with h | h
        · exact absurd (h ▸ hy e he) Std.lt_irrefl
        · exact h

end Lemmas

end Assoc

end DocStore
