import DocStore.Proofs.Storage.Sight

-- What a handle lists of a range, from the first item of an iterator to the last.
namespace DocStore

namespace Assoc

variable {κ α : Type}

theorem length_insert_le [LT κ] [DecidableLT κ] (key : κ) (value : α) (entries : List (κ × α)) :
    (insert key value entries).length ≤ entries.length + 1 := by
  induction entries with
  | nil => simp [insert]
  | cons head rest ih =>
      obtain ⟨k, v⟩ := head
      simp only [insert]
      split
      · simp
      · split
        · simpa using ih
        · simp

theorem length_erase_le [DecidableEq κ] (key : κ) (entries : List (κ × α)) :
    (erase key entries).length ≤ entries.length := by
  induction entries with
  | nil => simp [erase]
  | cons head rest ih =>
      obtain ⟨k, v⟩ := head
      simp only [erase]
      split
      · exact Nat.le_succ_of_le ih
      · simpa using ih

end Assoc

theorem SortedMap.size_setAll_le (map : SortedMap Bytes Bytes) (writes : List Write) :
    (map.setAll writes).size ≤ map.size + writes.length := by
  induction writes generalizing map with
  | nil => simp [setAll]
  | cons w rest ih =>
      have hstep : (map.set w.1 w.2).size ≤ map.size + 1 := by
        cases w.2 with
        | some value => exact Assoc.length_insert_le w.1 value map.entries
        | none => exact Nat.le_succ_of_le (Assoc.length_erase_le w.1 map.entries)
      have hrest : (map.setAll (w :: rest)).size ≤ (map.set w.1 w.2).size + rest.length :=
        ih (map.set w.1 w.2)
      rw [List.length_cons]
      omega

namespace Kv

-- No handle finds more pairs than there may be keys.
theorem length_scan_le (kv : Kv) (h : Handle) (range : KeyRange) (limit : Nat) :
    (kv.scan h range limit).length ≤ kv.keyBound := by
  have hmulti (store : VersionStore) (version : Nat) :
      (store.scanAt range version limit).length ≤ store.keyCount := by
    rw [VersionStore.scanAt, List.length_take]
    exact Nat.le_trans (Nat.min_le_right _ _)
      (Nat.le_trans (List.length_filterMap_le _ _) (List.length_filter_le _ _))
  have hsingle (data : SortedMap Bytes Bytes) :
      ((range.select data).take limit).length ≤ data.size := by
    rw [List.length_take]
    exact Nat.le_trans (Nat.min_le_right _ _) (List.length_filter_le _ _)
  cases kv with
  | multi kv =>
      cases h with
      | multiRead | multiWrite => exact hmulti kv.store _
      | singleRead | singleWrite => exact Nat.zero_le _
  | single kv =>
      cases h with
      | multiRead | multiWrite => exact Nat.zero_le _
      | singleRead | singleWrite => exact hsingle kv.data

namespace Sees

variable {kv : Kv} {h : Handle} {below : SortedMap Bytes Bytes}
  {writes : SortedMap Bytes (Option Bytes)}

theorem length_select_le (hs : kv.Sees h below writes) (range : KeyRange) :
    (range.select (below.setAll writes.toList)).length ≤ kv.keyBound + writes.size := by
  have hbelow : below.size ≤ kv.keyBound := by
    have hscan := kv.length_scan_le h KeyRange.all below.size
    rw [hs.scan, KeyRange.select_all] at hscan
    have hall : below.toList.take below.size = below.toList :=
      List.take_of_length_le (Nat.le_refl _)
    rw [hall] at hscan
    exact hscan
  have hsize : (below.setAll writes.toList).size ≤ below.size + writes.size :=
    below.size_setAll_le writes.toList
  have hselect : (range.select (below.setAll writes.toList)).length ≤
      (below.setAll writes.toList).size := List.length_filter_le _ _
  omega

-- An iterator that is pulled to its end yields what is left, unless a fetch fails on the way.
theorem collect_pull (hs : kv.Sees h below writes) (signal : Signal) {it : Iter} {p : Prospect}
    (hf : it.Follows below p) (hunbroken : p.broken = false) {fuel : Nat}
    (hfuel : p.left.length < fuel) :
    collect (kv.pull h signal) fuel it = p.left.map .ok ∨
      ∃ e, signal.check = .error e ∧ .error e ∈ collect (kv.pull h signal) fuel it := by
  induction fuel generalizing it p with
  | zero => omega
  | succ fuel ih =>
      obtain ⟨hadmits, hnext⟩ := hs.pull signal hf
      simp only [collect]
      generalize kv.pull h signal it = pulled at hadmits hnext
      obtain ⟨item, it'⟩ := pulled
      simp only at hadmits hnext
      match item with
      | none =>
          have hleft : p.left = [] := by simpa [Prospect.Admits, hunbroken] using hadmits
          exact .inl (by simp [hleft])
      | some (.error e) => exact .inr ⟨e, hadmits, by simp⟩
      | some (.ok pair) =>
          have hhead : p.left.head? = some pair := by
            simpa [Prospect.Admits, hunbroken] using hadmits
          obtain ⟨rest, hleft⟩ : ∃ rest, p.left = pair :: rest := List.head?_eq_some_iff.mp hhead
          have hadvance : p.advance (some (.ok pair)) = ⟨rest, false⟩ := by
            simp [Prospect.advance, hleft, hunbroken]
          rw [hadvance] at hnext
          rw [hleft, List.length_cons] at hfuel
          have hrest : rest.length < fuel := by omega
          rcases ih hnext rfl hrest with heq | ⟨e, hsignal, hm⟩
          · exact .inl (by simp only [heq, hleft, List.map_cons])
          · exact .inr ⟨e, hsignal, List.mem_cons_of_mem _ hm⟩

-- Whatever an iterator yields is among what is left, or tells that the context is over.
theorem mem_collect_pull (hs : kv.Sees h below writes) (signal : Signal) {it : Iter} {p : Prospect}
    (hf : it.Follows below p) {fuel : Nat} :
    (∀ pair, .ok pair ∈ collect (kv.pull h signal) fuel it → pair ∈ p.left) ∧
      ∀ e, .error e ∈ collect (kv.pull h signal) fuel it → signal.check = .error e := by
  induction fuel generalizing it p with
  | zero => simp [collect]
  | succ fuel ih =>
      obtain ⟨hadmits, hnext⟩ := hs.pull signal hf
      simp only [collect]
      generalize kv.pull h signal it = pulled at hadmits hnext
      obtain ⟨item, it'⟩ := pulled
      simp only at hadmits hnext
      cases item with
      | none => simp
      | some item =>
          obtain ⟨hpairs, herrors⟩ := ih hnext
          have hleft := p.advance_sublist (some item)
          constructor
          · intro pair hm
            rcases List.mem_cons.mp hm with rfl | hm
            · cases hb : p.broken with
              | true => simpa [Prospect.Admits, hb] using hadmits
              | false => exact List.mem_of_mem_head? (by simpa [Prospect.Admits, hb] using hadmits)
            · exact hleft.subset (hpairs pair hm)
          · intro e hm
            rcases List.mem_cons.mp hm with rfl | hm
            · exact hadmits
            · exact herrors e hm

-- A handle lists the pairs of the map that it sees, unless its context is over.
theorem entries (hs : kv.Sees h below writes) (signal : Signal) (range : KeyRange) :
    kv.entries h signal range = (range.select (below.setAll writes.toList)).map .ok ∨
      ∃ e, signal.check = .error e ∧ .error e ∈ kv.entries h signal range := by
  refine hs.collect_pull signal (hs.iter range) rfl ?_
  have hlength := hs.length_select_le range
  rw [hs.buffered]
  simp only
  omega

theorem mem_entries (hs : kv.Sees h below writes) (signal : Signal) (range : KeyRange) :
    (∀ pair, .ok pair ∈ kv.entries h signal range →
        pair ∈ range.select (below.setAll writes.toList)) ∧
      ∀ e, .error e ∈ kv.entries h signal range → signal.check = .error e :=
  hs.mem_collect_pull signal (hs.iter range)

end Sees

end Kv

end DocStore
