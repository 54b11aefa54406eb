import DocStore.Proofs.Storage.Walk

namespace DocStore.Overlay

-- The pair that a write shows in the place of its key.
def shown (w : Write) : List Pair := (w.2.map (fun value => (w.1, value))).toList

-- Pairs with writes laid over them, both in ascending order.
def laidOver (pairs : List Pair) : List Write → List Pair
  | [] => pairs
  | w :: rest =>
    match pairs with
    | [] => shown w ++ laidOver [] rest
    | pair :: below =>
      if pair.1 < w.1 then pair :: laidOver below (w :: rest)
      else if pair.1 = w.1 then shown w ++ laidOver below rest
      else shown w ++ laidOver (pair :: below) rest
termination_by writes => pairs.length + writes.length

section Meaning

theorem mem_shown {w : Write} {e : Pair} (h : e ∈ shown w) : e.1 = w.1 := by
  obtain ⟨value, -, rfl⟩ := Option.map_eq_some_iff.mp (Option.mem_toList.mp h)
  rfl

theorem mem_laidOver {pairs : List Pair} {writes : List Write} {e : Pair}
    (h : e ∈ laidOver pairs writes) : e ∈ pairs ∨ ∃ w ∈ writes, e.1 = w.1 := by
  fun_induction laidOver pairs writes with
  | case1 pairs => exact .inl h
  | case2 w rest ih =>
      rcases List.mem_append.mp h with h | h
      · exact .inr ⟨w, by simp, mem_shown h⟩
      · exact (ih h).imp (by simp) (fun ⟨x, hx, he⟩ => ⟨x, List.mem_cons_of_mem _ hx, he⟩)
  | case3 w rest pair below hlt ih =>
      rcases List.mem_cons.mp h with rfl | h
      · exact .inl (by simp)
      · exact (ih h).imp (List.mem_cons_of_mem _) id
  | case4 w rest pair below hnlt heq ih =>
      rcases List.mem_append.mp h with h | h
      · exact .inr ⟨w, by simp, mem_shown h⟩
      · refine (ih h).imp (List.mem_cons_of_mem _) (fun ⟨x, hx, he⟩ => ?_)
        exact ⟨x, List.mem_cons_of_mem _ hx, he⟩
  | case5 w rest pair below hnlt hne ih =>
      rcases List.mem_append.mp h with h | h
      · exact .inr ⟨w, by simp, mem_shown h⟩
      · exact (ih h).imp id (fun ⟨x, hx, he⟩ => ⟨x, List.mem_cons_of_mem _ hx, he⟩)

theorem ascending_shown_append {w : Write} {later : List Pair} (h : Assoc.Ascending later)
    (hw : ∀ e ∈ later, w.1 < e.1) : Assoc.Ascending (shown w ++ later) := by
  obtain ⟨key, value⟩ := w
  cases value with
  | none => exact h
  | some value => exact List.pairwise_cons.mpr ⟨hw, h⟩

theorem get?_shown_append {w : Write} {later : List Pair} (hw : ∀ e ∈ later, w.1 < e.1)
    (key : Bytes) : Assoc.get? key (shown w ++ later) =
      if w.1 = key then w.2 else Assoc.get? key later := by
  obtain ⟨k, value⟩ := w
  cases value with
  | none =>
      simp only [shown, Option.map_none, Option.toList_none, List.nil_append]
      split
      · next hk => rw [← hk, Assoc.get?_eq_none_of_lt hw]
      · rfl
  | some value => simp [shown, Assoc.get?]

theorem ascending_laidOver {pairs : List Pair} {writes : List Write}
    (hp : Assoc.Ascending pairs) (hw : Assoc.Ascending writes) :
    Assoc.Ascending (laidOver pairs writes) ∧ ∀ key, Assoc.get? key (laidOver pairs writes) =
      (Assoc.get? key writes).getD (Assoc.get? key pairs) := by
  fun_induction laidOver pairs writes with
  | case1 pairs => exact ⟨hp, fun key => rfl⟩
  | case2 w rest ih =>
      obtain ⟨hhead, hrest⟩ := List.pairwise_cons.mp hw
      obtain ⟨hasc, hget⟩ := ih hp hrest
      have hlater : ∀ e ∈ laidOver [] rest, w.1 < e.1 := by
        intro e he
        rcases mem_laidOver he with he | ⟨x, hx, he⟩
        · simp at he
        · rw [he]; exact hhead x hx
      refine ⟨ascending_shown_append hasc hlater, fun key => ?_⟩
      rw [get?_shown_append hlater, hget]
      simp only [Assoc.get?]
      split <;> rfl
  | case3 w rest pair below hlt ih =>
      obtain ⟨hbelow, hp'⟩ := List.pairwise_cons.mp hp
      obtain ⟨hhead, -⟩ := List.pairwise_cons.mp hw
      obtain ⟨hasc, hget⟩ := ih hp' hw
      have hwrites : ∀ x ∈ w :: rest, pair.1 < x.1 := by
        intro x hx
        rcases List.mem_cons.mp hx with rfl | hx
        · exact hlt
        · exact Std.lt_trans hlt (hhead x hx)
      refine ⟨List.pairwise_cons.mpr ⟨fun e he => ?_, hasc⟩, fun key => ?_⟩
      · rcases mem_laidOver he with he | ⟨x, hx, he⟩
        · exact hbelow e he
        · rw [he]; exact hwrites x hx
      · simp only [Assoc.get?, hget]
        by_cases hk : pair.1 = key
        · subst hk
          have hnone := Assoc.get?_eq_none_of_lt hwrites
          simp only [Assoc.get?] at hnone
          simp [hnone]
        · simp [hk]
  | case4 w rest pair below hnlt heq ih =>
      obtain ⟨hbelow, hp'⟩ := List.pairwise_cons.mp hp
      obtain ⟨hhead, hrest⟩ := List.pairwise_cons.mp hw
      obtain ⟨hasc, hget⟩ := ih hp' hrest
      have hlater : ∀ e ∈ laidOver below rest, w.1 < e.1 := by
        intro e he
        rcases mem_laidOver he with he | ⟨x, hx, he⟩
        · rw [← heq]; exact hbelow e he
        · rw [he]; exact hhead x hx
      refine ⟨ascending_shown_append hasc hlater, fun key => ?_⟩
      rw [get?_shown_append hlater, hget]
      simp only [Assoc.get?, heq]
      split <;> rfl
  | case5 w rest pair below hnlt hne ih =>
      obtain ⟨hbelow, -⟩ := List.pairwise_cons.mp hp
      obtain ⟨hhead, hrest⟩ := List.pairwise_cons.mp hw
      obtain ⟨hasc, hget⟩ := ih hp hrest
      have hlt : w.1 < pair.1 :=
        Std.lt_of_le_of_ne (Std.not_lt.mp hnlt) (fun he => hne he.symm)
      have hlater : ∀ e ∈ laidOver (pair :: below) rest, w.1 < e.1 := by
        intro e he
        rcases mem_laidOver he with he | ⟨x, hx, he⟩
        · rcases List.mem_cons.mp he with rfl | he
          · exact hlt
          · exact Std.lt_trans hlt (hbelow e he)
        · rw [he]; exact hhead x hx
      refine ⟨ascending_shown_append hasc hlater, fun key => ?_⟩
      rw [get?_shown_append hlater, hget]
      simp only [Assoc.get?]
      split <;> rfl

-- Laying the writes of a range over the pairs of that range gives the range of the map in which the
-- writes were performed.
theorem laidOver_select (range : KeyRange) (map : SortedMap Bytes Bytes)
    (writes : SortedMap Bytes (Option Bytes)) :
    laidOver (range.select map) (range.select writes) =
      range.select (map.setAll writes.toList) := by
  obtain ⟨hasc, hget⟩ :=
    ascending_laidOver (range.ascending_select map) (range.ascending_select writes)
  apply Assoc.eq_of_get? hasc (range.ascending_select _)
  intro key
  rw [hget, range.get?_select, range.get?_select, range.get?_select, SortedMap.get?_setAll]
  by_cases hc : range.contains key <;> simp [hc]

theorem laidOver_nil_sublist (pairs : List Pair) (writes : List Write) :
    (laidOver [] writes).Sublist (laidOver pairs writes) := by
  fun_induction laidOver pairs writes with
  | case1 pairs => simp [laidOver]
  | case2 w rest ih => simp [laidOver]
  | case3 w rest pair below hlt ih => exact ih.cons _
  | case4 w rest pair below hnlt heq ih =>
      rw [laidOver]
      exact (List.Sublist.refl _).append ih
  | case5 w rest pair below hnlt hne ih =>
      rw [laidOver]
      exact (List.Sublist.refl _).append ih

end Meaning

section Pulling

variable {map : SortedMap Bytes Bytes} {state : Except Error Unit}
  {fetch : KeyRange → Nat → Except Error (List Pair)}

-- What the walk below has still to yield, with what was looked at already.
def below (map : SortedMap Bytes Bytes) (o : Overlay) : List Pair :=
  match o.peeked with
  | none => o.base.pending map
  | some (some (.ok pair)) => pair :: o.base.pending map
  | some _ => []

def pending (map : SortedMap Bytes Bytes) (o : Overlay) : List Pair :=
  laidOver (o.below map) o.writes

-- Between two items, an iterator never holds back an error, and it is not past an end that is none.
structure Sound (map : SortedMap Bytes Bytes) (o : Overlay) : Prop where
  chunk : 0 < o.base.chunk
  noError : ∀ e, o.peeked ≠ some (some (.error e))
  atEnd : o.peeked = some none → o.base.pending map = []

-- An iterator whose fetch has failed has only its writes left.
private theorem sound_of_failed {o : Overlay} (hchunk : 0 < o.base.chunk) (writes : List Write) :
    Sound map { o with peeked := none, writes := writes } :=
  ⟨hchunk, by simp, by simp⟩

theorem peek_spec (hfetch : FetchesFrom map state fetch) {o : Overlay} (h : o.Sound map) :
    (((o.peek fetch).1 = (o.below map).head?.map .ok ∧
        (o.peek fetch).2.peeked = some (o.peek fetch).1 ∧
        (o.peek fetch).2.below map = o.below map ∧
        (o.peek fetch).2.base.pending map = (o.below map).tail) ∨
      ∃ e, state = .error e ∧ (o.peek fetch).1 = some (.error e) ∧
        (o.peek fetch).2.base.pending map = []) ∧
      (o.peek fetch).2.base.chunk = o.base.chunk := by
  cases hp : o.peeked with
  | some item =>
      refine ⟨.inl ?_, by simp [peek, hp]⟩
      match item with
      | none => simp [peek, below, hp, h.atEnd hp]
      | some (.ok pair) => simp [peek, below, hp]
      | some (.error e) => exact absurd hp (h.noError e)
  | none =>
      have hbelow : o.below map = o.base.pending map := by simp [below, hp]
      obtain ⟨hc, hpull⟩ := Scan.pull_spec hfetch o.base h.chunk
      refine ⟨?_, by simpa [peek, hp] using hc⟩
      rw [hbelow]
      rcases hpull with ⟨hitem, hrest⟩ | ⟨e, hs, hitem, hrest⟩
      · refine .inl ⟨by simpa [peek, hp] using hitem, by simp [peek, hp], ?_,
          by simpa [peek, hp] using hrest⟩
        simp only [peek, hp, below, hitem]
        cases hwhole : o.base.pending map with
        | nil => rfl
        | cons pair rest =>
            rw [hwhole] at hrest
            simp [hrest]
      · exact .inr ⟨e, hs, by simpa [peek, hp] using hitem, by simpa [peek, hp] using hrest⟩

-- What one step of an iterator is to come to, where `left` are the pairs still to be yielded: the
-- first of them. If a fetch fails, then that is reported, and some of them are left.
def Yields (map : SortedMap Bytes Bytes) (state : Except Error Unit) (left : List Pair)
    (result : Option (Except Error Pair) × Overlay) : Prop :=
  result.2.Sound map ∧
    ((result.1 = left.head?.map .ok ∧ result.2.pending map = left.tail) ∨
      ∃ e, state = .error e ∧ result.1 = some (.error e) ∧
        (result.2.pending map).Sublist left)

private theorem yields_write {o : Overlay} (h : o.Sound map) (key : Bytes) (value : Option Bytes)
    (rest : List Write) (hskip : Yields map state (laidOver (o.below map) rest)
      (o.pullWith fetch rest)) :
    Yields map state (shown (key, value) ++ laidOver (o.below map) rest)
      (match value with
        | some v => (some (.ok (key, v)), { o with writes := rest })
        | none => o.pullWith fetch rest) := by
  cases value with
  | none => exact hskip
  | some v => exact ⟨⟨h.chunk, h.noError, h.atEnd⟩, .inl ⟨rfl, rfl⟩⟩

theorem pullWith_yields (hfetch : FetchesFrom map state fetch) (writes : List Write) {o : Overlay}
    (h : o.Sound map) :
    Yields map state (laidOver (o.below map) writes) (o.pullWith fetch writes) := by
  induction writes generalizing o with
  | nil =>
      obtain ⟨hpeek, hc⟩ := peek_spec hfetch h
      have hchunk : 0 < (o.peek fetch).2.base.chunk := hc ▸ h.chunk
      simp only [pullWith, laidOver]
      refine ⟨sound_of_failed hchunk [], ?_⟩
      rcases hpeek with ⟨hitem, -, -, hrest⟩ | ⟨e, hs, hitem, hrest⟩
      · exact .inl ⟨hitem, by simp [pending, below, laidOver, hrest]⟩
      · exact .inr ⟨e, hs, hitem, by simp [pending, below, laidOver, hrest]⟩
  | cons w rest ih =>
      obtain ⟨key, value⟩ := w
      obtain ⟨hpeek, hc⟩ := peek_spec hfetch h
      generalize hnext : o.peek fetch = next at hpeek hc
      obtain ⟨item, looked⟩ := next
      have hchunk : 0 < looked.base.chunk := hc ▸ h.chunk
      rcases hpeek with ⟨hitem, hpeeked, hbelow, hrest⟩ | ⟨e, hs, hitem, hrest⟩
      · simp only at hitem hpeeked hbelow hrest
        cases hwhole : o.below map with
        | nil =>
            rw [hwhole] at hitem hbelow hrest
            simp only [List.head?_nil, Option.map_none] at hitem
            subst hitem
            have hlooked : looked.Sound map := ⟨hchunk, by simp [hpeeked], fun _ => hrest⟩
            have hstep := yields_write hlooked key value rest (ih hlooked)
            rw [hbelow] at hstep
            simp only [pullWith, hnext, laidOver]
            exact hstep
        | cons pair b =>
            rw [hwhole] at hitem hbelow hrest
            simp only [List.head?_cons, Option.map_some] at hitem
            subst hitem
            simp only [pullWith, hnext, laidOver]
            split
            · exact ⟨sound_of_failed hchunk _, .inl ⟨rfl, by simp [pending, below, hrest]⟩⟩
            · split
              · have hdropped : Sound map { looked with peeked := none, writes := looked.writes } :=
                  sound_of_failed hchunk looked.writes
                have hstep := yields_write hdropped key value rest (ih hdropped)
                simp only [below, hrest, List.tail_cons] at hstep
                exact hstep
              · have hlooked : looked.Sound map :=
                  ⟨hchunk, by simp [hpeeked], by simp [hpeeked]⟩
                have hstep := yields_write hlooked key value rest (ih hlooked)
                rwa [hbelow] at hstep
      · simp only at hitem hrest
        subst hitem
        simp only [pullWith, hnext]
        refine ⟨sound_of_failed hchunk _, .inr ⟨e, hs, rfl, ?_⟩⟩
        simpa only [pending, below, hrest] using laidOver_nil_sublist (o.below map) _

-- An iterator yields the pairs of the map with its writes laid over them, one after the other. If a
-- fetch fails, that is reported, and then comes some of what would have come anyway.
theorem pull_yields (hfetch : FetchesFrom map state fetch) {o : Overlay} (h : o.Sound map) :
    Yields map state (o.pending map) (o.pull fetch) :=
  pullWith_yields hfetch o.writes h

theorem pending_ofScan (map : SortedMap Bytes Bytes) (writes : SortedMap Bytes (Option Bytes))
    (range : KeyRange) (chunk : Nat) :
    (ofScan (Scan.ofRange range chunk) (range.select writes)).pending map =
      range.select (map.setAll writes.toList) := by
  rw [← laidOver_select]
  simp [pending, below, ofScan, Scan.ofRange, Scan.pending]

theorem sound_ofScan (map : SortedMap Bytes Bytes) (range : KeyRange) (chunk : Nat)
    (writes : List Write) : (ofScan (Scan.ofRange range chunk) writes).Sound map where
  chunk := by simp only [ofScan, Scan.ofRange]; omega
  noError := by simp [ofScan]
  atEnd := by simp [ofScan]

end Pulling

end DocStore.Overlay
