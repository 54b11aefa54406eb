import DocStore.Proofs.Bytes
import DocStore.Storage.Scan

namespace DocStore

-- What a fetch has to answer: pairs of a map, or the error that the caller's context has come to.
def FetchesFrom (map : SortedMap Bytes Bytes) (state : Except Error Unit)
    (fetch : KeyRange → Nat → Except Error (List Pair)) : Prop :=
  ∀ range limit, fetch range limit = state.map (fun _ => (range.select map).take limit)

namespace Scan

-- What a walk through a map has still to yield.
def pending (map : SortedMap Bytes Bytes) (s : Scan) : List Pair :=
  s.buffer ++ if s.exhausted then [] else s.left.select map

variable {map : SortedMap Bytes Bytes} {state : Except Error Unit}
  {fetch : KeyRange → Nat → Except Error (List Pair)}

theorem buffer_eq_nil {s : Scan} (h : s.isDry = true) : s.buffer = [] := by
  simp only [isDry, Bool.and_eq_true, List.isEmpty_iff] at h
  exact h.1

theorem pending_of_dry {s : Scan} (h : s.isDry = true) : s.pending map = s.left.select map := by
  simp only [isDry, Bool.and_eq_true, List.isEmpty_iff, Bool.not_eq_true'] at h
  simp [pending, h.1, h.2]

-- A fetch brings nearer what is pending, and changes nothing of it.
theorem pending_supply {s : Scan} (h : s.isDry = true) (hchunk : 0 < s.chunk) :
    (s.supply ((s.left.select map).take s.chunk)).pending map = s.left.select map := by
  simp only [isDry, Bool.and_eq_true, List.isEmpty_iff, Bool.not_eq_true'] at h
  obtain ⟨hbuffer, hexhausted⟩ := h
  generalize hwhole : s.left.select map = whole
  simp only [supply, pending, hbuffer, hexhausted, List.nil_append, Bool.false_or,
    decide_eq_true_eq]
  split
  · next hshort =>
    rw [List.length_take] at hshort
    rw [List.append_nil, List.take_of_length_le (by omega)]
  · next hfull =>
    rw [List.length_take] at hfull
    cases hlast : (whole.take s.chunk).getLast? with
    | none =>
        rw [List.getLast?_eq_none_iff, List.take_eq_nil_iff] at hlast
        rcases hlast with hc | rfl
        · omega
        · simp at hfull; omega
    | some last =>
        obtain ⟨front, hfront⟩ := List.getLast?_eq_some_iff.mp hlast
        have hsplit : s.left.select map = front ++ last :: whole.drop s.chunk := by
          have := List.take_append_drop s.chunk whole
          rw [hfront, List.append_assoc, List.singleton_append] at this
          rw [hwhole, this]
        simp only [KeyRange.select_after hsplit, List.take_append_drop]

variable {s : Scan}

theorem pull_of_stocked (h : s.isDry = false) :
    s.pull fetch = (s.buffer.head?.map .ok, { s with buffer := s.buffer.tail }) := by
  obtain ⟨left, chunk, buffer, exhausted⟩ := s
  cases buffer <;> simp [pull, h]

theorem stocked_supply (hchunk : 0 < s.chunk) (batch : List Pair) :
    (s.supply batch).isDry = false := by
  cases batch with
  | nil => simp [supply, isDry, hchunk]
  | cons pair rest => simp [supply, isDry]

theorem pull_of_fetched {batch : List Pair} (hdry : s.isDry = true) (hchunk : 0 < s.chunk)
    (hfetch : fetch s.left s.chunk = .ok batch) :
    s.pull fetch = (s.supply batch).pull fetch := by
  rw [pull_of_stocked (stocked_supply hchunk batch)]
  simp only [pull, hdry, if_true, hfetch]
  generalize s.supply batch = supplied
  obtain ⟨left, chunk, buffer, exhausted⟩ := supplied
  cases buffer <;> rfl

theorem pull_of_failed (hdry : s.isDry = true) {e : Error}
    (hfetch : fetch s.left s.chunk = .error e) :
    s.pull fetch = (some (.error e), { s with exhausted := true }) := by
  simp [pull, hdry, hfetch]

-- A walk that need not fetch has the next pair at hand, if there is one.
theorem head?_buffer (map : SortedMap Bytes Bytes) (h : s.isDry = false) :
    s.buffer.head? = (s.pending map).head? := by
  cases hb : s.buffer with
  | nil =>
      have hexhausted : s.exhausted = true := by simpa [isDry, hb] using h
      simp [pending, hb, hexhausted]
  | cons pair rest => simp [pending, hb]

theorem pending_tail (h : s.isDry = false) :
    pending map { s with buffer := s.buffer.tail } = (s.pending map).tail := by
  cases hb : s.buffer with
  | nil =>
      have hexhausted : s.exhausted = true := by simpa [isDry, hb] using h
      simp [pending, hb, hexhausted]
  | cons pair rest => simp [pending, hb]

-- A walk yields what is pending, unless it has to fetch and cannot. Then it ends.
theorem pull_spec (hfetch : FetchesFrom map state fetch) (s : Scan) (hchunk : 0 < s.chunk) :
    (s.pull fetch).2.chunk = s.chunk ∧
      (((s.pull fetch).1 = (s.pending map).head?.map .ok ∧
          (s.pull fetch).2.pending map = (s.pending map).tail) ∨
        ∃ e, state = .error e ∧ (s.pull fetch).1 = some (.error e) ∧
          (s.pull fetch).2.pending map = []) := by
  have hanswer := hfetch s.left s.chunk
  cases hdry : s.isDry with
  | true =>
      cases state with
      | error e =>
          rw [pull_of_failed hdry hanswer]
          exact ⟨rfl, .inr ⟨e, rfl, rfl, by simp [pending, buffer_eq_nil hdry]⟩⟩
      | ok _ =>
          have hstocked := stocked_supply hchunk ((s.left.select map).take s.chunk)
          rw [pull_of_fetched hdry hchunk hanswer, pull_of_stocked hstocked,
            head?_buffer map hstocked, pending_tail hstocked, pending_supply hdry hchunk,
            pending_of_dry hdry]
          exact ⟨rfl, .inl ⟨rfl, rfl⟩⟩
  | false =>
      rw [pull_of_stocked hdry, head?_buffer map hdry, pending_tail hdry]
      exact ⟨rfl, .inl ⟨rfl, rfl⟩⟩

end Scan

end DocStore
