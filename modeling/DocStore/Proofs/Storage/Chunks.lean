import DocStore.Proofs.Storage.Walk

-- A walk in chunks yields what one fetch without a limit would, and how often it fetches follows
-- from the number of pairs.
namespace DocStore

-- The next pair, where a fetch may do more than to answer.
def Scan.pullVia {m : Type → Type} [Monad m]
    (fetch : KeyRange → Nat → m (Except Error (List Pair))) (s : Scan) :
    m (Option (Except Error Pair) × Scan) :=
  if s.isDry then do
    let fetched ← fetch s.left s.chunk
    return s.pull (fun _ _ => fetched)
  else return s.pull (fun _ _ => .ok [])

-- A fetch that was asked for: where, and how many pairs at most.
abbrev Inquiry := KeyRange × Nat

-- Where a walk fetches from. The answer may depend on everything that was asked before. A fetch for
-- which the context is over is one that fails.
abbrev Source := List Inquiry → KeyRange → Nat → Except Error (List Pair)

namespace Source

-- A fetch that is noted down.
def fetch (source : Source) (part : KeyRange) (limit : Nat) :
    StateM (List Inquiry) (Except Error (List Pair)) :=
  fun asked => (source asked part limit, asked ++ [(part, limit)])

-- So many fetches give the first pairs of a map.
def Answers (source : Source) (map : SortedMap Bytes Bytes) (calls : Nat) : Prop :=
  ∀ asked part limit, asked.length < calls →
    source asked part limit = .ok ((part.select map).take limit)

-- After so many fetches, every one fails.
def FailsAfter (source : Source) (calls : Nat) : Prop :=
  ∀ asked part limit, calls ≤ asked.length → ∃ e, source asked part limit = .error e

end Source

-- A walk under way, and all the fetches that it has made.
structure Visit where
  scan : Scan
  asked : List Inquiry

namespace Visit

-- What the walk yields next, and how it goes on.
def next (source : Source) (v : Visit) : Option (Except Error Pair) × Visit :=
  let ((item, scan), asked) := (v.scan.pullVia source.fetch).run v.asked
  (item, ⟨scan, asked⟩)

-- The walk through a range when it has been pulled so many times.
def after (source : Source) (range : KeyRange) (chunk : Nat) : Nat → Visit
  | 0 => ⟨.ofRange range chunk, []⟩
  | n + 1 => (next source (after source range chunk n)).2

variable {source : Source} {v : Visit} {map : SortedMap Bytes Bytes} {pairs : List Pair}
  {size yielded : Nat}

theorem next_of_dry (h : v.scan.isDry = true) :
    next source v = ((v.scan.pull (source v.asked)).1,
      ⟨(v.scan.pull (source v.asked)).2, v.asked ++ [(v.scan.left, v.scan.chunk)]⟩) := by
  have hpull : v.scan.pull (source v.asked) =
      v.scan.pull (fun _ _ => source v.asked v.scan.left v.scan.chunk) := by
    simp only [Scan.pull, h, if_true]
  rw [hpull]
  simp only [next, Scan.pullVia, h, if_true]
  rfl

theorem next_of_stocked (h : v.scan.isDry = false) :
    next source v = (v.scan.buffer.head?.map .ok,
      ⟨{ v.scan with buffer := v.scan.buffer.tail }, v.asked⟩) := by
  simp only [next, Scan.pullVia, h, Bool.false_eq_true, if_false, Scan.pull_of_stocked h]
  rfl

-- How a walk stands that has yielded so many pairs of a listing, and nothing else.
structure Stands (v : Visit) (map : SortedMap Bytes Bytes) (pairs : List Pair)
    (size yielded : Nat) : Prop where
  chunk : v.scan.chunk = size
  pending : v.scan.pending map = pairs.drop yielded
  buffered : v.scan.buffer.length = min (v.asked.length * size) pairs.length - yielded
  exhausted : v.scan.exhausted = decide (pairs.length < v.asked.length * size)
  -- no fetch was made before it had to be made
  needed : v.asked.length * size < yielded + size
  supplied : yielded ≤ v.asked.length * size ∨ pairs.length < v.asked.length * size
  bounded : v.asked.length * size ≤ pairs.length + size

theorem stands_start (map : SortedMap Bytes Bytes) (range : KeyRange) (chunk : Nat) :
    Stands ⟨.ofRange range chunk, []⟩ map (range.select map) (max chunk 1) 0 where
  chunk := rfl
  pending := by simp [Scan.pending, Scan.ofRange]
  buffered := by simp [Scan.ofRange]
  exhausted := by simp [Scan.ofRange]
  needed := by
    rw [List.length_nil, Nat.zero_mul, Nat.zero_add]
    exact Nat.lt_of_lt_of_le Nat.zero_lt_one (Nat.le_max_right chunk 1)
  supplied := .inl (Nat.zero_le _)
  bounded := by simp

-- The walk fetches when all that was fetched is yielded, unless it knows that this was all.
theorem Stands.dry_iff (h : v.Stands map pairs size yielded) :
    v.scan.isDry = true ↔ yielded = v.asked.length * size ∧ yielded ≤ pairs.length := by
  have hbuffered := h.buffered
  have hsupplied := h.supplied
  rw [Scan.isDry, h.exhausted, Bool.and_eq_true, List.isEmpty_iff_length_eq_zero, hbuffered]
  simp only [Bool.not_eq_true', decide_eq_false_iff_not]
  generalize v.asked.length * size = fetched at hsupplied ⊢
  omega

theorem Stands.of_stocked (h : v.Stands map pairs size yielded) (hdry : v.scan.isDry = false) :
    Stands ⟨{ v.scan with buffer := v.scan.buffer.tail }, v.asked⟩ map pairs size
      (yielded + 1) := by
  have hneeded := h.needed
  have hsupplied := h.supplied
  have hmore : ¬(yielded = v.asked.length * size ∧ yielded ≤ pairs.length) := by
    rw [← h.dry_iff, hdry]
    exact Bool.false_ne_true
  refine ⟨h.chunk, ?_, ?_, h.exhausted, ?_, ?_, h.bounded⟩ <;> dsimp only
  case refine_1 => rw [Scan.pending_tail hdry, h.pending, List.tail_drop]
  case refine_2 =>
    rw [List.length_tail, h.buffered]
    omega
  all_goals omega

-- With one fetch more there is the next chunk at hand, and the first pair of it goes.
theorem Stands.of_dry (h : v.Stands map pairs size yielded) (hsize : 0 < size)
    (hdry : v.scan.isDry = true) (inquiry : Inquiry) :
    let supplied := v.scan.supply ((v.scan.left.select map).take v.scan.chunk)
    Stands ⟨{ supplied with buffer := supplied.buffer.tail }, v.asked ++ [inquiry]⟩ map pairs size
      (yielded + 1) := by
  have hchunk : 0 < v.scan.chunk := h.chunk ▸ hsize
  obtain ⟨hall, hle⟩ := h.dry_iff.mp hdry
  have hasked : (v.asked ++ [inquiry]).length * size = yielded + size := by
    rw [List.length_append, List.length_singleton, Nat.succ_mul, ← hall]
  have hleft : v.scan.left.select map = pairs.drop yielded := by
    rw [← Scan.pending_of_dry hdry, h.pending]
  intro supplied
  have hpending : supplied.pending map = v.scan.left.select map := Scan.pending_supply hdry hchunk
  have hstocked : supplied.isDry = false := Scan.stocked_supply hchunk _
  refine ⟨h.chunk, ?_, ?_, ?_, ?_, ?_, ?_⟩ <;> dsimp only
  case refine_1 => rw [Scan.pending_tail hstocked, hpending, hleft, List.tail_drop]
  case refine_2 =>
    rw [hasked]
    simp only [supplied, Scan.supply, hleft, h.chunk, List.length_tail, List.length_append,
      List.length_take, List.length_drop, h.buffered]
    omega
  case refine_3 =>
    have hnot : ¬pairs.length < v.asked.length * size := by omega
    rw [hasked]
    simp only [supplied, Scan.supply, hleft, h.chunk, h.exhausted, hnot, decide_false,
      Bool.false_or, List.length_take, List.length_drop, decide_eq_decide]
    omega
  all_goals
    rw [hasked]
    omega

-- A pull yields the next pair of the listing, whether it has to fetch or not.
theorem Stands.next (h : v.Stands map pairs size yielded) (hsize : 0 < size)
    (hanswer : v.scan.isDry = true →
      source v.asked v.scan.left v.scan.chunk = .ok ((v.scan.left.select map).take v.scan.chunk)) :
    (v.next source).1 = pairs[yielded]?.map .ok ∧
      (v.next source).2.Stands map pairs size (yielded + 1) := by
  cases hdry : v.scan.isDry with
  | true =>
      have hchunk : 0 < v.scan.chunk := h.chunk ▸ hsize
      have hstocked := Scan.stocked_supply hchunk ((v.scan.left.select map).take v.scan.chunk)
      rw [next_of_dry hdry, Scan.pull_of_fetched hdry hchunk (hanswer hdry),
        Scan.pull_of_stocked hstocked]
      refine ⟨?_, h.of_dry hsize hdry _⟩
      rw [Scan.head?_buffer map hstocked, Scan.pending_supply hdry hchunk,
        ← Scan.pending_of_dry hdry, h.pending, List.head?_drop]
  | false =>
      rw [next_of_stocked hdry]
      refine ⟨?_, h.of_stocked hdry⟩
      rw [Scan.head?_buffer map hdry, h.pending, List.head?_drop]

-- Behind the last pair there was one fetch for every full chunk, and one more.
theorem Stands.length_asked (h : v.Stands map pairs size yielded) (hover : pairs.length < yielded) :
    v.asked.length = pairs.length / size + 1 := by
  have hsupplied := h.supplied
  have hbounded := h.bounded
  cases hasked : v.asked.length with
  | zero =>
      rw [hasked, Nat.zero_mul] at hsupplied
      omega
  | succ full =>
      rw [hasked] at hsupplied hbounded
      have hlow : full * size ≤ pairs.length := by
        rw [Nat.succ_mul] at hbounded
        omega
      have hhigh : pairs.length < (full + 1) * size := by omega
      rw [Nat.div_eq_of_lt_le hlow hhigh]

-- With a whole number of chunks yielded, a walk stands before the next fetch.
theorem Stands.before_fetch {calls : Nat} (h : v.Stands map pairs size (calls * size))
    (hle : calls * size ≤ pairs.length) : v.asked.length = calls ∧ v.scan.isDry = true := by
  have hneeded := h.needed
  have hmost : v.asked.length ≤ calls := by
    rw [← Nat.succ_mul] at hneeded
    exact Nat.le_of_lt_succ (Nat.lt_of_mul_lt_mul_right hneeded)
  have hfetched : v.asked.length * size ≤ calls * size := Nat.mul_le_mul_right size hmost
  have hall : calls * size = v.asked.length * size := by
    have hsupplied := h.supplied
    omega
  have hsize : 0 < size := by omega
  exact ⟨(Nat.eq_of_mul_eq_mul_right hsize hall).symm, h.dry_iff.mpr ⟨hall, hle⟩⟩

-- Nothing comes any more.
def Over (v : Visit) : Prop := v.scan.buffer = [] ∧ v.scan.exhausted = true

theorem Over.next (h : v.Over) (source : Source) : next source v = (none, v) := by
  obtain ⟨⟨left, chunk, buffer, exhausted⟩, asked⟩ := v
  obtain ⟨rfl, rfl⟩ := h
  rfl

theorem over_of_failed (hdry : v.scan.isDry = true) {e : Error}
    (hanswer : source v.asked v.scan.left v.scan.chunk = .error e) :
    (v.next source).1 = some (.error e) ∧ (v.next source).2.Over := by
  have hbuffer : v.scan.buffer = [] := Scan.buffer_eq_nil hdry
  rw [next_of_dry hdry, Scan.pull_of_failed hdry hanswer]
  exact ⟨rfl, hbuffer, rfl⟩

section Walk

variable {range : KeyRange} {chunk calls n : Nat}

theorem over_after (h : (after source range chunk n).Over) {later : Nat} (hle : n ≤ later) :
    (after source range chunk later).Over := by
  induction hle with
  | refl => exact h
  | step _ ih =>
      rw [after, ih.next source]
      exact ih

theorem next_within (hanswers : source.Answers map calls)
    (h : (after source range chunk n).Stands map (range.select map) (max chunk 1) n)
    (hwithin : n < calls * max chunk 1 ∨ (range.select map).length < calls * max chunk 1) :
    ((after source range chunk n).next source).1 = (range.select map)[n]?.map .ok ∧
      (after source range chunk (n + 1)).Stands map (range.select map) (max chunk 1) (n + 1) := by
  refine h.next (by omega) (fun hdry => hanswers _ _ _ ?_)
  obtain ⟨hall, hle⟩ := h.dry_iff.mp hdry
  apply Nat.lt_of_mul_lt_mul_right (a := max chunk 1)
  omega

-- As long as the fetches that fail are not reached, a walk goes on through the listing.
theorem stands_after (range : KeyRange) (chunk : Nat) (hanswers : source.Answers map calls)
    (hwithin : n ≤ calls * max chunk 1 ∨ (range.select map).length < calls * max chunk 1) :
    (after source range chunk n).Stands map (range.select map) (max chunk 1) n := by
  induction n with
  | zero => exact stands_start map range chunk
  | succ n ih => exact (next_within hanswers (ih (by omega)) (by omega)).2

theorem item_after (hanswers : source.Answers map calls)
    (hwithin : n < calls * max chunk 1 ∨ (range.select map).length < calls * max chunk 1) :
    ((after source range chunk n).next source).1 = (range.select map)[n]?.map .ok :=
  (next_within hanswers (stands_after range chunk hanswers (by omega)) hwithin).1

-- The fetches that fail are reached if and only if there are pairs enough for the others.
theorem exists_asked_iff (hanswers : source.Answers map calls) :
    (∃ n, calls < (after source range chunk n).asked.length) ↔
      calls * max chunk 1 ≤ (range.select map).length := by
  constructor
  · rintro ⟨n, hn⟩
    by_contra hfew
    have hfew : (range.select map).length < calls * max chunk 1 := Nat.not_le.mp hfew
    have hbounded := (stands_after (n := n) range chunk hanswers (.inr hfew)).bounded
    have hmore := Nat.mul_le_mul_right (max chunk 1) (Nat.succ_le_of_lt hn)
    rw [Nat.succ_mul] at hmore
    omega
  · intro hle
    have hstands := stands_after range chunk hanswers (.inl (Nat.le_refl _))
    obtain ⟨hasked, hdry⟩ := hstands.before_fetch hle
    refine ⟨calls * max chunk 1 + 1, ?_⟩
    rw [after, next_of_dry hdry, List.length_append, hasked]
    exact Nat.lt_succ_self calls

-- A walk yields the pairs of its range in order, whatever the chunk, and then nothing for good; it
-- takes one fetch for every full chunk, and one more. If the fetches fail after so many calls, and
-- it comes to that, then what these calls gave is all that it yields, and then the error, once.
theorem walk_exact (map : SortedMap Bytes Bytes) (range : KeyRange) (chunk : Nat)
    (source : Source) :
    let pairs := range.select map
    let size := max chunk 1
    let visit := after source range chunk
    ((∀ calls, source.Answers map calls) → ∀ n,
        ((visit n).next source).1 = pairs[n]?.map .ok ∧
          (pairs.length < n → (visit n).asked.length = pairs.length / size + 1)) ∧
      ∀ calls, source.Answers map calls → source.FailsAfter calls →
        (∃ n, calls < (visit n).asked.length) →
        let stop := visit (calls * size)
        calls * size ≤ pairs.length ∧ stop.asked.length = calls ∧
          ∃ e, source stop.asked stop.scan.left stop.scan.chunk = .error e ∧ ∀ n,
            ((visit n).next source).1 =
              if n < calls * size then pairs[n]?.map .ok
              else if n = calls * size then some (.error e)
              else none := by
  intro pairs size visit
  constructor
  · intro hanswers n
    have hwithin : pairs.length < (pairs.length + 1) * size := by
      have hsize : 1 ≤ size := Nat.le_max_right chunk 1
      exact Nat.lt_of_lt_of_le (Nat.lt_succ_self _) (Nat.le_mul_of_pos_right _ hsize)
    refine ⟨item_after (hanswers _) (.inr hwithin), fun hover => ?_⟩
    exact (stands_after range chunk (hanswers _) (.inr hwithin)).length_asked hover
  · intro calls hanswers hfails hreached stop
    have hle : calls * size ≤ pairs.length := (exists_asked_iff hanswers).mp hreached
    have hstands := stands_after range chunk hanswers (.inl (Nat.le_refl _))
    obtain ⟨hasked, hdry⟩ := hstands.before_fetch hle
    obtain ⟨e, he⟩ := hfails stop.asked stop.scan.left stop.scan.chunk (Nat.le_of_eq hasked.symm)
    obtain ⟨hitem, hover⟩ := over_of_failed hdry he
    refine ⟨hle, hasked, e, he, fun n => ?_⟩
    split
    · next hlt => exact item_after hanswers (.inl hlt)
    · next hnot =>
      split
      · next heq => exact heq ▸ hitem
      · next hne =>
        have hlater : calls * size + 1 ≤ n := by omega
        have hend : (after source range chunk n).Over :=
          over_after (n := calls * size + 1) hover hlater
        exact congrArg Prod.fst (hend.next source)

-- A walk by twos through four pairs, of which one key extends another with a zero byte.
def paced : SortedMap Bytes Bytes :=
  .ofList [([1], [11]), ([1, 0], [12]), ([2], [21]), ([0xFF], [31])]

def steady : Source := fun _ part limit => .ok ((part.select paced).take limit)

-- A source that breaks down after one fetch.
def failing : Source := fun asked part limit =>
  if asked.length < 1 then steady asked part limit else .error (.internal "fetch failed")

theorem walk_exact_paced :
    ((∀ calls, steady.Answers paced calls) ∧ (after steady .all 2 5).asked.length = 3 ∧
        ((after steady .all 2 1).next steady).1 = some (.ok ([1, 0], [12]))) ∧
      (failing.Answers paced 1 ∧ failing.FailsAfter 1 ∧
        1 < (after failing .all 2 3).asked.length) ∧
      ((after failing .all 2 2).next failing).1 = some (.error (.internal "fetch failed")) ∧
      ((after failing .all 2 7).next failing).1 = none := by
  have hsteady : ∀ calls, steady.Answers paced calls := fun _ _ _ _ _ => rfl
  have hanswers : failing.Answers paced 1 := fun _ _ _ hlt => if_pos hlt
  have hfails : failing.FailsAfter 1 := fun _ _ _ hle => ⟨_, if_neg (Nat.not_lt.mpr hle)⟩
  have hreached : 1 < (after failing .all 2 3).asked.length := by decide
  have hwhole := (walk_exact paced .all 2 steady).1 hsteady
  obtain ⟨-, -, e, he, hitems⟩ :=
    (walk_exact paced .all 2 failing).2 1 hanswers hfails ⟨3, hreached⟩
  obtain rfl : .internal "fetch failed" = e := Except.error.inj he
  exact ⟨⟨hsteady, (hwhole 5).2 (by decide), (hwhole 1).1⟩, ⟨hanswers, hfails, hreached⟩, hitems 2,
    hitems 7⟩

end Walk

end Visit

end DocStore
