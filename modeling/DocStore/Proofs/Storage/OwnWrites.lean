import DocStore.Proofs.Storage.Faithful
import DocStore.Proofs.Storage.Reservation

-- What a writer finds of its own writes, key by key and on a walk through a range.
namespace DocStore

namespace Call

def opensWriter : Call → Bool
  | .write _ _ | .writeExclusive _ _ _ => true
  | _ => false

def ends (n : Nat) : Call → Bool
  | .commit m _ | .close m => m == n
  | _ => false

-- The write that a call buffers for a handle.
def buffers? (n : Nat) : Call → Option Write
  | .buffer m key value => if m = n then some (key, value) else none
  | _ => none

def pulls (n i : Nat) : Call → Bool
  | .pull m j _ => m == n && j == i
  | _ => false

-- An iterator of a handle outlives a call, and is not pulled by it in a context that is over.
def Spares (n i : Nat) : Call → Prop
  | .buffer m _ _ | .commit m _ | .close m => m ≠ n
  | .pull m j signal => m = n → j = i → signal = .go
  | _ => True

end Call

section Buffering

variable {κ α : Type} [LT κ] [DecidableEq κ] [LE κ] [DecidableLT κ] [Std.IsLinearOrder κ]
  [Std.LawfulOrderLT κ]

-- Writes that are buffered by key come to the same as writes that are performed in order.
theorem SortedMap.setAll_insertAll (map : SortedMap κ α) (buffered : SortedMap κ (Option α))
    (writes : List (κ × Option α)) :
    map.setAll (buffered.insertAll writes).toList = (map.setAll buffered.toList).setAll writes := by
  induction writes generalizing buffered with
  | nil => rfl
  | cons w writes ih =>
      have hone : map.setAll (buffered.insert w.1 w.2).toList =
          (map.setAll buffered.toList).set w.1 w.2 := by
        refine SortedMap.ext_get? fun key => ?_
        rw [get?_setAll, get?_insert, get?_set, get?_setAll]
        split <;> rfl
      have hrest := ih (buffered.insert w.1 w.2)
      rw [hone] at hrest
      exact hrest

end Buffering

-- A writer at work, which map is below its writes, and what it has buffered.
structure Outlook.Holds (o : Outlook) (base : Nat) (writes : SortedMap Bytes (Option Bytes)) :
    Prop where
  writing : o.Writing
  base : o.base = base
  writes : o.writes = writes

namespace Chronicle

variable {c : Chronicle} {n : Nat} {o : Outlook} {base : Nat}
  {writes : SortedMap Bytes (Option Bytes)}

-- As long as a writer is not ended, only its own calls change what it has buffered.
theorem holds_record (ho : c.outlooks[n]? = some o) (h : o.Holds base writes) {call : Call}
    (hends : call.ends n = false) (answer : Answer) :
    ∃ later, (c.record call answer).outlooks[n]? = some later ∧
      later.Holds base (writes.insertAll (call.buffers? n).toList) := by
  have hkept : ∀ {k : Nat} {f : Outlook → Outlook}, (k = n → (f o).Holds base writes) →
      ∃ later, (c.modify k f).outlooks[n]? = some later ∧ later.Holds base writes := by
    intro k f hf
    refine ⟨if k = n then f o else o, by simp [modify, List.getElem?_modify, ho], ?_⟩
    split
    · next hk => exact hf hk
    · exact h
  have hiters : ∀ iters, Outlook.Holds { o with iters := iters } base writes :=
    fun _ => ⟨h.writing, h.base, h.writes⟩
  cases call with
  | read | write | writeExclusive =>
      obtain ⟨hlt, -⟩ := List.getElem?_eq_some_iff.mp ho
      rcases answer with (_ | _) | _ | _ | _ | _
      case opened.ok => exact ⟨o, by rw [record, enter, List.getElem?_append_left hlt, ho], h⟩
      all_goals exact ⟨o, ho, h⟩
  | get => exact ⟨o, ho, h⟩
  | iter k range => exact hkept fun _ => hiters _
  | pull k i signal =>
      cases answer
      case item item => exact hkept fun _ => hiters _
      all_goals exact ⟨o, ho, h⟩
  | buffer k key value =>
      by_cases hk : k = n
      · subst hk
        refine ⟨o.write key value, by simp [record, modify, ho], ?_⟩
        rw [Outlook.write, if_pos h.writing]
        simp only [Call.buffers?, if_true]
        exact ⟨h.writing, h.base, by rw [h.writes]; rfl⟩
      · simp only [Call.buffers?, if_neg hk]
        exact hkept fun heq => absurd heq hk
  | commit k signal =>
      have hk : k ≠ n := by simpa [Call.ends] using hends
      exact hkept fun heq => absurd heq hk
  | close k =>
      have hk : k ≠ n := by simpa [Call.ends] using hends
      exact hkept fun heq => absurd heq hk

end Chronicle

namespace Course

-- What the pulls of an iterator are answered, in the course of some calls.
def pulled (c : Course) (n i : Nat) : List Call → List Answer
  | [] => []
  | call :: calls =>
    if call.pulls n i then (c.session.exec call).1 :: (c.step call).pulled n i calls
    else (c.step call).pulled n i calls

def Reached (c : Course) : Prop := ∃ kind calls, c = run kind calls

theorem Reached.step {c : Course} (h : c.Reached) (call : Call) : (c.step call).Reached := by
  obtain ⟨kind, calls, rfl⟩ := h
  exact ⟨kind, calls ++ [call], (run_append kind calls call).symm⟩

theorem Reached.faithful {c : Course} (h : c.Reached) : c.Faithful := by
  obtain ⟨kind, calls, rfl⟩ := h
  exact faithful_run kind calls

-- A writer at work over a map.
structure Works (c : Course) (n : Nat) (below : SortedMap Bytes Bytes) (base : Nat)
    (writes : SortedMap Bytes (Option Bytes)) : Prop where
  reached : c.Reached
  holds : ∃ o, c.chronicle.outlooks[n]? = some o ∧ o.Holds base writes
  below : c.chronicle.log.mapAt base = below

namespace Works

variable {c : Course} {n i : Nat} {below : SortedMap Bytes Bytes} {base : Nat}
  {writes : SortedMap Bytes (Option Bytes)} {left : List Pair}

theorem sees (h : c.Works n below base writes) :
    ∃ seat, c.session.seats[n]? = some seat ∧ c.session.kv.Sees seat.handle below writes := by
  obtain ⟨o, ho, hholds⟩ := h.holds
  obtain ⟨seat, hn, hs⟩ := h.reached.faithful.sees n o ho hholds.writing
  rw [hholds.base, hholds.writes, h.below] at hs
  exact ⟨seat, hn, hs⟩

theorem step (h : c.Works n below base writes) {call : Call} (hends : call.ends n = false) :
    (c.step call).Works n below base (writes.insertAll (call.buffers? n).toList) := by
  obtain ⟨o, ho, hholds⟩ := h.holds
  have hpast : base ≤ c.chronicle.log.length :=
    hholds.base ▸ h.reached.faithful.past n o ho hholds.writing
  exact {
    reached := h.reached.step call
    holds := Chronicle.holds_record ho hholds hends _
    below := (CommitLog.mapAt_of_prefix (Chronicle.log_record _ _ _) hpast).trans h.below }

theorem steps (h : c.Works n below base writes) {calls : List Call}
    (hcalls : ∀ call ∈ calls, call.ends n = false) :
    (calls.foldl Course.step c).Works n below base
      (writes.insertAll (calls.filterMap (Call.buffers? n))) := by
  induction calls generalizing c writes with
  | nil => exact h
  | cons call calls ih =>
      have hcall := h.step (hcalls call (List.mem_cons_self ..))
      have hrest := ih hcall fun later hlater => hcalls later (List.mem_cons_of_mem _ hlater)
      have hsplit : (call :: calls).filterMap (Call.buffers? n) =
          (call.buffers? n).toList ++ calls.filterMap (Call.buffers? n) := by
        cases hb : call.buffers? n <;> simp [hb]
      rw [hsplit, SortedMap.insertAll, List.foldl_append]
      exact hrest

-- What a writer finds is what it holds.
theorem get (h : c.Works n below base writes) (signal : Signal) (key : Bytes) :
    (c.session.exec (.get n signal key)).1 =
      .found (signal.check.map fun _ => (below.setAll writes.toList).get? key) := by
  obtain ⟨seat, hn, hs⟩ := h.sees
  simp only [Session.exec, hn, hs.get signal key]

end Works

-- A writer has an iterator with some pairs left in it.
structure Walks (c : Course) (n i : Nat) (below : SortedMap Bytes Bytes) (base : Nat)
    (writes : SortedMap Bytes (Option Bytes)) (left : List Pair) : Prop where
  works : c.Works n below base writes
  follows : ∃ seat it, c.session.seats[n]? = some seat ∧ seat.iters[i]? = some it ∧
    it.Follows below ⟨left, false⟩

end Course

-- A call that does not pull an iterator leaves it as it is.
theorem Session.iters_exec {s : Session} {n i : Nat} {seat : Seat} {it : Iter}
    (hn : s.seats[n]? = some seat) (hi : seat.iters[i]? = some it) {call : Call}
    (hspares : call.Spares n i) (hpulls : call.pulls n i = false) :
    ∃ after, (s.exec call).2.seats[n]? = some after ∧ after.iters[i]? = some it := by
  have hset : ∀ {k : Nat} {other : Seat}, (k = n → other.iters[i]? = some it) →
      ∃ after, (s.seats.set k other)[n]? = some after ∧ after.iters[i]? = some it := by
    intro k other hother
    obtain ⟨hlt, -⟩ := List.getElem?_eq_some_iff.mp hn
    by_cases hk : k = n
    · subst hk
      exact ⟨other, by simp [hlt], hother rfl⟩
    · exact ⟨seat, by rw [List.getElem?_set_ne hk, hn], hi⟩
  have hreceive : ∀ opened, ∃ after, (s.receive opened).2.seats[n]? = some after ∧
      after.iters[i]? = some it := by
    rintro ⟨_ | handle, kv⟩
    · exact ⟨seat, hn, hi⟩
    · obtain ⟨hlt, -⟩ := List.getElem?_eq_some_iff.mp hn
      exact ⟨seat, by simp only [receive, List.getElem?_append_left hlt, hn], hi⟩
  cases call with
  | read | write | writeExclusive => exact hreceive _
  | get k signal key =>
      simp only [exec]
      cases s.seats[k]? <;> exact ⟨seat, hn, hi⟩
  | iter k range =>
      simp only [exec]
      cases hk : s.seats[k]? with
      | none => exact ⟨seat, hn, hi⟩
      | some other =>
          refine hset fun heq => ?_
          subst heq
          obtain rfl : seat = other := Option.some.inj (hn.symm.trans hk)
          obtain ⟨hlt, -⟩ := List.getElem?_eq_some_iff.mp hi
          exact (List.getElem?_append_left hlt).trans hi
  | pull k j signal =>
      simp only [exec]
      cases hk : s.seats[k]? with
      | none => exact ⟨seat, hn, hi⟩
      | some other =>
          cases hj : other.iters[j]? with
          | none =>
              simp only [hj]
              exact ⟨seat, hn, hi⟩
          | some _ =>
              simp only [hj]
              refine hset fun heq => ?_
              subst heq
              obtain rfl : seat = other := Option.some.inj (hn.symm.trans hk)
              have hne : j ≠ i := by simpa [Call.pulls] using hpulls
              exact (List.getElem?_set_ne hne).trans hi
  | buffer k key value =>
      simp only [exec]
      cases hk : s.seats[k]? with
      | none => exact ⟨seat, hn, hi⟩
      | some other =>
          cases hb : Kv.buffer other.handle key value <;> simp only [hb] <;>
            exact hset fun heq => absurd heq hspares
  | commit k signal =>
      simp only [exec]
      cases hk : s.seats[k]? with
      | none => exact ⟨seat, hn, hi⟩
      | some other => exact hset fun heq => absurd heq hspares
  | close k =>
      simp only [exec]
      cases hk : s.seats[k]? with
      | none => exact ⟨seat, hn, hi⟩
      | some other => exact hset fun heq => absurd heq hspares

namespace Call

variable {n i : Nat} {call : Call}

theorem Spares.ends (h : call.Spares n i) : call.ends n = false := by
  cases call <;> first | rfl | simpa [Call.ends, Call.Spares] using h

theorem Spares.buffers? (h : call.Spares n i) : call.buffers? n = none := by
  cases call <;> first | rfl | exact if_neg h

theorem eq_pull_of_pulls (h : call.pulls n i = true) : ∃ signal, call = .pull n i signal := by
  cases call <;> simp [Call.pulls] at h
  obtain ⟨rfl, rfl⟩ := h
  exact ⟨_, rfl⟩

end Call

namespace Course.Walks

variable {c : Course} {n i : Nat} {below : SortedMap Bytes Bytes} {base : Nat}
  {writes : SortedMap Bytes (Option Bytes)} {left : List Pair}

theorem works_step (h : c.Walks n i below base writes left) {call : Call}
    (hspares : call.Spares n i) : (c.step call).Works n below base writes := by
  have hworks := h.works.step hspares.ends
  rwa [hspares.buffers?] at hworks

-- The first pair left comes next, and then the walk goes on behind it.
theorem pull (h : c.Walks n i below base writes left) :
    (c.session.exec (.pull n i .go)).1 = .item (left.head?.map .ok) ∧
      (c.step (.pull n i .go)).Walks n i below base writes left.tail := by
  obtain ⟨seat, it, hn, hi, hfollows⟩ := h.follows
  obtain ⟨seat', hn', hs⟩ := h.works.sees
  obtain rfl : seat = seat' := Option.some.inj (hn.symm.trans hn')
  obtain ⟨hadmits, hnext⟩ := hs.pull .go hfollows
  obtain ⟨hitem, hadvance⟩ := Prospect.eq_of_admits hadmits
  rw [hadvance] at hnext
  have hseat := (List.getElem?_eq_some_iff.mp hn).1
  have hiter := (List.getElem?_eq_some_iff.mp hi).1
  refine ⟨by simp only [Session.exec, hn, hi, hitem], h.works_step fun _ _ => rfl, ?_⟩
  refine ⟨{ seat with iters := seat.iters.set i (c.session.kv.pull seat.handle .go it).2 }, _, ?_,
    List.getElem?_set_self hiter, hnext⟩
  simp only [Course.step, Session.exec, hn, hi, List.getElem?_set_self hseat]

theorem spared (h : c.Walks n i below base writes left) {call : Call} (hspares : call.Spares n i)
    (hpulls : call.pulls n i = false) : (c.step call).Walks n i below base writes left := by
  obtain ⟨seat, it, hn, hi, hfollows⟩ := h.follows
  obtain ⟨after, hafter, hkept⟩ := Session.iters_exec hn hi hspares hpulls
  exact ⟨h.works_step hspares, after, it, hafter, hkept, hfollows⟩

-- However the calls of others come in between, the pulls get the pairs left one after the other.
theorem pulled_eq (h : c.Walks n i below base writes left) {calls : List Call}
    (hcalls : ∀ call ∈ calls, call.Spares n i) :
    c.pulled n i calls =
      (List.range (calls.countP (Call.pulls n i))).map fun k => .item (left[k]?.map .ok) := by
  induction calls generalizing c left with
  | nil => rfl
  | cons call calls ih =>
      have hcall := hcalls call (List.mem_cons_self ..)
      have hrest : ∀ later ∈ calls, later.Spares n i :=
        fun later hlater => hcalls later (List.mem_cons_of_mem _ hlater)
      cases hpulls : call.pulls n i with
      | false =>
          rw [pulled, hpulls, List.countP_cons_of_neg (by simp [hpulls])]
          exact ih (h.spared hcall hpulls) hrest
      | true =>
          obtain ⟨signal, rfl⟩ := Call.eq_pull_of_pulls hpulls
          obtain rfl : signal = .go := hcall rfl rfl
          obtain ⟨hanswer, hnext⟩ := h.pull
          rw [pulled, if_pos hpulls, List.countP_cons_of_pos hpulls, List.range_succ_eq_map,
            List.map_cons, List.map_map, hanswer, ih hnext hrest]
          refine congr (congrArg _ (by rw [List.head?_eq_getElem?])) ?_
          refine List.map_congr_left fun k _ => ?_
          simp

end Course.Walks

namespace Course

-- What a writer finds is a map: key by key, and whole ranges of it on walks that others may disturb
-- as they like.
structure Finds (c : Course) (n : Nat) (found : SortedMap Bytes Bytes) : Prop where
  gets : ∀ signal key,
    (c.session.exec (.get n signal key)).1 = .found (signal.check.map fun _ => found.get? key)
  lists : ∀ range : KeyRange, ∃ i, c.session.seats[n]?.map (fun seat => seat.iters.length) = some i ∧
    ∃ listing : List Pair, listing.Pairwise (fun a b => a.1 < b.1) ∧
      (∀ key value, (key, value) ∈ listing ↔
        range.start ≤ key ∧ (range.stop = [] ∨ key < range.stop) ∧
          found.get? key = some value) ∧
      ∀ later, (∀ call ∈ later, call.Spares n i) →
        (c.step (.iter n range)).pulled n i later =
          (List.range (later.countP (Call.pulls n i))).map fun k => .item (listing[k]?.map .ok)

theorem Works.finds {c : Course} {n : Nat} {below : SortedMap Bytes Bytes} {base : Nat}
    {writes : SortedMap Bytes (Option Bytes)} (h : c.Works n below base writes) :
    c.Finds n (below.setAll writes.toList) where
  gets := h.get
  lists range := by
    obtain ⟨seat, hn, hs⟩ := h.sees
    refine ⟨seat.iters.length, by rw [hn]; rfl, range.select (below.setAll writes.toList),
      range.ascending_select _, fun key value => ?_, fun later hlater => ?_⟩
    · rw [range.mem_select_iff, SortedMap.get?_eq_some_iff]
      simp only [KeyRange.contains, Bool.and_eq_true, Bool.or_eq_true, decide_eq_true_eq,
        List.isEmpty_iff]
      exact ⟨fun h => ⟨h.2.1, h.2.2, h.1⟩, fun h => ⟨h.2.2, h.1, h.2.1⟩⟩
    · have hseat := (List.getElem?_eq_some_iff.mp hn).1
      have hworks : (c.step (.iter n range)).Works n below base writes := h.step rfl
      refine Walks.pulled_eq ⟨hworks, ?_⟩ hlater
      refine ⟨{ seat with iters := seat.iters ++ [Kv.iter seat.handle range] }, _, ?_, by simp,
        hs.iter range⟩
      simp only [Course.step, Session.exec, hn, List.getElem?_set_self hseat]

-- While a writer of a single-writer store is at work, nobody commits.
theorem Works.committed {calls : List Call} {n : Nat} {below : SortedMap Bytes Bytes} {base : Nat}
    {writes : SortedMap Bytes (Option Bytes)}
    (h : (run .embedded calls).Works n below base writes) :
    (run .embedded calls).session.kv.committed = below.toList := by
  have hcommitted := h.reached.faithful.committed
  obtain ⟨o, ho, hholds⟩ := h.holds
  obtain ⟨kv, -, hexclusive⟩ := exclusive_run calls
  obtain ⟨seat, -, hs⟩ := forall₂_getElem? hexclusive.stands ho
  have hbase : base = (run .embedded calls).chronicle.log.length :=
    hholds.base ▸ (hs.writing hholds.writing).2
  rw [hcommitted, ← h.below, hbase]
  rfl

-- From the moment that it opens until it ends, a writer of either kind of store finds what was
-- committed when it opened, with everything that it has buffered since performed on it.
theorem finds_own_writes (kind : BackendKind) (before during : List Call) (opening : Call) (n : Nat)
    (hwriter : opening.opensWriter = true)
    (hopened : ((run kind before).session.exec opening).1 = .opened (.ok n))
    (hduring : ∀ call ∈ during, call.ends n = false) :
    ∃ below : SortedMap Bytes Bytes,
      below.toList = (run kind before).session.kv.committed ∧
      (kind = .embedded →
        (run kind (before ++ opening :: during)).session.kv.committed = below.toList) ∧
      (run kind (before ++ opening :: during)).Finds n
        (below.setAll (during.filterMap (Call.buffers? n))) := by
  have hfaithful := faithful_run kind before
  have hrun : run kind (before ++ opening :: during) =
      during.foldl step ((run kind before).step opening) := by
    simp [run]
  have hn : n = (run kind before).chronicle.outlooks.length := by
    have hseats : n = (run kind before).session.seats.length := by
      cases opening <;> cases hwriter
      all_goals
        simp only [Session.exec, Session.receive] at hopened
        split at hopened <;> cases hopened
        rfl
    rw [hseats, hfaithful.aligned]
  have hentered : ∃ keys, ((run kind before).step opening).chronicle =
      (run kind before).chronicle.enter true keys := by
    cases opening <;> cases hwriter
    · exact ⟨[], by simp only [step, hopened, Chronicle.record]⟩
    · exact ⟨_, by simp only [step, hopened, Chronicle.record]; rfl⟩
  obtain ⟨keys, hentered⟩ := hentered
  have hfirst : ((run kind before).step opening).Works n
      (run kind before).chronicle.log.current (run kind before).chronicle.log.length .empty := {
    reached := Reached.step ⟨kind, before, rfl⟩ opening
    holds := ⟨⟨true, (run kind before).chronicle.log.length, keys, .empty, true, []⟩,
      by simp [hentered, Chronicle.enter, hn], ⟨rfl, rfl⟩, rfl, rfl⟩
    below := by rw [hentered]; rfl }
  have hworks := hfirst.steps hduring
  rw [← hrun] at hworks
  refine ⟨(run kind before).chronicle.log.current, hfaithful.committed.symm, ?_, ?_⟩
  · rintro rfl
    exact hworks.committed
  · have hfinds := hworks.finds
    rwa [SortedMap.setAll_insertAll] at hfinds

-- A writer deletes and adds a key, while somebody else overwrites another one.
def stock : List Call :=
  [.write .go .cancelled, .buffer 0 [1] (some [1]), .buffer 0 [2] (some [2]), .commit 0 .go]

def revision : List Call :=
  [.buffer 1 [2] none, .write .go .cancelled, .buffer 2 [1] (some [9]), .commit 2 .go,
    .buffer 1 [3] (some [3])]

theorem finds_own_writes_of_revision :
    ∃ below : SortedMap Bytes Bytes, below.toList = [([1], [1]), ([2], [2])] ∧
      (run .mvcc (stock ++ .write .go .cancelled :: revision)).Finds 1
        (below.setAll [([2], none), ([3], some [3])]) := by
  obtain ⟨below, hbelow, -, hfinds⟩ :=
    finds_own_writes .mvcc stock revision (.write .go .cancelled) 1 rfl rfl (by decide)
  exact ⟨below, hbelow.trans rfl, hfinds⟩

end Course

end DocStore
