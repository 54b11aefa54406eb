import DocStore.Proofs.Storage.Ending
import DocStore.Proofs.Storage.Holding
import DocStore.Proofs.Storage.Sight
import DocStore.Proofs.Storage.Versions

namespace DocStore

-- A handle of a multi-version store is what those who know only what it is to see take it for.
def Handle.Plays (h : Handle) (o : Outlook) : Prop :=
  match h with
  | .multiRead version closed =>
    o.isWriter = false ∧ version = o.base ∧ closed = !o.isOpen ∧ o.writes = SortedMap.empty
  | .multiWrite txn finished =>
    o.isWriter = true ∧ txn.start = o.base ∧ finished = !o.isOpen ∧ txn.isActive = o.isOpen ∧
      (o.isOpen = true → txn.writes = o.writes ∧ ∀ key, key ∈ txn.intents ↔ key ∈ o.reserved)
  | _ => False

namespace Handle.Plays

variable {h : Handle} {o : Outlook}

theorem withIters (hp : h.Plays o) (iters : List Prospect) : h.Plays { o with iters := iters } := by
  cases h <;> exact hp

theorem closed (hp : h.Plays o) (ho : o.isOpen = false) : h.Plays o.closed := by
  match h with
  | .multiRead version closed => exact ⟨hp.1, hp.2.1, by rw [hp.2.2.1, ho]; rfl, hp.2.2.2⟩
  | .multiWrite txn finished =>
      obtain ⟨hwriter, hstart, hfinished, hactive, -⟩ := hp
      rw [ho] at hfinished hactive
      exact ⟨hwriter, hstart, hfinished, hactive, fun hopen => by cases hopen⟩

theorem writing (hp : h.Plays o) (ho : o.Writing) :
    ∃ txn, h = .multiWrite txn false ∧ txn.start = o.base ∧ txn.isActive = true ∧
      txn.writes = o.writes ∧ ∀ key, key ∈ txn.intents ↔ key ∈ o.reserved := by
  obtain ⟨hopen, hwriter⟩ := ho
  match h with
  | .multiRead _ _ =>
      rw [hp.1] at hwriter
      cases hwriter
  | .multiWrite txn finished =>
      obtain ⟨-, hstart, hfinished, hactive, hall⟩ := hp
      rw [hopen] at hfinished hactive
      exact ⟨txn, by rw [hfinished]; rfl, hstart, hactive, hall hopen⟩

theorem held? (hp : h.Plays o) (ho : o.isOpen = true) : h.held? = some o.base := by
  match h with
  | .multiRead version closed =>
      obtain ⟨-, rfl, rfl, -⟩ := hp
      simp [Handle.held?, ho]
  | .multiWrite txn finished =>
      obtain ⟨-, hstart, rfl, -⟩ := hp
      simp [Handle.held?, ho, hstart]

-- A handle sees the map of its version as long as the store keeps that version.
theorem sees (hp : h.Plays o) (ho : o.isOpen = true) {kv : MultiVersion} {log : CommitLog}
    {oldest : Nat} (hk : kv.store.Keeps log oldest) (hle : oldest ≤ o.base) :
    (Kv.multi kv).Sees h (log.mapAt o.base) o.writes := by
  match h with
  | .multiRead version closed =>
      obtain ⟨-, rfl, rfl, hwrites⟩ := hp
      exact ⟨by simp [Kv.usable, ho], hwrites.symm, fun key => hk.getAt? key hle,
        fun range limit => hk.scanAt range limit hle⟩
  | .multiWrite txn finished =>
      obtain ⟨-, hstart, -, hactive, hall⟩ := hp
      refine ⟨?_, (hall ho).1, fun key => ?_, fun range limit => ?_⟩
      · simp [Kv.usable, Txn.ensureActive, hactive, ho]
      · rw [← hk.getAt? key hle, ← hstart]
        rfl
      · rw [← hk.scanAt range limit hle, ← hstart]
        rfl

theorem buffer (hp : h.Plays o) (ho : o.Writing) (key : Bytes) (value : Option Bytes) :
    ∃ after, Kv.buffer h key value = .ok after ∧
      after.Plays { o with writes := o.writes.insert key value, iters := [] } ∧
      after.held? = h.held? ∧ after.number? = h.number? ∧
      ∀ id key, after.Reserves id key ↔ h.Reserves id key := by
  obtain ⟨txn, rfl, hstart, hactive, hwrites, hintents⟩ := hp.writing ho
  obtain ⟨hopen, hwriter⟩ := ho
  refine ⟨.multiWrite { txn with writes := txn.writes.insert key value } false, ?_, ?_, rfl, rfl,
    fun _ _ => Iff.rfl⟩
  · simp only [Kv.buffer, Txn.write, Txn.ensureActive, hactive, ite_true]
    rfl
  · refine ⟨hwriter, hstart, by rw [hopen]; rfl, hactive.trans hopen.symm, fun _ => ⟨?_, hintents⟩⟩
    rw [hwrites]

theorem buffer_refused (hp : h.Plays o) (ho : ¬o.Writing) (key : Bytes) (value : Option Bytes) :
    ∃ e, Kv.buffer h key value = .error e := by
  match h with
  | .multiRead _ _ => exact ⟨_, rfl⟩
  | .multiWrite txn finished =>
      have hactive : txn.isActive = false := by
        rw [hp.2.2.2.1, ← Bool.not_eq_true]
        exact fun hopen => ho ⟨hopen, hp.1⟩
      simp only [Kv.buffer, Txn.write, Txn.ensureActive, hactive, Bool.false_eq_true, ite_false]
      exact ⟨_, rfl⟩

theorem commit_refused (hp : h.Plays o) (ho : ¬o.Writing) (kv : MultiVersion) (signal : Signal) :
    ∃ e, (Kv.multi kv).commit h signal = (.error e, h, .multi kv) := by
  match h with
  | .multiRead _ _ => exact ⟨_, rfl⟩
  | .multiWrite txn finished =>
      obtain ⟨hwriter, -, hfinished, hactive, -⟩ := hp
      have hclosed : o.isOpen = false := by
        rw [← Bool.not_eq_true]
        exact fun hopen => ho ⟨hopen, hwriter⟩
      rw [hclosed] at hfinished hactive
      rw [hfinished]
      exact Kv.commit_of_ended hactive

end Handle.Plays

-- A seat is taken for an outlook, and so are its iterators while it is open.
structure Seat.Shows (log : CommitLog) (seat : Seat) (o : Outlook) : Prop where
  plays : seat.handle.Plays o
  past : o.base ≤ log.length
  iters : o.isOpen = true → List.Forall₂ (Iter.Follows (log.mapAt o.base)) seat.iters o.iters

theorem Outlook.closed_eq {o : Outlook} (h : o.isOpen = false) :
    o.closed = { o with iters := [] } := by
  rw [Outlook.closed, ← h]

theorem Seat.Shows.append {log : CommitLog} {seat : Seat} {o : Outlook} (h : seat.Shows log o)
    (commit : Commit) : seat.Shows (log ++ [commit]) o where
  plays := h.plays
  past := by
    rw [List.length_append]
    exact Nat.le_add_right_of_le h.past
  iters ho := by
    rw [CommitLog.mapAt_append _ h.past]
    exact h.iters ho

-- A multi-version store and its handles are as a store that never forgets tells.
structure Isolated (kv : MultiVersion) (seats : List Seat) (c : Chronicle) : Prop where
  keeps : kv.store.Keeps c.log (kv.manager.oldest c.log.length)
  serves : kv.manager.Serves (seats.map Seat.handle)
  shows : List.Forall₂ (Seat.Shows c.log) seats c.outlooks
  -- whoever has committed is done
  settled : ∀ commit ∈ c.log, ∃ o, c.outlooks[commit.client]? = some o ∧ o.isOpen = false

namespace Isolated

variable {kv : MultiVersion} {seats : List Seat} {c : Chronicle} {n : Nat} {seat : Seat}
  {o : Outlook}

theorem start : Isolated ⟨VersionStore.empty, TxnManager.new⟩ [] Chronicle.start where
  keeps := VersionStore.Keeps.empty _
  serves := TxnManager.Serves.new
  shows := .nil
  settled := by simp [Chronicle.start]

theorem oldest_le_length (h : Isolated kv seats c) :
    kv.manager.oldest c.log.length ≤ c.log.length :=
  h.serves.tidy.oldest_le _

-- Nothing that an open handle sees has been pruned.
theorem sees (h : Isolated kv seats c) (hn : seats[n]? = some seat)
    (hs : seat.Shows c.log o) (ho : o.isOpen = true) :
    (Kv.multi kv).Sees seat.handle (c.log.mapAt o.base) o.writes := by
  refine hs.plays.sees ho h.keeps (h.serves.oldest_le (n := n) ?_ (hs.plays.held? ho))
  rw [List.getElem?_map, hn, Option.map_some]

private theorem settled_modify (h : Isolated kv seats c) {f : Outlook → Outlook}
    (hopen : ∀ o, c.outlooks[n]? = some o → o.isOpen = false → (f o).isOpen = false) :
    ∀ commit ∈ c.log, ∃ o, (c.modify n f).outlooks[commit.client]? = some o ∧ o.isOpen = false := by
  intro commit hc
  obtain ⟨o, ho, hclosed⟩ := h.settled commit hc
  by_cases heq : n = commit.client
  · refine ⟨f o, ?_, hopen o (heq ▸ ho) hclosed⟩
    simp [Chronicle.modify, heq, ho]
  · refine ⟨o, ?_, hclosed⟩
    simp [Chronicle.modify, heq, ho]

-- What a client does with its own handle is nothing to the others.
theorem modify (h : Isolated kv seats c) (hn : seats[n]? = some seat) {after : Seat}
    {f : Outlook → Outlook} (hheld : after.handle.held? = seat.handle.held?)
    (hnumber : after.handle.number? = seat.handle.number?)
    (hreserves : ∀ id key, after.handle.Reserves id key ↔ seat.handle.Reserves id key)
    (hshows : ∀ o, c.outlooks[n]? = some o → seat.Shows c.log o →
      after.Shows c.log (f o) ∧ (f o).isOpen = o.isOpen) :
    Isolated kv (seats.set n after) (c.modify n f) where
  keeps := h.keeps
  serves := by
    rw [List.map_set]
    exact h.serves.replace (by rw [List.getElem?_map, hn, Option.map_some]) hheld hnumber hreserves
  shows := by
    refine forall₂_set_modify h.shows (fun o ho => ?_)
    obtain ⟨seat', hn', hs⟩ := forall₂_getElem? h.shows ho
    rw [hn, Option.some.injEq] at hn'
    exact (hshows o ho (hn' ▸ hs)).1
  settled := by
    refine h.settled_modify (fun o ho hclosed => ?_)
    obtain ⟨seat', hn', hs⟩ := forall₂_getElem? h.shows ho
    rw [hn, Option.some.injEq] at hn'
    rw [(hshows o ho (hn' ▸ hs)).2, hclosed]

-- A handle that opens looks at what is committed now.
theorem enter (h : Isolated kv seats c) {manager : TxnManager} {handle : Handle} {isWriter : Bool}
    {reserved : List Bytes}
    (hserves : manager.Serves (seats.map Seat.handle ++ [handle]))
    (hplays : handle.Plays ⟨isWriter, c.log.length, reserved, .empty, true, []⟩)
    (hheld : ∀ version, 0 < manager.holders version →
      0 < kv.manager.holders version ∨ c.log.length ≤ version) :
    Isolated { kv with manager := manager } (seats ++ [⟨handle, []⟩])
      (c.enter isWriter reserved) where
  keeps := h.keeps.mono
    (TxnManager.oldest_mono h.serves.tidy hserves.tidy (Nat.le_refl _) hheld)
  serves := by rw [List.map_append]; exact hserves
  shows := forall₂_concat h.shows ⟨hplays, Nat.le_refl _, fun _ => .nil⟩
  settled commit hc := by
    obtain ⟨o, ho, hclosed⟩ := h.settled commit hc
    obtain ⟨hlt, -⟩ := List.getElem?_eq_some_iff.mp ho
    exact ⟨o, by rw [Chronicle.enter, List.getElem?_append_left hlt, ho], hclosed⟩

theorem close (h : Isolated kv seats c) (hn : seats[n]? = some seat)
    {manager : TxnManager} {handle : Handle}
    (hserves : manager.Serves ((seats.map Seat.handle).set n handle))
    (hplays : ∀ o, seat.handle.Plays o → handle.Plays o.closed)
    (hheld : ∀ version, manager.holders version ≤ kv.manager.holders version) :
    Isolated { kv with manager := manager } (seats.set n ⟨handle, []⟩)
      (c.modify n Outlook.closed) where
  keeps := h.keeps.mono (TxnManager.oldest_mono h.serves.tidy hserves.tidy (Nat.le_refl _)
    (fun version hv => .inl (Nat.lt_of_lt_of_le hv (hheld version))))
  serves := by rw [List.map_set]; exact hserves
  shows := by
    refine forall₂_set_modify h.shows (fun o ho => ?_)
    obtain ⟨seat', hn', hs⟩ := forall₂_getElem? h.shows ho
    rw [hn, Option.some.injEq] at hn'
    exact ⟨hplays o (hn' ▸ hs.plays), hs.past, fun hopen => by cases hopen⟩
  settled := h.settled_modify (fun _ _ _ => rfl)

-- A client that is done may have left a new version behind. The oldest version in use decides what
-- is pruned then.
theorem push (h : Isolated kv seats c) (commit : Commit)
    (hdone : ∃ o, c.outlooks[commit.client]? = some o ∧ o.isOpen = false) :
    Isolated ⟨kv.manager.prune (kv.store.apply commit.writes.toList (kv.store.current + 1))
      commit.writes.keys, kv.manager⟩ seats ⟨c.log ++ [commit], c.outlooks⟩ where
  keeps := by
    have happly := h.keeps.apply h.oldest_le_length commit
    have holdest : kv.manager.oldest c.log.length ≤
        kv.manager.oldest (c.log ++ [commit]).length :=
      TxnManager.oldest_mono h.serves.tidy h.serves.tidy (by simp) (fun _ hv => .inl hv)
    have hkeeps := (happly.mono holdest).prune commit.writes.keys
    rw [h.keeps.current, TxnManager.prune, happly.current]
    exact hkeeps
  serves := h.serves
  shows := h.shows.imp (fun _ _ hs => hs.append commit)
  settled other hc := by
    rcases List.mem_append.mp hc with hc | hc
    · exact h.settled other hc
    · rw [List.mem_singleton.mp hc]
      exact hdone

theorem prune (h : Isolated kv seats c) (keys : List Bytes) :
    Isolated { kv with store := kv.manager.prune kv.store keys } seats c where
  keeps := by
    rw [TxnManager.prune, h.keeps.current]
    exact h.keeps.prune keys
  serves := h.serves
  shows := h.shows
  settled := h.settled

end Isolated

end DocStore
