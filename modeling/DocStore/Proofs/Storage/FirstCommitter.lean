import DocStore.Proofs.Storage.Snapshots

-- The first of two writers that commits wins, and nobody else loses.
namespace DocStore

namespace Chronicle

-- Somebody else committed a key after the writer had opened.
def Overtaken (c : Chronicle) (n : Nat) (o : Outlook) (key : Bytes) : Prop :=
  ∃ i commit, c.log[i]? = some commit ∧ o.base ≤ i ∧ commit.client ≠ n ∧
    key ∈ commit.writes.keys

-- Somebody else who is still at work has reserved a key.
def Reserved (c : Chronicle) (n : Nat) (key : Bytes) : Prop :=
  ∃ (other : Nat) (o : Outlook), other ≠ n ∧ c.outlooks[other]? = some o ∧ o.Writing ∧
    key ∈ o.reserved

def Contested (c : Chronicle) (n : Nat) (o : Outlook) (key : Bytes) : Prop :=
  c.Overtaken n o key ∨ c.Reserved n key

end Chronicle

theorem CommitLog.written?_eq_some_iff {log : CommitLog} {base : Nat} {key : Bytes} :
    (∃ version value, base < version ∧ log.written? version key = some value) ↔
      ∃ (i : Nat) (commit : Commit), log[i]? = some commit ∧ base ≤ i ∧
        key ∈ commit.writes.keys := by
  constructor
  · rintro ⟨version, value, hlt, hw⟩
    cases version with
    | zero => cases hw
    | succ i =>
        obtain ⟨commit, hi, hget⟩ := Option.bind_eq_some_iff.mp hw
        exact ⟨i, commit, hi, by omega, (SortedMap.mem_keys_iff _).mpr (by rw [hget]; rfl)⟩
  · rintro ⟨i, commit, hi, hle, hm⟩
    obtain ⟨value, hget⟩ := Option.isSome_iff_exists.mp ((SortedMap.mem_keys_iff _).mp hm)
    exact ⟨i + 1, value, by omega, by simp [written?, hi, hget]⟩

-- Although chains are pruned, the last version of a key tells whether it was written since.
theorem VersionStore.Keeps.latest?_iff {store : VersionStore} {log : CommitLog}
    {oldest base : Nat} (h : store.Keeps log oldest) (hle : oldest ≤ base) (key : Bytes) :
    (∃ version, store.latest? key = some version ∧ base < version) ↔
      ∃ version value, base < version ∧ log.written? version key = some value := by
  have htells := h.tells key
  constructor
  · rintro ⟨version, hlatest, hlt⟩
    obtain ⟨e, he, rfl⟩ := Option.map_eq_some_iff.mp hlatest
    exact ⟨e.1, e.2, hlt, htells.genuine e (List.mem_of_getLast? he)⟩
  · rintro ⟨version, value, hlt, hw⟩
    obtain ⟨e, he, hv⟩ := htells.remembers version value (Nat.lt_of_le_of_lt hle hlt) hw
    exact ⟨e.1, by rw [latest?, he, Option.map_some], Nat.lt_of_lt_of_le hlt hv⟩

namespace Txn

variable (txn : Txn) (key : Bytes)

theorem mem_writeConflicts_iff (store : VersionStore) :
    (∃ conflict ∈ txn.writeConflicts store, conflict.key = key) ↔
      key ∈ txn.writes.keys ∧
        ∃ version, store.latest? key = some version ∧ txn.start < version := by
  simp only [writeConflicts, List.mem_filterMap]
  constructor
  · rintro ⟨conflict, ⟨k, hk, hconflict⟩, rfl⟩
    split at hconflict
    · next committed hlatest =>
      split at hconflict
      · next hlt =>
        cases hconflict
        exact ⟨hk, committed, hlatest, hlt⟩
      · cases hconflict
    · cases hconflict
  · rintro ⟨hk, version, hlatest, hlt⟩
    exact ⟨.written key txn.start version, ⟨key, hk, by simp [hlatest, hlt]⟩, rfl⟩

theorem mem_intentConflicts_iff (intents : IntentTable) :
    (∃ conflict ∈ txn.intentConflicts intents, conflict.key = key) ↔
      key ∈ txn.writes.keys ∧ ∃ owner, intents.owner? key = some owner ∧ owner ≠ txn.id := by
  simp only [intentConflicts, List.mem_filterMap]
  constructor
  · rintro ⟨conflict, ⟨k, hk, hconflict⟩, rfl⟩
    split at hconflict
    · next owner howner =>
      split at hconflict
      · cases hconflict
      · next hne =>
        cases hconflict
        exact ⟨hk, owner, howner, hne⟩
    · cases hconflict
  · rintro ⟨hk, owner, howner, hne⟩
    exact ⟨.reserved key owner, ⟨key, hk, by simp [howner, hne]⟩, rfl⟩

end Txn

namespace Isolated

variable {kv : MultiVersion} {seats : List Seat} {c : Chronicle} {n : Nat} {seat : Seat}
  {o : Outlook} {txn : Txn}

-- A writer that is still at work has not committed anything.
theorem overtaken_iff (h : Isolated kv seats c) (ho : c.outlooks[n]? = some o) (hw : o.Writing)
    (key : Bytes) : c.Overtaken n o key ↔
      ∃ version value, o.base < version ∧ c.log.written? version key = some value := by
  rw [CommitLog.written?_eq_some_iff]
  constructor
  · rintro ⟨i, commit, hi, hle, -, hm⟩
    exact ⟨i, commit, hi, hle, hm⟩
  · rintro ⟨i, commit, hi, hle, hm⟩
    refine ⟨i, commit, hi, hle, ?_, hm⟩
    rintro rfl
    obtain ⟨o', ho', hclosed⟩ := h.settled commit (List.mem_of_getElem? hi)
    rw [ho, Option.some.injEq] at ho'
    rw [← ho', hw.1] at hclosed
    cases hclosed

-- The keys that a writer at work has reserved have its number in the table.
theorem owner_of_reserved (h : Isolated kv seats c) (ho : c.outlooks[n]? = some o)
    (hw : o.Writing) : ∃ seat txn, seats[n]? = some seat ∧ seat.handle = .multiWrite txn false ∧
      ∀ key ∈ o.reserved, kv.manager.intents.owner? key = some txn.id := by
  obtain ⟨seat, hn, hs⟩ := forall₂_getElem? h.shows ho
  obtain ⟨txn, hhandle, -, -, -, hintents⟩ := hs.plays.writing hw
  refine ⟨seat, txn, hn, hhandle, fun key hm =>
    (h.serves.owned _ _).mpr ⟨n, .multiWrite txn false, ?_, rfl, ?_⟩⟩
  · rw [List.getElem?_map, hn, Option.map_some, hhandle]
  · exact (hintents key).mpr hm

-- A key that is owned was reserved by a writer at work.
theorem reserved_of_owner (h : Isolated kv seats c) {key : Bytes} {owner : Nat}
    (howner : kv.manager.intents.owner? key = some owner) :
    ∃ (other : Nat) (seat : Seat) (o : Outlook), seats[other]? = some seat ∧
      seat.handle.Reserves owner key ∧ c.outlooks[other]? = some o ∧ o.Writing ∧
      key ∈ o.reserved := by
  obtain ⟨other, handle, hother, hr⟩ := (h.serves.owned _ _).mp howner
  rw [List.getElem?_map, Option.map_eq_some_iff] at hother
  obtain ⟨seat, hn, rfl⟩ := hother
  obtain ⟨o, ho, hs⟩ := forall₂_getElem?_left h.shows hn
  refine ⟨other, seat, o, hn, hr, ho, ?_⟩
  have hplays := hs.plays
  generalize seat.handle = handle at hr hplays
  match handle with
  | .multiWrite txn false =>
      obtain ⟨hwriter, -, hfinished, -, hall⟩ := hplays
      have hopen : o.isOpen = true := by simpa using hfinished
      exact ⟨⟨hopen, hwriter⟩, ((hall hopen).2 key).mp hr.2⟩

-- The owners of keys are the writers that have reserved them.
theorem reserved_iff (h : Isolated kv seats c) (hn : seats[n]? = some seat)
    (hhandle : seat.handle = .multiWrite txn false) (key : Bytes) :
    c.Reserved n key ↔ ∃ owner, kv.manager.intents.owner? key = some owner ∧ owner ≠ txn.id := by
  have hmine : (seats.map Seat.handle)[n]? = some (.multiWrite txn false) := by
    rw [List.getElem?_map, hn, Option.map_some, hhandle]
  constructor
  · rintro ⟨other, o', hne, ho', hw', hm⟩
    obtain ⟨seat', txn', hn', hhandle', howner⟩ := h.owner_of_reserved ho' hw'
    have hother : (seats.map Seat.handle)[other]? = some (.multiWrite txn' false) := by
      rw [List.getElem?_map, hn', Option.map_some, hhandle']
    refine ⟨txn'.id, howner key hm, ?_⟩
    exact fun hid => hne (h.serves.distinct other n _ _ txn.id hother hmine (congrArg some hid) rfl)
  · rintro ⟨owner, howner, hne⟩
    obtain ⟨other, seat', o', hn', hr, ho', hw', hm⟩ := h.reserved_of_owner howner
    refine ⟨other, o', ?_, ho', hw', hm⟩
    rintro rfl
    rw [hn, Option.some.injEq] at hn'
    rw [← hn', hhandle] at hr
    exact hne hr.1.symm

theorem conflicts_iff (h : Isolated kv seats c) (hn : seats[n]? = some seat)
    (ho : c.outlooks[n]? = some o) (hw : o.Writing)
    (hhandle : seat.handle = .multiWrite txn false) (hstart : txn.start = o.base)
    (hwrites : txn.writes = o.writes) (key : Bytes) :
    (∃ conflict ∈ txn.conflicts kv.store kv.manager.intents, conflict.key = key) ↔
      key ∈ o.writes.keys ∧ c.Contested n o key := by
  have hle : kv.manager.oldest c.log.length ≤ txn.start :=
    h.serves.oldest_le (n := n) (by rw [List.getElem?_map, hn, Option.map_some, hhandle]) rfl
  have hwritten : (∃ conflict ∈ txn.writeConflicts kv.store, conflict.key = key) ↔
      key ∈ o.writes.keys ∧ c.Overtaken n o key := by
    rw [txn.mem_writeConflicts_iff, h.keeps.latest?_iff hle, h.overtaken_iff ho hw, hwrites, hstart]
  have hreserved : (∃ conflict ∈ txn.intentConflicts kv.manager.intents, conflict.key = key) ↔
      key ∈ o.writes.keys ∧ c.Reserved n key := by
    rw [txn.mem_intentConflicts_iff, h.reserved_iff hn hhandle, hwrites]
  rw [Chronicle.Contested, and_or_left, ← hwritten, ← hreserved]
  simp only [Txn.conflicts, List.mem_append, or_and_right, exists_or]

theorem commit_answer (h : Isolated kv seats c) (ho : c.outlooks[n]? = some o) (hw : o.Writing) :
    ((Session.exec ⟨.multi kv, seats⟩ (.commit n .go)).1 = .done (.ok ()) ∧
        ∀ key ∈ o.writes.keys, ¬c.Contested n o key) ∨
      ∃ key ∈ o.writes.keys, c.Contested n o key ∧
        (Session.exec ⟨.multi kv, seats⟩ (.commit n .go)).1 =
          .done (.error (.writeConflict key)) := by
  have hgo : Signal.go.check = .ok () := rfl
  obtain ⟨seat, hn, hs⟩ := forall₂_getElem? h.shows ho
  obtain ⟨txn, hhandle, hstart, hactive, hwrites, -⟩ := hs.plays.writing hw
  have hconflicts := h.conflicts_iff hn ho hw hhandle hstart hwrites
  cases hc : txn.conflicts kv.store kv.manager.intents with
  | nil =>
      obtain ⟨ended, -, hcommit⟩ := Kv.commit_of_clear hactive hgo hc
      refine .inl ⟨by simp only [Session.exec, hn, hhandle, hcommit], fun key hk hcontested => ?_⟩
      obtain ⟨conflict, hm, -⟩ := (hconflicts key).mpr ⟨hk, hcontested⟩
      simp [hc] at hm
  | cons conflict rest =>
      obtain ⟨ended, -, hcommit⟩ := Kv.commit_of_conflict hactive hgo hc
      obtain ⟨hk, hcontested⟩ := (hconflicts conflict.key).mp ⟨conflict, by simp [hc], rfl⟩
      exact .inr ⟨conflict.key, hk, hcontested, by simp only [Session.exec, hn, hhandle, hcommit]⟩

-- A context that is over decides what a commit is answered.
theorem commit_over (h : Isolated kv seats c) (ho : c.outlooks[n]? = some o) (hw : o.Writing)
    {signal : Signal} {e : Error} (hsignal : signal.check = .error e) :
    (Session.exec ⟨.multi kv, seats⟩ (.commit n signal)).1 = .done (.error e) := by
  obtain ⟨seat, hn, hs⟩ := forall₂_getElem? h.shows ho
  obtain ⟨txn, hhandle, -⟩ := hs.plays.writing hw
  obtain ⟨ended, -, hcommit⟩ := Kv.commit_of_over kv txn hsignal
  simp only [Session.exec, hn, hhandle, hcommit]

-- Who is told to have committed was not in anybody's way.
theorem uncontested_of_commit (h : Isolated kv seats c) (ho : c.outlooks[n]? = some o)
    (hw : o.Writing) {signal : Signal}
    (hok : (Session.exec ⟨.multi kv, seats⟩ (.commit n signal)).1 = .done (.ok ())) :
    ∀ key ∈ o.writes.keys, ¬c.Contested n o key := by
  have hlive (e : Error) (hsignal : signal.check = .error e) : False := by
    rw [h.commit_over ho hw hsignal] at hok
    cases hok
  cases signal with
  | go =>
      rcases h.commit_answer ho hw with ⟨-, hnone⟩ | ⟨key, -, -, hfailed⟩
      · exact hnone
      · rw [hfailed] at hok
        cases hok
  | cancelled => exact (hlive .cancelled rfl).elim
  | expired => exact (hlive .deadlineExceeded rfl).elim

end Isolated

-- A writer with a live context commits exactly if nobody else has committed one of its keys since
-- it opened, or has one of them reserved. Otherwise such a key is reported, and nothing changes.
theorem Course.commit_ok_iff (calls : List Call) (n : Nat) (o : Outlook)
    (ho : (run .mvcc calls).chronicle.outlooks[n]? = some o) (hw : o.Writing) :
    let c := run .mvcc calls
    let answer := (c.session.exec (.commit n .go)).1
    (answer = .done (.ok ()) ↔ ∀ key ∈ o.writes.keys, ¬c.chronicle.Contested n o key) ∧
      (answer ≠ .done (.ok ()) →
        (∃ key ∈ o.writes.keys, c.chronicle.Contested n o key ∧
          answer = .done (.error (.writeConflict key))) ∧
        (c.step (.commit n .go)).session.kv.committed = c.session.kv.committed) := by
  have hbefore := (isolated_run calls).committed
  have hafter := ((isolated_run calls).step (.commit n .go)).committed
  obtain ⟨kv, hkv, h⟩ := isolated_run calls
  generalize run .mvcc calls = c at ho hkv h hafter hbefore ⊢
  obtain ⟨⟨_, seats⟩, chronicle⟩ := c
  obtain rfl := hkv
  rcases h.commit_answer ho hw with ⟨hanswer, hnone⟩ | ⟨key, hk, hcontested, hanswer⟩
  · exact ⟨iff_of_true hanswer hnone, fun hne => absurd hanswer hne⟩
  · refine ⟨iff_of_false ?_ (fun hnone => hnone key hk hcontested), fun _ => ⟨⟨key, hk, hcontested,
      hanswer⟩, ?_⟩⟩
    · rw [hanswer]
      intro heq
      cases heq
    · rw [hafter, hbefore]
      simp [step, hanswer, Chronicle.record, Chronicle.committed?]

-- A key is deleted while a writer is at work that is to write it.
def Course.deletion : List Call :=
  [.write .go .cancelled, .buffer 0 [7] (some [1]), .commit 0 .go,
    .write .go .cancelled, .buffer 1 [7] (some [2]),
    .write .go .cancelled, .buffer 2 [7] none, .commit 2 .go]

theorem Course.commit_of_deletion :
    ((run .mvcc deletion).session.exec (.commit 1 .go)).1 =
      .done (.error (.writeConflict [7])) := by
  let o : Outlook := ⟨true, 1, [], SortedMap.empty.insert [7] (some [2]), true, []⟩
  have ho : (run .mvcc deletion).chronicle.outlooks[1]? = some o := by rfl
  obtain ⟨hiff, hfailed⟩ := commit_ok_iff deletion 1 o ho ⟨rfl, rfl⟩
  have hlog : (run .mvcc deletion).chronicle.log[1]? =
      some ⟨2, SortedMap.empty.insert [7] none⟩ := by rfl
  have hcontested : (run .mvcc deletion).chronicle.Contested 1 o [7] :=
    .inl ⟨1, _, hlog, by decide, by decide, by decide⟩
  obtain ⟨⟨key, hk, -, hanswer⟩, -⟩ :=
    hfailed (fun hok => hiff.mp hok [7] (by decide) hcontested)
  have hkey : key = [7] := List.mem_singleton.mp hk
  rw [hanswer, hkey]

end DocStore
