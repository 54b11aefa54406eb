import DocStore.Proofs.Storage.Exclusion
import DocStore.Proofs.Storage.FirstCommitter
import DocStore.Proofs.Storage.Listing

-- What writers of either kind of store may rely on.
namespace DocStore

-- What a reader finds that opens now.
def Kv.now (kv : Kv) : View := kv.read.2.view kv.read.1 .go

structure Course.Faithful (c : Course) : Prop where
  aligned : c.session.seats.length = c.chronicle.outlooks.length
  committed : c.session.kv.committed = c.chronicle.log.current.toList
  reads : c.session.kv.read.2.Sees c.session.kv.read.1 c.chronicle.log.current SortedMap.empty
  past : ∀ (n : Nat) o, c.chronicle.outlooks[n]? = some o → o.Writing →
    o.base ≤ c.chronicle.log.length
  -- a writer sees what was committed when it opened, under its own writes
  sees : ∀ (n : Nat) o, c.chronicle.outlooks[n]? = some o → o.Writing →
    ∃ seat, c.session.seats[n]? = some seat ∧
      c.session.kv.Sees seat.handle (c.chronicle.log.mapAt o.base) o.writes
  -- what it commits nobody has written since it opened
  untouched : ∀ (n : Nat) o signal, c.chronicle.outlooks[n]? = some o → o.Writing →
    (c.session.exec (.commit n signal)).1 = .done (.ok ()) → ∀ key ∈ o.writes.keys,
      ∀ later, o.base < later → c.chronicle.log.written? later key = none

theorem Course.Faithful.now {c : Course} (h : c.Faithful) (key : Bytes) :
    c.session.kv.now.get key = .ok (c.chronicle.log.current.get? key) := by
  rw [Kv.now, Kv.view]
  exact h.reads.get .go key

theorem Isolated.untouched {kv : MultiVersion} {seats : List Seat} {c : Chronicle} {n : Nat}
    {o : Outlook} {signal : Signal} (h : Isolated kv seats c) (ho : c.outlooks[n]? = some o)
    (hw : o.Writing)
    (hok : (Session.exec ⟨.multi kv, seats⟩ (.commit n signal)).1 = .done (.ok ())) :
    ∀ key ∈ o.writes.keys, ∀ later, o.base < later → c.log.written? later key = none := by
  intro key hk later hlater
  by_contra hne
  obtain ⟨value, hv⟩ := Option.ne_none_iff_exists'.mp hne
  exact h.uncontested_of_commit ho hw hok key hk
    (.inl ((h.overtaken_iff ho hw key).mpr ⟨later, value, hlater, hv⟩))

theorem Course.Isolated.faithful {c : Course} (h : c.Isolated) : c.Faithful := by
  have hcommitted := h.committed
  obtain ⟨⟨_, seats⟩, chronicle⟩ := c
  obtain ⟨kv, rfl, h⟩ := h
  exact {
    aligned := h.shows.length_eq
    committed := hcommitted
    reads := by
      refine ⟨rfl, rfl, fun key => ?_, fun range limit => ?_⟩
      · rw [CommitLog.current, ← h.keeps.getAt? key h.oldest_le_length, ← h.keeps.current]
        rfl
      · rw [CommitLog.current, ← h.keeps.scanAt range limit h.oldest_le_length, ← h.keeps.current]
        rfl
    past := fun n o ho _ => by
      obtain ⟨seat, -, hs⟩ := forall₂_getElem? h.shows ho
      exact hs.past
    sees := fun n o ho hw => by
      obtain ⟨seat, hn, hs⟩ := forall₂_getElem? h.shows ho
      exact ⟨seat, hn, h.sees hn hs hw.1⟩
    untouched := fun n o signal ho hw hok => h.untouched ho hw hok }

theorem Course.Exclusive.faithful {c : Course} (h : c.Exclusive) : c.Faithful := by
  obtain ⟨⟨_, seats⟩, chronicle⟩ := c
  obtain ⟨kv, rfl, h⟩ := h
  have hbase : ∀ (n : Nat) o, chronicle.outlooks[n]? = some o → o.Writing →
      o.base = chronicle.log.length := by
    intro n o ho hw
    obtain ⟨seat, -, hs⟩ := forall₂_getElem? h.stands ho
    exact (hs.writing hw).2
  exact {
    aligned := h.stands.length_eq
    committed := by rw [← h.data]; rfl
    reads := by
      rw [← h.data]
      exact ⟨rfl, rfl, fun _ => rfl, fun _ _ => rfl⟩
    past := fun n o ho hw => Nat.le_of_eq (hbase n o ho hw)
    sees := fun n o ho hw => h.sees ho hw
    untouched := fun n o signal ho hw _ key _ later hlater => by
      rw [hbase n o ho hw] at hlater
      exact CommitLog.written?_of_length_lt hlater }

theorem Course.faithful_run (kind : BackendKind) (calls : List Call) :
    (run kind calls).Faithful := by
  cases kind with
  | mvcc => exact (isolated_run calls).faithful
  | embedded => exact (exclusive_run calls).faithful

end DocStore
