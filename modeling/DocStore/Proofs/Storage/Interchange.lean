import DocStore.Proofs.Storage.Embedding
import DocStore.Proofs.Storage.Mirroring

-- Stores of either kind are interchangeable for clients who take turns.
namespace DocStore

-- What is found through a handle as long as the context is live: single keys, several keys at once,
-- and whole ranges.
structure Kv.Finds (kv : Kv) (h : Handle) (map : SortedMap Bytes Bytes) : Prop where
  get : ∀ key, kv.get h .go key = .ok (map.get? key)
  batch : ∀ keys : List Bytes, keys.mapM (kv.get h .go) = .ok (keys.map map.get?)
  entries : ∀ range, kv.entries h .go range = (range.select map).map .ok

theorem Kv.Sees.finds {kv : Kv} {h : Handle} {below : SortedMap Bytes Bytes}
    {writes : SortedMap Bytes (Option Bytes)} (hs : kv.Sees h below writes) :
    kv.Finds h (below.setAll writes.toList) := by
  have hget (key : Bytes) : kv.get h .go key = .ok ((below.setAll writes.toList).get? key) :=
    hs.get .go key
  refine ⟨hget, fun keys => ?_, fun range => ?_⟩
  · rw [show kv.get h .go = fun key => .ok ((below.setAll writes.toList).get? key) from funext hget]
    exact List.mapM_pure
  · rcases hs.entries .go range with hall | ⟨e, hover, -⟩
    · exact hall
    · cases hover

namespace Plain

variable {p : Plain} {n : Nat} {c : Client}

-- A session with clients who take turns.
structure Agrees (p : Plain) (kind : BackendKind) (s : Session) : Prop where
  committed : s.kv.committed = p.map.toList
  -- whatever clients are answered, a plain map answers
  answers : ∀ call, p.Permits call → p.Timely call → (s.exec call).1 = (p.exec call).1
  finds : ∀ (n : Nat) c, p.clients[n]? = some c → c.isOpen = true → c.Timely p →
    ∃ seat, s.seats[n]? = some seat ∧ s.kv.Finds seat.handle (c.seen p.map)
  -- a reader that the map was written to since it was opened goes on with an old version, or not
  outlived : ∀ (n : Nat) c, p.clients[n]? = some c → c.isOpen = true → ¬c.Timely p →
    ∃ seat, s.seats[n]? = some seat ∧ s.kv.Finds seat.handle (match kind with
      | .mvcc => c.opened
      | .embedded => p.map)

-- A reader has nothing of its own.
theorem Client.Orderly.seen_eq (h : c.Orderly p) (hreader : ¬c.Timely p)
    (map : SortedMap Bytes Bytes) : c.seen map = map := by
  have hwriter : c.isWriter = false := by
    by_contra hne
    exact hreader (.inl (by simpa using hne))
  rw [Client.seen, h.readers hwriter, SortedMap.setAll_empty]

theorem Embeds.agrees {s : Session} (h : p.Embeds s) (hp : p.Orderly) :
    p.Agrees .embedded s := by
  have hfinds (n : Nat) (c : Client) (hc : p.clients[n]? = some c) (hopen : c.isOpen = true) :
      ∃ seat, s.seats[n]? = some seat ∧ s.kv.Finds seat.handle (c.seen p.map) := by
    obtain ⟨busy, hkv, -⟩ := h.kv
    obtain ⟨seat, hn, hsits⟩ := forall₂_getElem? h.seats hc
    refine ⟨seat, hn, ?_⟩
    rw [hkv, hsits.handle]
    exact ((hp.clients n c hc).single_sees hopen busy).finds
  refine ⟨?_, fun call hcall => (h.step hp hcall).1, fun n c hc hopen _ => hfinds n c hc hopen, ?_⟩
  · obtain ⟨busy, hkv, -⟩ := h.kv
    rw [hkv]
    rfl
  · intro n c hc hopen hlate
    have houtlived := hfinds n c hc hopen
    rwa [(hp.clients n c hc).seen_eq hlate] at houtlived

theorem Mirrors.agrees {course : Course} (h : p.Mirrors course.chronicle) (hp : p.Orderly)
    (hi : course.Isolated) : p.Agrees .mvcc course.session := by
  have hcommitted := hi.committed
  obtain ⟨⟨⟨_, seats⟩, chronicle⟩, ⟨kv, rfl, hi⟩⟩ := course, hi
  have hfinds (n : Nat) (c : Client) (hc : p.clients[n]? = some c) (hopen : c.isOpen = true) :
      ∃ seat, seats[n]? = some seat ∧ (Kv.multi kv).Finds seat.handle (c.seen c.opened) := by
    obtain ⟨o, ho, hmirrors⟩ := forall₂_getElem?_left h.clients hc
    obtain ⟨seat, hn, hshows⟩ := forall₂_getElem? hi.shows ho
    have hsees := hi.sees hn hshows (hmirrors.isOpen.trans hopen)
    rw [hmirrors.base, hmirrors.opened, hmirrors.writes hopen] at hsees
    exact ⟨seat, hn, hsees.finds⟩
  refine ⟨?_, fun call hcall htimely => h.answer hp hi hcall htimely, ?_, ?_⟩
  · rw [hcommitted, ← h.map]
  · intro n c hc hopen htimely
    have horderly := hp.clients n c hc
    rw [← horderly.current (horderly.version_eq hopen htimely)]
    exact hfinds n c hc hopen
  · intro n c hc hopen hlate
    have houtlived := hfinds n c hc hopen
    rwa [(hp.clients n c hc).seen_eq hlate] at houtlived

-- After any transactions that were executed one after the other, a store of either kind answers
-- what a plain map answers that the transactions were written to. The kinds differ for a reader
-- that has been outlived by one of them.
theorem agrees_of_serial {calls : List Call} (h : Serial calls) (kind : BackendKind) :
    (run calls).Agrees kind (Course.run kind calls).session := by
  cases kind with
  | mvcc => exact h.mirrors.agrees h.orderly (Course.isolated_run calls)
  | embedded => exact h.embeds.agrees h.orderly

-- A reader is outlived by a transaction.
def outlived : List Call :=
  [.read, .write .go .cancelled, .buffer 1 [7] (some [1]), .commit 1 .go]

theorem answers_of_outlived :
    Serial outlived ∧ (run outlived).Permits (.get 0 .go [7]) ∧
      ((Course.run .mvcc outlived).session.exec (.get 0 .go [7])).1 = .found (.ok none) ∧
      ((Course.run .embedded outlived).session.exec (.get 0 .go [7])).1 =
        .found (.ok (some [1])) ∧
      ((run outlived).exec (.get 0 .go [7])).1 = .found (.ok (some [1])) := by
  have h := Serial.call .start .read
  have h := h.call (.write .cancelled (by decide))
  have h := h.call (.buffer 1 [7] (some [1]) _ rfl ⟨rfl, rfl⟩)
  have h := h.call (.commit 1 _ rfl ⟨rfl, rfl⟩)
  exact ⟨h, .get 0 [7] _ rfl rfl, rfl, rfl, rfl⟩

-- A key is deleted and comes back, and a reader is opened in between.
def recreation : List Call :=
  [.write .go .cancelled, .buffer 0 [1] (some [5]), .buffer 0 [2] (some [6]), .commit 0 .go,
    .writeExclusive .go .cancelled [[1]], .buffer 1 [1] none, .commit 1 .go,
    .read, .write .go .cancelled, .buffer 3 [1] (some [7])]

theorem serial_recreation : Serial recreation := by
  have h := Serial.call .start (.write .cancelled (by decide))
  have h := h.call (.buffer 0 [1] (some [5]) _ rfl ⟨rfl, rfl⟩)
  have h := h.call (.buffer 0 [2] (some [6]) _ rfl ⟨rfl, rfl⟩)
  have h := h.call (.commit 0 _ rfl ⟨rfl, rfl⟩)
  have h := h.call (.writeExclusive .cancelled [[1]] (by decide))
  have h := h.call (.buffer 1 [1] none _ rfl ⟨rfl, rfl⟩)
  have h := h.call (.commit 1 _ rfl ⟨rfl, rfl⟩)
  have h := h.call .read
  have h := h.call (.write .cancelled (by decide))
  have h := h.call (.buffer 3 [1] (some [7]) _ rfl ⟨rfl, rfl⟩)
  exact h

theorem agrees_of_recreation :
    Serial recreation ∧
      (∀ kind, ∃ seat, (Course.run kind recreation).session.seats[3]? = some seat ∧
        (Course.run kind recreation).session.kv.entries seat.handle .go ⟨[], []⟩ =
          [.ok ([1], [7]), .ok ([2], [6])]) ∧
      ∀ kind,
        ((Course.run kind recreation).session.exec (.get 2 .go [1])).1 = .found (.ok none) := by
  refine ⟨serial_recreation, fun kind => ?_, fun kind => ?_⟩
  · obtain ⟨seat, hseat, hfinds⟩ :=
      (agrees_of_serial serial_recreation kind).finds 3 _ rfl rfl (.inl rfl)
    exact ⟨seat, hseat, hfinds.entries ⟨[], []⟩⟩
  · exact (agrees_of_serial serial_recreation kind).answers (.get 2 .go [1])
      (.get 2 [1] _ rfl rfl) ((timely_iff rfl rfl).mpr (.inr rfl))

end Plain

end DocStore
