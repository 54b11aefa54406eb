import Mathlib
import DocStore.Proofs.Store.Documents

namespace DocStore

-- A view that tells what is in a map tells the stored documents.
theorem Store.stored?_congr {view : View} {map : SortedMap Bytes Bytes}
    (h : ∀ key, view.get key = .ok (map.get? key)) (model id : String) :
    stored? model id view = stored? model id (View.ofMap map) := by
  have hget : (View.ofMap map).get = fun key => .ok (map.get? key) := rfl
  simp only [stored?, h, hget]

namespace Office

-- The keys that are committed.
def keys (x : Office) : List Bytes := x.course.session.kv.committed.map (·.1)

-- The document that a reader finds that opens now.
def stored? (x : Office) (model id : String) : Except Error (Option Document) :=
  Store.stored? model id x.course.session.kv.now

variable {kind : BackendKind} {x : Office}

theorem Sound.mem_keys_iff (h : x.Sound kind) (key : Bytes) :
    key ∈ x.keys ↔ (x.current.get? key).isSome := by
  rw [keys, h.faithful.committed]
  exact x.current.mem_keys_iff

theorem Sound.stored?_eq (h : x.Sound kind) (model id : String) :
    x.stored? model id = Store.stored? model id (View.ofMap x.current) :=
  Store.stored?_congr h.faithful.now model id

-- Whatever the writers of a store do, and in whatever order, the stored documents can be read, and
-- the index holds their entries and no others. It is provided that the records which were written
-- can be read.
theorem index_consistent (kind : BackendKind) (events : List Event)
    (hread : ∀ e ∈ (run kind events).log, e.Readable) :
    (∀ model id, ∃ old, (run kind events).stored? model id = .ok old) ∧
    ∀ key, (key ∈ (run kind events).keys ∧ key.head? = some Key.entryTag) ↔
      ∃ model id doc, (run kind events).stored? model id = .ok (some doc) ∧
        ∃ e ∈ IndexEntry.ofBody doc.val, key = Key.entry model e.path e.encoded id := by
  have hsound := sound_run kind events
  have hplaced := placed_of_recorded hsound.recorded hread
  have hindexed := indexed_of_recorded hsound.recorded hread
  simp only [hsound.mem_keys_iff, hsound.stored?_eq]
  -- a stored document is known by the names in the keys of its entries
  have hplace : ∀ {model id : String} {doc : Document},
      Store.stored? model id (View.ofMap (run kind events).current) = .ok (some doc) →
        doc.model = model ∧ doc.id = id := by
    intro model id doc hdoc
    obtain ⟨_, hold, hall⟩ := hplaced model id
    rw [hdoc, Except.ok.injEq] at hold
    exact hall doc hold.symm
  refine ⟨fun model id => ?_, fun key => ⟨?_, ?_⟩⟩
  · obtain ⟨old, hold, -⟩ := hplaced model id
    exact ⟨old, hold⟩
  · rintro ⟨hkey, htag⟩
    obtain ⟨model, id, doc, hdoc, hm⟩ := (hindexed key htag).mp hkey
    obtain ⟨e, he, heq⟩ := List.mem_map.mp hm
    obtain ⟨rfl, rfl⟩ := hplace hdoc
    exact ⟨_, _, doc, hdoc, e, he, heq.symm⟩
  · rintro ⟨model, id, doc, hdoc, e, he, rfl⟩
    obtain ⟨rfl, rfl⟩ := hplace hdoc
    have htag := Key.head?_entry doc.model e.path e.encoded doc.id
    exact ⟨(hindexed _ htag).mpr ⟨_, _, doc, hdoc, List.mem_map_of_mem he⟩, htag⟩

-- Somebody counts in a document.
def count : Job :=
  .put .messagePack Context.background (Model.bare "m")
    { Document.ofBody "m" "a" .null with mutations := some [("n", .object [("add", .int 1)])] }

def counted (n : Nat) : Document :=
  ⟨"a", "m", some n, some ⟨⟨0, 0⟩, ⟨0, 0⟩⟩, .object [("n", .int (Int64.ofNat n))], none, none⟩

-- When one has counted, two more do so at once. One of them is too late.
def race : List Event :=
  let take : Event := .take count .go .cancelled
  let work (n : Nat) : List Event := List.replicate 12 (.work n .go (.ok none) ⟨0, 0⟩)
  take :: work 0 ++ [.commit 0 .go, take, take] ++ work 1 ++ work 2 ++
    [.commit 1 .go, .commit 2 .go]

theorem log_race : (run .mvcc race).log =
    [⟨count, some (some (counted 1)), ⟨none, some (counted 1)⟩⟩,
      ⟨count, some (some (counted 2)), ⟨some (counted 1), some (counted 2)⟩⟩] := by
  cbv

theorem decode_counted (n : Nat) (hn : n = 1 ∨ n = 2) :
    Record.decode (count.record (counted n)) = .ok (counted n) := by
  rcases hn with rfl | rfl <;> cbv

theorem readable_race : ∀ e ∈ (run .mvcc race).log, e.Readable := by
  rw [log_race]
  intro e he d hd
  simp only [List.mem_cons, List.not_mem_nil, or_false] at he
  rcases he with rfl | rfl
  · obtain rfl : counted 1 = d := Option.some.inj hd
    exact decode_counted 1 (.inl rfl)
  · obtain rfl : counted 2 = d := Option.some.inj hd
    exact decode_counted 2 (.inr rfl)

theorem stored?_race : (run .mvcc race).stored? "m" "a" = .ok (some (counted 2)) := by
  have hsound := sound_run .mvcc race
  have hrecorded := hsound.recorded
  have hread := readable_race
  rw [log_race] at hrecorded hread
  have hlast := hrecorded.stored?_last rfl (hread _ (List.mem_cons_of_mem _ List.mem_cons_self))
  rw [hsound.stored?_eq]
  exact hlast

-- The index holds the second count, and the first one no more.
theorem index_consistent_of_race :
    Key.entry "m" "val.n" [0, 0, 0, 0, 0, 0, 0, 64] "a" ∈ (run .mvcc race).keys ∧
      Key.entry "m" "val.n" [0, 0, 0, 0, 0, 0, 240, 63] "a" ∉ (run .mvcc race).keys := by
  obtain ⟨-, hkeys⟩ := index_consistent .mvcc race readable_race
  have hentries : IndexEntry.ofBody (counted 2).val =
      [⟨"val.n", [0, 0, 0, 0, 0, 0, 0, 64], .number⟩] := by cbv
  constructor
  · refine ((hkeys _).mpr ⟨"m", "a", counted 2, stored?_race, ?_⟩).1
    rw [hentries]
    exact ⟨_, List.mem_singleton_self _, rfl⟩
  · intro hkey
    obtain ⟨model, id, doc, hdoc, e, he, heq⟩ := (hkeys _).mp ⟨hkey, Key.head?_entry ..⟩
    obtain ⟨rfl, -, hencoded, rfl⟩ := Key.entry_inj.mp heq
    obtain rfl : counted 2 = doc := by simpa [stored?_race] using hdoc
    rw [hentries, List.mem_singleton] at he
    subst he
    revert hencoded
    decide

end Office

end DocStore
