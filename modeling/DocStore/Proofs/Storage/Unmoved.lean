import DocStore.Proofs.Storage.Faithful

-- What is left of handles that have come and gone without a commit.
namespace DocStore

namespace TxnManager

variable {m after later : TxnManager}

theorem intents_letGo (m : TxnManager) (version : Nat) : (m.letGo version).intents = m.intents := by
  unfold letGo
  split
  · rfl
  · split <;> rfl

theorem nextId_letGo (m : TxnManager) (version : Nat) : (m.letGo version).nextId = m.nextId := by
  unfold letGo
  split
  · rfl
  · split <;> rfl

-- A version that was held once more is let go once more.
theorem readers_letGo (h : m.Tidy) {version : Nat}
    (hheld : after.readers = (m.hold version).readers) :
    (after.letGo version).readers = m.readers := by
  refine SortedMap.ext_get? (fun other => ?_)
  have hcounted : (m.hold version).readers.get? version =
      some ((m.readers.get? version).getD 0 + 1) := by
    simp [hold, SortedMap.get?_insert]
  simp only [letGo, hheld, hcounted]
  cases hcount : m.readers.get? version with
  | none =>
      simp only [Option.getD_none, Nat.zero_add, Nat.le_refl, ite_true, SortedMap.get?_erase, hold,
        SortedMap.get?_insert]
      split
      · next heq => rw [← heq, hcount]
      · rfl
  | some count =>
      have hpos : count ≠ 0 := fun hzero => h version (hzero ▸ hcount)
      have hmore : ¬count + 1 ≤ 1 := by omega
      simp only [Option.getD_some, hmore, ite_false, SortedMap.get?_insert, hold,
        Nat.add_sub_cancel]
      split
      · next heq => rw [← heq, hcount]
      · rfl

-- The versions that are held are listed, and the keys that are reserved belong to transactions that
-- had their turn.
structure Orderly (m : TxnManager) : Prop where
  tidy : m.Tidy
  earlier : ∀ key id, m.intents.owner? key = some id → id < m.nextId

theorem Serves.orderly {handles : List Handle} (h : m.Serves handles) : m.Orderly where
  tidy := h.tidy
  earlier key id howner := by
    obtain ⟨i, handle, hi, hr⟩ := (h.owned id key).mp howner
    exact h.numbered i handle id hi hr.number

theorem Orderly.fresh (h : m.Orderly) (key : Bytes) : m.intents.owner? key ≠ some m.nextId :=
  fun howner => Nat.lt_irrefl _ (h.earlier key _ howner)

-- All that is left of some transactions is that their numbers are used up.
structure Unmoved (m after : TxnManager) : Prop where
  readers : after.readers = m.readers
  intents : after.intents = m.intents
  numbers : m.nextId ≤ after.nextId

theorem Unmoved.refl (m : TxnManager) : m.Unmoved m := ⟨rfl, rfl, Nat.le_refl _⟩

theorem Unmoved.trans (h : m.Unmoved after) (h' : after.Unmoved later) : m.Unmoved later :=
  ⟨h'.readers.trans h.readers, h'.intents.trans h.intents, Nat.le_trans h.numbers h'.numbers⟩

theorem Unmoved.orderly (h : m.Unmoved after) (hm : m.Orderly) : after.Orderly where
  tidy version := by
    rw [h.readers]
    exact hm.tidy version
  earlier key id howner := by
    rw [h.intents] at howner
    exact Nat.lt_of_lt_of_le (hm.earlier key id howner) h.numbers

theorem Orderly.hold_letGo (h : m.Orderly) (version : Nat) :
    m.Unmoved ((m.hold version).letGo version) where
  readers := readers_letGo h.tidy rfl
  intents := intents_letGo _ version
  numbers := Nat.le_of_eq (nextId_letGo (m.hold version) version).symm

-- A transaction that ends gives back what it took when it began.
theorem Orderly.finish_begin (h : m.Orderly) (store : VersionStore) :
    m.Unmoved ((m.begin store).2.finish (m.begin store).1).2 where
  readers := readers_letGo h.tidy rfl
  intents := by
    simp only [finish, begin, intents_letGo]
    rfl
  numbers := by
    simp only [finish, begin, nextId_letGo]
    exact Nat.le_succ _

theorem Orderly.finish_beginExclusive (h : m.Orderly) {store : VersionStore} {signal : Signal}
    {stop : Error} {keys : List Bytes} {txn : Txn}
    (hbegin : m.beginExclusive store signal stop keys = (.ok txn, after)) :
    m.Unmoved (after.finish txn).2 := by
  unfold beginExclusive at hbegin
  split at hbegin
  · cases hbegin
  · split at hbegin
    · next taken intents hacquire =>
      cases hbegin
      obtain ⟨htaken, hfree, howner⟩ := IntentTable.acquire_granted h.fresh hacquire
      refine ⟨readers_letGo h.tidy rfl, ?_, ?_⟩
      · simp only [finish, intents_letGo]
        refine congrArg IntentTable.mk (SortedMap.ext_get? (fun key => ?_))
        have hreleased := intents.owner?_release m.nextId taken key
        simp only [howner, htaken] at hreleased
        refine hreleased.trans ?_
        by_cases hkey : key ∈ keys
        · simp only [hkey, ite_true, and_self]
          exact (hfree key hkey).symm
        · simp only [hkey, ite_false, false_and]
          rfl
      · simp only [finish, nextId_letGo]
        exact Nat.le_succ _
    · cases hbegin

-- A transaction that has waited in vain has taken nothing.
theorem Orderly.beginExclusive_failed (h : m.Orderly) {store : VersionStore} {signal : Signal}
    {stop e : Error} {keys : List Bytes}
    (hbegin : m.beginExclusive store signal stop keys = (.error e, after)) : m.Unmoved after := by
  unfold beginExclusive at hbegin
  split at hbegin
  · cases hbegin
    exact .refl m
  · split at hbegin
    · cases hbegin
    · next hacquire =>
      cases hbegin
      refine ⟨rfl, congrArg IntentTable.mk (SortedMap.ext_get? (fun key => ?_)), Nat.le_succ _⟩
      exact IntentTable.acquire_waiting h.fresh hacquire key

end TxnManager

namespace Kv

variable {kv kv' later : Kv} {h h' : Handle} {signal : Signal} {stop e : Error}

-- The storage after any clients have been at it, each doing one step after the other.
def Reached (kv : Kv) : Prop := ∃ kind calls, kv = (Course.run kind calls).session.kv

def Orderly : Kv → Prop
  | .multi kv => kv.manager.Orderly
  | .single _ => True

theorem Reached.orderly (h : kv.Reached) : kv.Orderly := by
  obtain ⟨kind, calls, rfl⟩ := h
  cases kind with
  | mvcc =>
      obtain ⟨m, hkv, hisolated⟩ := Course.isolated_run calls
      rw [hkv]
      exact hisolated.serves.orderly
  | embedded =>
      obtain ⟨s, hkv, -⟩ := Course.exclusive_run calls
      rw [hkv]
      trivial

-- Nothing was committed, and whatever was taken has been given back: versions, reserved keys, and
-- the right to write.
def Unmoved : Kv → Kv → Prop
  | .multi kv, .multi after => after.store = kv.store ∧ kv.manager.Unmoved after.manager
  | .single kv, .single after => after = kv
  | _, _ => False

theorem Unmoved.refl (kv : Kv) : kv.Unmoved kv := by
  cases kv with
  | multi kv => exact ⟨rfl, .refl _⟩
  | single kv => exact rfl

theorem Unmoved.trans (h : kv.Unmoved kv') (h' : kv'.Unmoved later) : kv.Unmoved later := by
  match kv, kv', later with
  | .multi _, .multi _, .multi _ => exact ⟨h'.1.trans h.1, h.2.trans h'.2⟩
  | .single _, .single _, .single _ => exact Eq.trans h' h

theorem Unmoved.orderly (h : kv.Unmoved kv') (hkv : kv.Orderly) : kv'.Orderly := by
  match kv, kv' with
  | .multi _, .multi _ => exact h.2.orderly hkv
  | .single _, .single _ => trivial

theorem Unmoved.now_eq (h : kv.Unmoved kv') : kv'.now = kv.now := by
  match kv, kv' with
  | .multi ⟨store, manager⟩, .multi ⟨store', manager'⟩ =>
      obtain rfl : store' = store := h.1
      rfl
  | .single _, .single _ => exact congrArg (fun kv => now (.single kv)) h

theorem Orderly.read_close (h : kv.Orderly) : kv.Unmoved (kv.read.2.close kv.read.1).2 := by
  cases kv with
  | multi kv => exact ⟨rfl, TxnManager.Orderly.hold_letGo h kv.store.current⟩
  | single kv => exact rfl

-- A writer has opened on what is committed, and has nothing of its own yet.
inductive Opened : Kv → Handle → Kv → Prop where
  | multi {m m' : MultiVersion} {txn : Txn} : m'.store = m.store → txn.start = m.store.current →
    txn.writes = SortedMap.empty → Opened (.multi m) (.multiWrite txn false) (.multi m')
  | single {data : SortedMap Bytes Bytes} : Opened (.single ⟨data, false⟩)
    (.singleWrite SortedMap.empty true) (.single ⟨data, true⟩)

theorem Opened.blank (ho : Opened kv h kv') : bufferedWrites h = SortedMap.empty := by
  cases ho with
  | multi _ _ hwrites => exact hwrites
  | single => rfl

theorem Opened.sees (ho : Opened kv h kv') (signal : Signal) (key : Bytes) (value : Option Bytes)
    (hget : kv'.get h signal key = .ok value) : kv.now.get key = .ok value := by
  cases ho with
  | @multi m m' txn hstore hstart hwrites =>
      have hnow : (Kv.multi m).now.get key = .ok (m.store.getAt? key m.store.current) := rfl
      simp only [get, bind, Except.bind, pure, Except.pure, buffered?, Txn.buffered?, hwrites,
        SortedMap.get?_empty, below?, hstore, hstart] at hget
      split at hget
      · cases hget
      · split at hget
        · cases hget
        · rw [hnow]
          exact hget
  | @single data =>
      have hnow : (Kv.single ⟨data, false⟩).now.get key = .ok (data.get? key) := rfl
      simp only [get, bind, Except.bind, pure, Except.pure, buffered?, usable, ite_true,
        SortedMap.get?_empty, below?] at hget
      split at hget
      · cases hget
      · rw [hnow]
        exact hget

theorem opened_of_write (hopen : kv.write signal stop = (.ok h, kv')) : Opened kv h kv' := by
  unfold write at hopen
  split at hopen
  · cases hopen
  · cases kv with
    | multi m =>
        cases hopen
        exact .multi rfl rfl rfl
    | single s =>
        obtain ⟨data, busy⟩ := s
        cases busy <;> cases hopen
        exact .single

theorem opened_of_writeExclusive {keys : List Bytes}
    (hopen : kv.writeExclusive signal stop keys = (.ok h, kv')) : Opened kv h kv' := by
  cases kv with
  | single s => exact opened_of_write hopen
  | multi m =>
      simp only [writeExclusive] at hopen
      split at hopen
      · next hbegin =>
        cases hopen
        unfold TxnManager.beginExclusive at hbegin
        split at hbegin
        · cases hbegin
        · split at hbegin <;> cases hbegin
          exact .multi rfl rfl rfl
      · cases hopen

-- A writer has opened. It looks at what is committed, and all will be as it was if it is closed.
structure Lends (kv : Kv) (h : Handle) (kv' : Kv) : Prop where
  back : kv.Unmoved (kv'.close h).2
  sees : ∀ signal key value, kv'.get h signal key = .ok value → kv.now.get key = .ok value

-- Either a writer has opened, or nothing has changed.
def Opens (kv : Kv) : Except Error Handle × Kv → Prop
  | (.ok h, kv') => kv.Lends h kv'
  | (.error _, kv') => kv.Unmoved kv'

theorem Orderly.opens_write (hkv : kv.Orderly) (signal : Signal) (stop : Error) :
    kv.Opens (kv.write signal stop) := by
  unfold write
  cases signal.check with
  | error e => exact .refl kv
  | ok _ =>
      cases kv with
      | multi m =>
          exact ⟨⟨rfl, TxnManager.Orderly.finish_begin hkv m.store⟩,
            (Opened.multi rfl rfl rfl).sees⟩
      | single s =>
          obtain ⟨data, busy⟩ := s
          cases busy with
          | true => exact .refl (.single ⟨data, true⟩)
          | false => exact ⟨rfl, Opened.single.sees⟩

theorem Orderly.opens_writeExclusive (hkv : kv.Orderly) (signal : Signal) (stop : Error)
    (keys : List Bytes) : kv.Opens (kv.writeExclusive signal stop keys) := by
  cases kv with
  | single s =>
      have hsingle : (Kv.single s).Orderly := hkv
      exact hsingle.opens_write signal stop
  | multi m =>
      have hopened : ∀ {h kv'}, (Kv.multi m).writeExclusive signal stop keys = (.ok h, kv') →
          Opened (.multi m) h kv' := opened_of_writeExclusive
      simp only [writeExclusive] at hopened ⊢
      rcases hbegin : m.manager.beginExclusive m.store signal stop keys with ⟨e | txn, manager⟩
      · exact ⟨rfl, TxnManager.Orderly.beginExclusive_failed hkv hbegin⟩
      · exact ⟨⟨rfl, TxnManager.Orderly.finish_beginExclusive hkv hbegin⟩,
          (hopened (by rw [hbegin])).sees⟩

-- What a writer has buffered is nothing to others once it is closed.
theorem close_buffer {key : Bytes} {value : Option Bytes} (hbuffer : buffer h key value = .ok h')
    (kv : Kv) : (kv.close h').2 = (kv.close h).2 := by
  cases h with
  | multiRead | singleRead => cases hbuffer
  | multiWrite txn finished =>
      simp only [buffer, Txn.write, Txn.ensureActive] at hbuffer
      split at hbuffer
      · cases hbuffer
        cases kv <;> cases finished <;> rfl
      · cases hbuffer
  | singleWrite writes isOpen =>
      simp only [buffer] at hbuffer
      split at hbuffer
      · cases hbuffer
        cases kv <;> cases isOpen <;> rfl
      · cases hbuffer

theorem close_bufferAll {writes : List Write} (hbuffer : bufferAll h writes = .ok h') (kv : Kv) :
    (kv.close h').2 = (kv.close h).2 := by
  induction writes generalizing h with
  | nil =>
      cases hbuffer
      rfl
  | cons first rest ih =>
      simp only [bufferAll, List.foldlM_cons, bind, Except.bind] at hbuffer
      split at hbuffer
      · cases hbuffer
      · next hfirst => exact (ih hbuffer).trans (close_buffer hfirst kv)

end Kv

end DocStore
