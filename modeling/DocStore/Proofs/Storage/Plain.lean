import DocStore.Proofs.Storage.Session

-- What clients find who take turns: a plain map that each of them writes to when it commits.
namespace DocStore

-- A handle of a plain map.
structure Plain.Client where
  isWriter : Bool
  isOpen : Bool
  -- the map as it was when the handle was opened, and how often it had been written to
  opened : SortedMap Bytes Bytes
  version : Nat
  writes : SortedMap Bytes (Option Bytes)
  -- what each iterator has still to yield
  iters : List (List Pair)

-- A map, how often it was written to, and the handles there are.
structure Plain where
  map : SortedMap Bytes Bytes
  version : Nat
  clients : List Plain.Client

namespace Plain

namespace Client

def Writing (c : Client) : Prop := c.isOpen = true ∧ c.isWriter = true

instance (c : Client) : Decidable c.Writing := inferInstanceAs (Decidable (_ ∧ _))

-- What the handle finds in a map, under its own writes.
def seen (c : Client) (map : SortedMap Bytes Bytes) : SortedMap Bytes Bytes :=
  map.setAll c.writes.toList

def closed (c : Client) : Client :=
  { c with isOpen := false, writes := SortedMap.empty, iters := [] }

end Client

def start : Plain := ⟨SortedMap.empty, 0, []⟩

def enter (p : Plain) (isWriter : Bool) : Plain :=
  { p with clients := p.clients ++ [⟨isWriter, true, p.map, p.version, SortedMap.empty, []⟩] }

def modify (p : Plain) (n : Nat) (f : Client → Client) : Plain :=
  { p with clients := p.clients.modify n f }

-- A writer makes all its writes at once, and is done.
def commit (p : Plain) (n : Nat) (writes : SortedMap Bytes (Option Bytes)) : Plain :=
  ⟨p.map.setAll writes.toList, if writes.size = 0 then p.version else p.version + 1,
    p.clients.modify n Client.closed⟩

-- What a handle answers to a call, and what becomes of the map.
def serve (p : Plain) (n : Nat) (c : Client) : Call → Answer × Plain
  | .get _ _ key => (.found (.ok ((c.seen p.map).get? key)), p)
  | .iter _ range =>
    (.nothing, p.modify n (fun c => { c with iters := c.iters ++ [range.select (c.seen p.map)] }))
  | .pull _ i _ =>
    (match c.iters[i]? with
      | some left => .item (left.head?.map .ok)
      | none => .nothing,
      p.modify n (fun c => { c with iters := c.iters.modify i List.tail }))
  | .buffer _ key value =>
    (.done (.ok ()),
      p.modify n (fun c => { c with writes := c.writes.insert key value, iters := [] }))
  | .commit _ _ => (.done (.ok ()), p.commit n c.writes)
  | .close _ => (.done (.ok ()), p.modify n Client.closed)
  | .read | .write _ _ | .writeExclusive _ _ _ => (.nothing, p)

def exec (p : Plain) (call : Call) : Answer × Plain :=
  match call.seat? with
  | some n =>
    match p.clients[n]? with
    | some c => p.serve n c call
    | none => (.nothing, p)
  | none => (.opened (.ok p.clients.length), p.enter (!(call matches .read)))

theorem exec_eq {p : Plain} {call : Call} {n : Nat} {c : Client} (hn : call.seat? = some n)
    (hc : p.clients[n]? = some c) : p.exec call = p.serve n c call := by
  simp only [exec, hn, hc]

def run (calls : List Call) : Plain := calls.foldl (fun p call => (p.exec call).2) start

theorem run_append (calls : List Call) (call : Call) :
    run (calls ++ [call]) = ((run calls).exec call).2 := by simp [run]

-- Somebody is about to write to the map.
def Busy (p : Plain) : Prop := ∃ c ∈ p.clients, c.Writing

instance (p : Plain) : Decidable p.Busy := inferInstanceAs (Decidable (∃ c ∈ p.clients, _))

-- The calls of clients who take turns: their contexts are live, they use handles that are open, and
-- nobody opens a writer beside another one.
inductive Permits (p : Plain) : Call → Prop where
  | read : Permits p .read
  | write (stop : Error) (free : ¬p.Busy) : Permits p (.write .go stop)
  | writeExclusive (stop : Error) (keys : List Bytes) (free : ¬p.Busy) :
      Permits p (.writeExclusive .go stop keys)
  | get (n : Nat) (key : Bytes) (c : Client) (present : p.clients[n]? = some c)
      (opened : c.isOpen = true) : Permits p (.get n .go key)
  | iter (n : Nat) (range : KeyRange) (c : Client) (present : p.clients[n]? = some c)
      (opened : c.isOpen = true) : Permits p (.iter n range)
  | pull (n i : Nat) (c : Client) (present : p.clients[n]? = some c) (opened : c.isOpen = true) :
      Permits p (.pull n i .go)
  | buffer (n : Nat) (key : Bytes) (value : Option Bytes) (c : Client)
      (present : p.clients[n]? = some c) (writing : c.Writing) : Permits p (.buffer n key value)
  | commit (n : Nat) (c : Client) (present : p.clients[n]? = some c) (writing : c.Writing) :
      Permits p (.commit n .go)
  | close (n : Nat) (c : Client) (present : p.clients[n]? = some c) (opened : c.isOpen = true) :
      Permits p (.close n)

-- Transactions one after the other, with readers that may be opened at any time.
inductive Serial : List Call → Prop where
  | start : Serial []
  | call {calls : List Call} {call : Call} (before : Serial calls)
      (permits : (run calls).Permits call) : Serial (calls ++ [call])

-- A handle is no reader that the map has been written to since it was opened.
def Client.Timely (c : Client) (p : Plain) : Prop := c.isWriter = true ∨ c.version = p.version

def Timely (p : Plain) (call : Call) : Prop :=
  ∀ n c, call.seat? = some n → p.clients[n]? = some c → c.Timely p

theorem timely_iff {p : Plain} {call : Call} {n : Nat} {c : Client} (hn : call.seat? = some n)
    (hc : p.clients[n]? = some c) : p.Timely call ↔ c.Timely p := by
  refine ⟨fun h => h n c hn hc, fun h m c' hm hc' => ?_⟩
  rw [hn, Option.some.injEq] at hm
  subst hm
  rw [hc, Option.some.injEq] at hc'
  exact hc' ▸ h

theorem timely_of_seat? {p : Plain} {call : Call} (h : call.seat? = none) : p.Timely call := by
  intro n c hn
  rw [h] at hn
  cases hn

section Order

variable {p : Plain} {n : Nat}

theorem clients_modify {f : Client → Client} {i : Nat} {c : Client}
    (h : (p.clients.modify n f)[i]? = some c) :
    ∃ before, p.clients[i]? = some before ∧ c = if n = i then f before else before := by
  rw [List.getElem?_modify] at h
  obtain ⟨before, hb, rfl⟩ := Option.map_eq_some_iff.mp h
  exact ⟨before, hb, rfl⟩

theorem Busy.enter (h : p.Busy) (isWriter : Bool) : (p.enter isWriter).Busy := by
  obtain ⟨c, hm, hw⟩ := h
  exact ⟨c, List.mem_append_left _ hm, hw⟩

theorem Busy.modify (h : p.Busy) {f : Client → Client}
    (hf : ∀ c, p.clients[n]? = some c → c.Writing → (f c).Writing) : (p.modify n f).Busy := by
  obtain ⟨c, hm, hw⟩ := h
  obtain ⟨i, hi⟩ := List.mem_iff_getElem?.mp hm
  have hlater : (p.modify n f).clients[i]? = some (if n = i then f c else c) := by
    simp only [Plain.modify, List.getElem?_modify, hi]
    rfl
  refine ⟨_, List.mem_of_getElem? hlater, ?_⟩
  split
  · next heq => exact hf c (heq ▸ hi) hw
  · exact hw

-- Writes are new to everybody, or there were none.
theorem commit_cases (p : Plain) (n : Nat) (writes : SortedMap Bytes (Option Bytes)) :
    (writes.size = 0 ∧ (p.commit n writes).map = p.map ∧
        (p.commit n writes).version = p.version) ∨
      writes.size ≠ 0 ∧ (p.commit n writes).version = p.version + 1 := by
  by_cases hsize : writes.size = 0
  · have hnone : writes.toList = [] := List.length_eq_zero_iff.mp hsize
    exact .inl ⟨hsize, by simp [commit, hnone, SortedMap.setAll], if_pos hsize⟩
  · exact .inr ⟨hsize, if_neg hsize⟩

structure Client.Orderly (c : Client) (p : Plain) : Prop where
  past : c.version ≤ p.version
  -- what a writer sees stays as it is
  working : c.Writing → c.version = p.version
  current : c.version = p.version → c.opened = p.map
  readers : c.isWriter = false → c.writes = SortedMap.empty

namespace Client.Orderly

variable {c : Client}

theorem version_eq (h : c.Orderly p) (hopen : c.isOpen = true) (htimely : c.Timely p) :
    c.version = p.version := by
  rcases htimely with hwriter | hversion
  · exact h.working ⟨hopen, hwriter⟩
  · exact hversion

theorem closed (h : c.Orderly p) : c.closed.Orderly p where
  past := h.past
  working hw := by cases hw.1
  current := h.current
  readers _ := rfl

-- Whoever is not at work has nothing to do with what is committed.
theorem committed (h : c.Orderly p) (hidle : ¬c.Writing) (n : Nat)
    (writes : SortedMap Bytes (Option Bytes)) : c.Orderly (p.commit n writes) := by
  have hpast := h.past
  rcases p.commit_cases n writes with ⟨-, hmap, hversion⟩ | ⟨-, hversion⟩
  · refine ⟨?_, fun hw => absurd hw hidle, ?_, h.readers⟩
    · rw [hversion]
      exact hpast
    · rw [hversion, hmap]
      exact h.current
  · refine ⟨?_, fun hw => absurd hw hidle, fun hnew => ?_, h.readers⟩
    · rw [hversion]
      omega
    · rw [hversion] at hnew
      omega

end Client.Orderly

structure Orderly (p : Plain) : Prop where
  clients : ∀ (n : Nat) c, p.clients[n]? = some c → c.Orderly p
  alone : ∀ (i j : Nat) a b, p.clients[i]? = some a → p.clients[j]? = some b →
    a.Writing → b.Writing → i = j

namespace Orderly

theorem start : start.Orderly where
  clients n c hc := by simp [Plain.start] at hc
  alone i j a b ha := by simp [Plain.start] at ha

theorem enter (h : p.Orderly) {isWriter : Bool}
    (hfree : isWriter = true → ¬p.Busy) : (p.enter isWriter).Orderly := by
  have hcases : ∀ (i : Nat) c, (p.enter isWriter).clients[i]? = some c →
      p.clients[i]? = some c ∨ i = p.clients.length ∧
        c = ⟨isWriter, true, p.map, p.version, SortedMap.empty, []⟩ := by
    intro i c hc
    rw [Plain.enter, List.getElem?_append] at hc
    split at hc
    · exact .inl hc
    · obtain ⟨hlt, -⟩ := List.getElem?_eq_some_iff.mp hc
      rw [List.length_singleton] at hlt
      exact .inr ⟨by omega, List.mem_singleton.mp (List.mem_of_getElem? hc)⟩
  constructor
  case clients =>
    intro i c hc
    rcases hcases i c hc with hc | ⟨-, rfl⟩
    · obtain ⟨hpast, hworking, hcurrent, hreaders⟩ := h.clients i c hc
      exact ⟨hpast, hworking, hcurrent, hreaders⟩
    · exact ⟨Nat.le_refl _, fun _ => rfl, fun _ => rfl, fun _ => rfl⟩
  case alone =>
    intro i j a b ha hb hwa hwb
    rcases hcases i a ha with ha | ⟨hi, rfl⟩ <;> rcases hcases j b hb with hb | ⟨hj, rfl⟩
    · exact h.alone i j a b ha hb hwa hwb
    · exact absurd ⟨a, List.mem_of_getElem? ha, hwa⟩ (hfree hwb.2)
    · exact absurd ⟨b, List.mem_of_getElem? hb, hwb⟩ (hfree hwa.2)
    · exact hi.trans hj.symm

-- A handle may change as long as it does not become a writer.
theorem modify (h : p.Orderly) {c : Client} {f : Client → Client} (hc : p.clients[n]? = some c)
    (hkeeps : (f c).version = c.version ∧ (f c).opened = c.opened)
    (hwriting : (f c).Writing → c.Writing)
    (hreaders : (f c).isWriter = false → (f c).writes = SortedMap.empty) :
    (p.modify n f).Orderly := by
  have hbefore : ∀ (i : Nat) later, (p.modify n f).clients[i]? = some later →
      ∃ before, p.clients[i]? = some before ∧ (later.Writing → before.Writing) ∧
        later.Orderly p := by
    intro i later hlater
    obtain ⟨before, hb, rfl⟩ := clients_modify hlater
    have horderly := h.clients i before hb
    refine ⟨before, hb, ?_⟩
    split
    · next hn =>
      rw [← hn, hc, Option.some.injEq] at hb
      subst hb
      obtain ⟨hversion, hopened⟩ := hkeeps
      refine ⟨hwriting, ?_, fun hw => ?_, ?_, hreaders⟩
      · rw [hversion]
        exact horderly.past
      · rw [hversion]
        exact horderly.working (hwriting hw)
      · rw [hversion, hopened]
        exact horderly.current
    · exact ⟨id, horderly⟩
  constructor
  case clients =>
    intro i c hc
    obtain ⟨before, -, -, hpast, hworking, hcurrent, hreaders⟩ := hbefore i c hc
    exact ⟨hpast, hworking, hcurrent, hreaders⟩
  case alone =>
    intro i j a b ha hb hwa hwb
    obtain ⟨a', ha', hwriting, -⟩ := hbefore i a ha
    obtain ⟨b', hb', hwriting', -⟩ := hbefore j b hb
    exact h.alone i j a' b' ha' hb' (hwriting hwa) (hwriting' hwb)

-- When a writer has committed, nobody is at work.
theorem commit (h : p.Orderly) {c : Client} (hc : p.clients[n]? = some c) (hw : c.Writing)
    (writes : SortedMap Bytes (Option Bytes)) : (p.commit n writes).Orderly := by
  have hnone : ∀ (i : Nat) c', (p.commit n writes).clients[i]? = some c' → ¬c'.Writing := by
    intro i c' hc' hw'
    obtain ⟨before, hb, rfl⟩ := clients_modify hc'
    split at hw'
    · cases hw'.1
    · next hne => exact hne (h.alone n i c before hc hb hw hw')
  constructor
  case clients =>
    intro i c' hc'
    refine Client.Orderly.committed ?_ (hnone i c' hc') n writes
    obtain ⟨before, hb, rfl⟩ := clients_modify hc'
    split
    · exact (h.clients i before hb).closed
    · exact h.clients i before hb
  case alone => exact fun i j a b ha _ hwa _ => absurd hwa (hnone i a ha)

theorem step (h : p.Orderly) {call : Call} (hcall : p.Permits call) :
    (p.exec call).2.Orderly := by
  cases hcall with
  | read => exact h.enter (fun hw => by cases hw)
  | write stop hfree => exact h.enter (fun _ => hfree)
  | writeExclusive stop keys hfree => exact h.enter (fun _ => hfree)
  | get n key c hc _ =>
      rw [exec_eq rfl hc]
      exact h
  | iter n range c hc _ =>
      rw [exec_eq rfl hc]
      exact h.modify hc ⟨rfl, rfl⟩ id (h.clients n c hc).readers
  | pull n i c hc _ =>
      rw [exec_eq rfl hc]
      exact h.modify hc ⟨rfl, rfl⟩ id (h.clients n c hc).readers
  | buffer n key value c hc hw =>
      rw [exec_eq rfl hc]
      refine h.modify hc ⟨rfl, rfl⟩ id (fun hreader => ?_)
      have hwriter : c.isWriter = false := hreader
      rw [hw.2] at hwriter
      cases hwriter
  | commit n c hc hw =>
      rw [exec_eq rfl hc]
      exact h.commit hc hw c.writes
  | close n c hc _ =>
      rw [exec_eq rfl hc]
      exact h.modify hc ⟨rfl, rfl⟩ (fun hw => by cases hw.1) (fun _ => rfl)

end Orderly

theorem Serial.orderly {calls : List Call} (h : Serial calls) : (run calls).Orderly := by
  induction h with
  | start => exact .start
  | call _ hcall ih =>
      rw [run_append]
      exact ih.step hcall

end Order

end Plain

end DocStore
