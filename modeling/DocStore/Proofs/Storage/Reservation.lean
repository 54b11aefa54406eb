import DocStore.Proofs.Storage.FirstCommitter
import DocStore.Proofs.Storage.Listing

-- Keys that a writer has reserved are its own until it ends.
namespace DocStore

-- Two maps that agree on some keys list the same pairs at these keys.
theorem KeyRange.filter_select_congr {α : Type} (range : KeyRange) {a b : SortedMap Bytes α}
    (p : Bytes → Bool) (h : ∀ key, p key = true → a.get? key = b.get? key) :
    (range.select a).filter (fun e => p e.1) = (range.select b).filter (fun e => p e.1) := by
  refine Assoc.eq_of_get? ((range.ascending_select a).filter _)
    ((range.ascending_select b).filter _) (fun key => ?_)
  rw [Assoc.get?_filter p, Assoc.get?_filter p, range.get?_select, range.get?_select]
  split
  · next hp => rw [h key hp]
  · rfl

-- What may become of what a handle is to see. Who has ended stays so.
structure Outlook.Continues (later o : Outlook) : Prop where
  base : later.base = o.base
  reserved : later.reserved = o.reserved
  writing : later.Writing → o.Writing

namespace Outlook.Continues

variable {o later last : Outlook}

theorem refl (o : Outlook) : o.Continues o := ⟨rfl, rfl, id⟩

theorem trans (hlast : last.Continues later) (h : later.Continues o) : last.Continues o :=
  ⟨hlast.base.trans h.base, hlast.reserved.trans h.reserved, h.writing ∘ hlast.writing⟩

theorem closed (o : Outlook) : o.closed.Continues o := ⟨rfl, rfl, fun hw => by cases hw.1⟩

theorem iters (o : Outlook) (iters : List Prospect) : Continues { o with iters := iters } o :=
  ⟨rfl, rfl, id⟩

theorem finish (o : Outlook) : o.finish.Continues o := by
  unfold Outlook.finish
  split
  · exact closed o
  · exact iters o []

theorem write (o : Outlook) (key : Bytes) (value : Option Bytes) :
    (o.write key value).Continues o := by
  unfold Outlook.write
  split
  · exact ⟨rfl, rfl, id⟩
  · exact iters o []

end Outlook.Continues

namespace Chronicle

-- All that a call can do: somebody enters, a writer at work commits, or one handle goes on.
inductive Turns (c : Chronicle) (call : Call) (answer : Answer) : Chronicle → Prop where
  | enters (isWriter : Bool) (keys : List Bytes)
      (granted : keys = [] ∨ ∃ signal stop m, call = .writeExclusive signal stop keys ∧
        answer = .opened (.ok m)) :
      Turns c call answer (c.enter isWriter keys)
  | commits (n : Nat) (signal : Signal) (o : Outlook) (calls : call = .commit n signal)
      (told : answer = .done (.ok ())) (present : c.outlooks[n]? = some o) (writing : o.Writing) :
      Turns c call answer ⟨c.log ++ [⟨n, o.writes⟩], (c.modify n Outlook.closed).outlooks⟩
  | goesOn (n : Nat) (f : Outlook → Outlook) (continues : ∀ o, (f o).Continues o) :
      Turns c call answer (c.modify n f)

private theorem turns_self (c : Chronicle) (call : Call) (answer : Answer) :
    c.Turns call answer c := by
  have h : c.Turns call answer (c.modify 0 id) := .goesOn 0 id Outlook.Continues.refl
  simpa [modify, List.modify_id] using h

theorem turns_record (c : Chronicle) (call : Call) (answer : Answer) :
    c.Turns call answer (c.record call answer) := by
  cases call with
  | read =>
      rcases answer with (_ | _) | _ | _ | _ | _
      case opened.ok => exact .enters false [] (.inl rfl)
      all_goals exact c.turns_self _ _
  | write signal stop =>
      rcases answer with (_ | _) | _ | _ | _ | _
      case opened.ok => exact .enters true [] (.inl rfl)
      all_goals exact c.turns_self _ _
  | writeExclusive signal stop keys =>
      rcases answer with (_ | m) | _ | _ | _ | _
      case opened.ok => exact .enters true keys (.inr ⟨signal, stop, m, rfl, rfl⟩)
      all_goals exact c.turns_self _ _
  | get => exact c.turns_self _ _
  | iter n range => exact .goesOn n _ (fun o => .iters o _)
  | pull n i signal =>
      cases answer
      case item item => exact .goesOn n _ (fun o => .iters o _)
      all_goals exact c.turns_self _ _
  | buffer n key value => exact .goesOn n _ (fun o => .write o key value)
  | commit n signal =>
      cases hcommitted : c.committed? n answer with
      | none =>
          simp only [record, hcommitted, Option.toList_none, List.append_nil]
          exact .goesOn n _ Outlook.Continues.finish
      | some commit =>
          rcases answer with _ | _ | _ | (_ | _) | _
          case done.ok =>
            obtain ⟨o, ho, hcommit⟩ := Option.bind_eq_some_iff.mp hcommitted
            split at hcommit
            · next hwrote =>
              cases hcommit
              simp only [record, hcommitted, c.modify_finish ho hwrote.1]
              exact .commits n signal o rfl rfl ho hwrote.1
            · cases hcommit
          all_goals cases hcommitted
  | close n => exact .goesOn n _ Outlook.Continues.closed

section Modified

variable {c : Chronicle} {k n : Nat} {f : Outlook → Outlook} {o later : Outlook}

theorem continues_modify (hf : ∀ o, (f o).Continues o) (ho : c.outlooks[n]? = some o) :
    ∃ later, (c.modify k f).outlooks[n]? = some later ∧ later.Continues o := by
  refine ⟨if k = n then f o else o, ?_, ?_⟩
  · simp [modify, List.getElem?_modify, ho]
  · split
    · exact hf o
    · exact .refl o

theorem continued_of_modify (hf : ∀ o, (f o).Continues o)
    (hl : (c.modify k f).outlooks[n]? = some later) :
    ∃ o, c.outlooks[n]? = some o ∧ later.Continues o := by
  cases ho : c.outlooks[n]? with
  | none => simp [modify, List.getElem?_modify, ho] at hl
  | some o =>
      obtain ⟨later', hl', hc⟩ := continues_modify (k := k) hf ho
      rw [hl, Option.some.injEq] at hl'
      exact ⟨o, rfl, hl' ▸ hc⟩

end Modified

-- A handle keeps its snapshot and its keys.
theorem continues_record (c : Chronicle) (call : Call) (answer : Answer) {n : Nat} {o : Outlook}
    (ho : c.outlooks[n]? = some o) :
    ∃ later, (c.record call answer).outlooks[n]? = some later ∧ later.Continues o := by
  generalize hafter : c.record call answer = after
  have hturns : c.Turns call answer after := hafter ▸ c.turns_record call answer
  cases hturns with
  | enters isWriter keys _ =>
      obtain ⟨hlt, -⟩ := List.getElem?_eq_some_iff.mp ho
      exact ⟨o, by rw [enter, List.getElem?_append_left hlt, ho], .refl o⟩
  | commits => exact continues_modify Outlook.Continues.closed ho
  | goesOn _ _ hf => exact continues_modify hf ho

-- What a writer has of the keys that it has reserved.
structure Guards (c : Chronicle) (n : Nat) (o : Outlook) : Prop where
  -- nobody has committed one of them since it opened
  unwritten : ∀ (i : Nat) commit, c.log[i]? = some commit → o.base ≤ i →
    ∀ key ∈ o.reserved, key ∉ commit.writes.keys
  -- nobody else who is at work has reserved one of them, and nobody has who came later
  apart : ∀ (m : Nat) other, c.outlooks[m]? = some other → m ≠ n → other.Writing ∨ n < m →
    ∀ key ∈ o.reserved, key ∉ other.reserved

namespace Guards

variable {c : Chronicle} {n : Nat} {o later : Outlook}

theorem modify (h : c.Guards n o) (hl : later.Continues o) {k : Nat} {f : Outlook → Outlook}
    (hf : ∀ o, (f o).Continues o) : (c.modify k f).Guards n later where
  unwritten i commit hi hle := by
    rw [hl.reserved]
    exact h.unwritten i commit hi (hl.base ▸ hle)
  apart m other hother hne hwhen := by
    obtain ⟨before, hb, hc⟩ := continued_of_modify hf hother
    rw [hl.reserved, hc.reserved]
    exact h.apart m before hb hne (hwhen.imp_left hc.writing)

theorem push (h : c.Guards n o) {commit : Commit}
    (hc : ∀ key ∈ o.reserved, key ∉ commit.writes.keys) :
    Guards ⟨c.log ++ [commit], c.outlooks⟩ n o where
  unwritten i commit' hi hle := by
    rw [List.getElem?_append] at hi
    split at hi
    · exact h.unwritten i commit' hi hle
    · rw [List.mem_singleton.mp (List.mem_of_getElem? hi)]
      exact hc
  apart := h.apart

theorem enter (h : c.Guards n o) {isWriter : Bool} {keys : List Bytes}
    (hfree : ∀ key ∈ o.reserved, key ∉ keys) : (c.enter isWriter keys).Guards n o where
  unwritten := h.unwritten
  apart m other hother hne hwhen := by
    simp only [Chronicle.enter, List.getElem?_append] at hother
    split at hother
    · exact h.apart m other hother hne hwhen
    · rw [List.mem_singleton.mp (List.mem_of_getElem? hother)]
      exact hfree

-- Who enters finds that the keys it is granted are nobody's.
theorem entered {isWriter : Bool} {keys : List Bytes}
    (hfree : ∀ (m : Nat) other, c.outlooks[m]? = some other → other.Writing →
      ∀ key ∈ other.reserved, key ∉ keys) :
    (c.enter isWriter keys).Guards c.outlooks.length
      ⟨isWriter, c.log.length, keys, .empty, true, []⟩ where
  unwritten i commit hi hle := by
    obtain ⟨hlt, -⟩ := List.getElem?_eq_some_iff.mp hi
    exact absurd hle (Nat.not_le.mpr hlt)
  apart m other hother hne hwhen := by
    obtain ⟨hlt, -⟩ := List.getElem?_eq_some_iff.mp hother
    simp only [Chronicle.enter, List.length_append, List.length_singleton] at hlt
    have hlt : m < c.outlooks.length := by omega
    rw [Chronicle.enter, List.getElem?_append_left hlt] at hother
    have hw := hwhen.resolve_right (by omega)
    exact fun key hk hm => hfree m other hother hw key hm hk

end Guards

def Guarded (c : Chronicle) : Prop :=
  ∀ (n : Nat) o, c.outlooks[n]? = some o → o.Writing → c.Guards n o

end Chronicle

namespace Isolated

variable {kv : MultiVersion} {seats : List Seat} {c : Chronicle}

-- Keys are granted that no writer at work has reserved.
theorem free_of_granted (h : Isolated kv seats c) {signal : Signal} {stop : Error}
    {keys : List Bytes} {m : Nat}
    (hok : (Session.exec ⟨.multi kv, seats⟩ (.writeExclusive signal stop keys)).1 =
      .opened (.ok m)) {n : Nat} {o : Outlook} (ho : c.outlooks[n]? = some o) (hw : o.Writing) :
    ∀ key ∈ o.reserved, key ∉ keys := by
  obtain ⟨seat, txn, -, -, howner⟩ := h.owner_of_reserved ho hw
  intro key hr hk
  cases signal with
  | go =>
      generalize hacquire : kv.manager.intents.acquire kv.manager.nextId keys = acquired at hok
      obtain ⟨progress, taken, intents⟩ := acquired
      cases progress with
      | granted =>
          obtain ⟨-, hfree, -⟩ := IntentTable.acquire_granted h.serves.fresh hacquire
          have hnone := hfree key hk
          rw [howner key hr] at hnone
          cases hnone
      | waiting =>
          simp [Session.exec, Kv.writeExclusive, TxnManager.beginExclusive, Signal.check,
            hacquire, Session.receive] at hok
  | cancelled => cases hok
  | expired => cases hok

theorem guarded_record (h : Isolated kv seats c) (hg : c.Guarded) (call : Call) :
    (c.record call (Session.exec ⟨.multi kv, seats⟩ call).1).Guarded := by
  generalize hanswer : (Session.exec ⟨.multi kv, seats⟩ call).1 = answer
  generalize hafter : c.record call answer = after
  have hturns : c.Turns call answer after := hafter ▸ c.turns_record call answer
  intro n later hl hw
  cases hturns with
  | enters isWriter keys hgranted =>
      have hfree : ∀ (m : Nat) other, c.outlooks[m]? = some other → other.Writing →
          ∀ key ∈ other.reserved, key ∉ keys := by
        intro m other hm hwm
        rcases hgranted with rfl | ⟨signal, stop, m, rfl, rfl⟩
        · simp
        · exact h.free_of_granted hanswer hm hwm
      simp only [Chronicle.enter, List.getElem?_append] at hl
      split at hl
      · exact (hg n later hl hw).enter (hfree n later hl hw)
      · next hge =>
        obtain ⟨hlt, -⟩ := List.getElem?_eq_some_iff.mp hl
        obtain rfl : n = c.outlooks.length := by
          rw [List.length_singleton] at hlt
          omega
        rw [List.mem_singleton.mp (List.mem_of_getElem? hl)]
        exact .entered hfree
  | commits k signal o hcall htold ho hwk =>
      obtain ⟨before, hb, hc⟩ := Chronicle.continued_of_modify Outlook.Continues.closed hl
      have hne : n ≠ k := by
        rintro rfl
        simp [Chronicle.modify, hb] at hl
        rw [← hl] at hw
        cases hw.1
      refine ((hg n before hb (hc.writing hw)).modify hc Outlook.Continues.closed).push ?_
      subst hcall htold
      intro key hr hk
      rw [hc.reserved] at hr
      exact h.uncontested_of_commit ho hwk hanswer key hk
        (.inr ⟨n, before, hne, hb, hc.writing hw, hr⟩)
  | goesOn k f hf =>
      obtain ⟨before, hb, hc⟩ := Chronicle.continued_of_modify hf hl
      exact (hg n before hb (hc.writing hw)).modify hc hf

-- The commits of a writer that has reserved what it writes are answered by its context alone.
theorem commit_of_guards (h : Isolated kv seats c) {n : Nat} {o : Outlook}
    (ho : c.outlooks[n]? = some o) (hw : o.Writing) (hg : c.Guards n o)
    (hwrites : ∀ key ∈ o.writes.keys, key ∈ o.reserved) (signal : Signal) :
    (Session.exec ⟨.multi kv, seats⟩ (.commit n signal)).1 = .done signal.check := by
  cases signal with
  | go =>
      rcases h.commit_answer ho hw with ⟨hanswer, -⟩ | ⟨key, hk, hcontested, -⟩
      · exact hanswer
      · rcases hcontested with ⟨i, commit, hi, hle, -, hm⟩ | ⟨m, other, hne, hother, hwother, hm⟩
        · exact absurd hm (hg.unwritten i commit hi hle key (hwrites key hk))
        · exact absurd hm (hg.apart m other hother hne (.inl hwother) key (hwrites key hk))
  | cancelled => exact h.commit_over ho hw rfl
  | expired => exact h.commit_over ho hw rfl

end Isolated

-- What is reserved is as it was in the snapshot, whatever else has been committed meanwhile.
theorem Chronicle.Guards.map_eq {c : Chronicle} {n : Nat} {o : Outlook} (h : c.Guards n o)
    (hpast : o.base ≤ c.log.length) {key : Bytes} (hk : key ∈ o.reserved) :
    (o.map c.log).get? key = (c.log.current.setAll o.writes.toList).get? key := by
  have hun (later : Nat) (hlater : o.base < later) : c.log.written? later key = none := by
    by_contra hne
    obtain ⟨value, hv⟩ := Option.ne_none_iff_exists'.mp hne
    obtain ⟨i, commit, hi, hle, hm⟩ :=
      CommitLog.written?_eq_some_iff.mp ⟨later, value, hlater, hv⟩
    exact h.unwritten i commit hi hle key hk hm
  rw [Outlook.map, SortedMap.get?_setAll, SortedMap.get?_setAll,
    CommitLog.get?_current_of_unwritten hpast hun]

-- Whatever an iterator has still to yield is what its handle finds.
def Outlook.Genuine (o : Outlook) (log : CommitLog) : Prop :=
  o.isOpen = true → ∀ p ∈ o.iters, ∀ pair ∈ p.left, (o.map log).get? pair.1 = some pair.2

namespace Outlook.Genuine

variable {o : Outlook} {log : CommitLog}

theorem of_iters_nil (h : o.iters = []) : o.Genuine log := by
  intro _ p hp
  rw [h] at hp
  cases hp

theorem append (h : o.Genuine log) (hpast : o.base ≤ log.length) (commits : List Commit) :
    o.Genuine (log ++ commits) := by
  have hmap : o.map (log ++ commits) = o.map log := by
    simp [Outlook.map, CommitLog.mapAt, List.take_append_of_le_length hpast]
  rw [Genuine, hmap]
  exact h

theorem expect (h : o.Genuine log) (range : KeyRange) : (o.expect log range).Genuine log := by
  intro hopen p hp pair hpair
  have hopen : o.isOpen = true := hopen
  rcases List.mem_append.mp hp with hp | hp
  · exact h hopen p hp pair hpair
  · rw [List.mem_singleton.mp hp, if_pos hopen] at hpair
    exact (SortedMap.get?_eq_some_iff _).mpr ((range.mem_select_iff _).mp hpair).1

theorem advance (h : o.Genuine log) (i : Nat) (item : Option (Except Error Pair)) :
    Genuine { o with iters := o.iters.modify i (fun p => p.advance item) } log := by
  intro hopen p hp pair hpair
  obtain ⟨j, hj⟩ := List.mem_iff_getElem?.mp hp
  simp only [List.getElem?_modify] at hj
  obtain ⟨before, hb, rfl⟩ := Option.map_eq_some_iff.mp hj
  refine h hopen before (List.mem_of_getElem? hb) pair ?_
  split at hpair
  · exact (before.advance_sublist item).subset hpair
  · exact hpair

end Outlook.Genuine

def Chronicle.Genuine (c : Chronicle) : Prop :=
  ∀ (n : Nat) o, c.outlooks[n]? = some o → o.Genuine c.log

theorem Chronicle.Genuine.modify {c : Chronicle} (h : c.Genuine) (n : Nat) {f : Outlook → Outlook}
    (hf : ∀ o, o.Genuine c.log → (f o).Genuine c.log) : (c.modify n f).Genuine := by
  intro m o ho
  simp only [Chronicle.modify, List.getElem?_modify] at ho
  obtain ⟨before, hb, rfl⟩ := Option.map_eq_some_iff.mp ho
  split
  · exact hf before (h m before hb)
  · exact h m before hb

theorem Chronicle.Genuine.enter {c : Chronicle} (h : c.Genuine) (isWriter : Bool)
    (keys : List Bytes) : (c.enter isWriter keys).Genuine := by
  intro m o ho
  simp only [Chronicle.enter, List.getElem?_append] at ho
  split at ho
  · exact h m o ho
  · rw [List.mem_singleton.mp (List.mem_of_getElem? ho)]
    exact .of_iters_nil rfl

theorem Chronicle.genuine_record (c : Chronicle) (h : c.Genuine)
    (hpast : ∀ (n : Nat) o, c.outlooks[n]? = some o → o.base ≤ c.log.length) (call : Call)
    (answer : Answer) : (c.record call answer).Genuine := by
  cases call with
  | read | write | writeExclusive =>
      rcases answer with (_ | _) | _ | _ | _ | _
      case opened.ok => exact h.enter _ _
      all_goals exact h
  | get => exact h
  | iter n range => exact h.modify n (fun o ho => ho.expect range)
  | pull n i signal =>
      cases answer
      case item item => exact h.modify n (fun o ho => ho.advance i item)
      all_goals exact h
  | buffer n key value =>
      refine h.modify n (fun o _ => .of_iters_nil ?_)
      unfold Outlook.write
      split <;> rfl
  | commit n signal =>
      have hfinished : (c.modify n Outlook.finish).Genuine := by
        refine h.modify n (fun o _ => .of_iters_nil ?_)
        unfold Outlook.finish
        split <;> rfl
      intro m o ho
      have hgenuine := hfinished m o ho
      refine hgenuine.append ?_ _
      obtain ⟨before, hb, hc⟩ := continued_of_modify Outlook.Continues.finish ho
      rw [hc.base]
      exact hpast m before hb
  | close n => exact h.modify n (fun o _ => .of_iters_nil rfl)

namespace Course

structure Guarded (c : Course) : Prop where
  isolated : c.Isolated
  guards : c.chronicle.Guarded
  genuine : c.chronicle.Genuine

theorem Guarded.step {c : Course} (h : c.Guarded) (call : Call) : (c.step call).Guarded := by
  have hisolated := h.isolated.step call
  obtain ⟨⟨⟨_, seats⟩, chronicle⟩, ⟨kv, rfl, hi⟩, hguards, hgenuine⟩ := c, h
  refine ⟨hisolated, hi.guarded_record hguards call,
    chronicle.genuine_record hgenuine (fun n o ho => ?_) call _⟩
  obtain ⟨seat, -, hs⟩ := forall₂_getElem? hi.shows ho
  exact hs.past

theorem guarded_run (calls : List Call) : (run .mvcc calls).Guarded :=
  run_induction ⟨isolated_run [], by simp [Chronicle.Guarded, start, Chronicle.start],
    by simp [Chronicle.Genuine, start, Chronicle.start]⟩ (fun _ call h => h.step call) calls

theorem continues_steps (c : Course) (calls : List Call) {n : Nat} {o : Outlook}
    (ho : c.chronicle.outlooks[n]? = some o) :
    ∃ later, (calls.foldl step c).chronicle.outlooks[n]? = some later ∧ later.Continues o := by
  induction calls generalizing c o with
  | nil => exact ⟨o, ho, .refl o⟩
  | cons call calls ih =>
      obtain ⟨next, hnext, hc⟩ := c.chronicle.continues_record call _ ho
      obtain ⟨later, hl, hcl⟩ := ih (c.step call) hnext
      exact ⟨later, hl, hcl.trans hc⟩

-- A writer at work has some keys to itself, and has had them since the store had made a number of
-- commits.
structure Reserves (c : Course) (n : Nat) (o : Outlook) (since : Nat) (keys : List Bytes) :
    Prop where
  -- the keys are the writer's in the table of the store
  owned : ∃ kv seat txn, c.session.kv = .multi kv ∧ c.session.seats[n]? = some seat ∧
    seat.handle = .multiWrite txn false ∧ ∀ key ∈ keys, kv.manager.intents.owner? key = some txn.id
  -- nobody else has been granted one of them, and nobody will be next
  ungranted : ∀ (m : Nat) other, c.chronicle.outlooks[m]? = some other → m ≠ n →
    other.Writing ∨ n < m → ∀ key ∈ keys, key ∉ other.reserved
  refused : ∀ signal stop wanted m,
    (c.session.exec (.writeExclusive signal stop wanted)).1 = .opened (.ok m) →
      ∀ key ∈ keys, key ∉ wanted
  -- nobody has committed one of them, and nobody else will be next
  unwritten : ∀ (i : Nat) commit, c.chronicle.log[i]? = some commit → since ≤ i →
    ∀ key ∈ keys, key ∉ commit.writes.keys
  unwritable : ∀ (m : Nat) other signal, c.chronicle.outlooks[m]? = some other → m ≠ n →
    other.Writing → (c.session.exec (.commit m signal)).1 = .done (.ok ()) →
      ∀ key ∈ keys, key ∉ other.writes.keys
  -- there the writer reads, under its own writes, what is committed at the moment
  committed : c.session.kv.committed = c.chronicle.log.current.toList
  gets : ∀ key ∈ keys, ∀ signal, (c.session.exec (.get n signal key)).1 =
    .found (signal.check.map
      (fun _ => (c.chronicle.log.current.setAll o.writes.toList).get? key))
  pulls : ∀ i signal pair, (c.session.exec (.pull n i signal)).1 = .item (some (.ok pair)) →
    pair.1 ∈ keys → (c.chronicle.log.current.setAll o.writes.toList).get? pair.1 = some pair.2
  lists : ∀ seat, c.session.seats[n]? = some seat → ∀ range, ∃ pairs : List Pair,
    c.session.kv.entries seat.handle .go range = pairs.map .ok ∧
      pairs.filter (fun e => e.1 ∈ keys) =
        (range.select (c.chronicle.log.current.setAll o.writes.toList)).filter
          (fun e => e.1 ∈ keys)
  -- and what it writes there it can commit
  commits : (∀ key ∈ o.writes.keys, key ∈ keys) → ∀ signal,
    (c.session.exec (.commit n signal)).1 = .done signal.check

theorem Guarded.reserves {c : Course} (h : c.Guarded) {n : Nat} {o : Outlook}
    (ho : c.chronicle.outlooks[n]? = some o) (hw : o.Writing) :
    c.Reserves n o o.base o.reserved := by
  have hcommitted := h.isolated.committed
  obtain ⟨⟨⟨_, seats⟩, chronicle⟩, ⟨kv, rfl, hi⟩, hguards, hgenuine⟩ := c, h
  have hg : chronicle.Guards n o := hguards n o ho hw
  obtain ⟨seat, hn, hs⟩ := forall₂_getElem? hi.shows ho
  have hmap : ∀ key ∈ o.reserved, (o.map chronicle.log).get? key =
      (chronicle.log.current.setAll o.writes.toList).get? key :=
    fun key hk => hg.map_eq hs.past hk
  have hadmits := hi.admits
  constructor
  case owned =>
    obtain ⟨seat, txn, hn, hhandle, howner⟩ := hi.owner_of_reserved ho hw
    exact ⟨kv, seat, txn, rfl, hn, hhandle, howner⟩
  case ungranted => exact hg.apart
  case refused => exact fun signal stop wanted m hok => hi.free_of_granted hok ho hw
  case unwritten => exact hg.unwritten
  case unwritable =>
    intro m other signal hother hne hwother hok key hk hm
    exact hi.uncontested_of_commit hother hwother hok key hm (.inr ⟨n, o, hne.symm, ho, hw, hk⟩)
  case committed => exact hcommitted
  case gets =>
    intro key hk signal
    rw [← hmap key hk]
    exact hadmits (.get n signal key) o ho hw.1
  case pulls =>
    intro i signal pair hanswer hk
    rw [← hmap _ hk]
    cases hp : o.iters[i]? with
    | none =>
        have hseat : seat.iters[i]? = none := by
          rw [List.getElem?_eq_none_iff] at hp ⊢
          exact (hs.iters hw.1).length_eq ▸ hp
        simp [Session.exec, hn, hseat] at hanswer
    | some p =>
        obtain ⟨item, hitem, hadmitted⟩ := hadmits (.pull n i signal) o p ho hw.1 hp
        obtain rfl : item = some (.ok pair) := by
          rw [hanswer, Answer.item.injEq] at hitem
          exact hitem.symm
        refine hgenuine n o ho hw.1 p (List.mem_of_getElem? hp) pair ?_
        cases hb : p.broken with
        | true => simpa [Prospect.Admits, hb] using hadmitted
        | false => exact List.mem_of_mem_head? (by simpa [Prospect.Admits, hb] using hadmitted)
  case lists =>
    intro seat' hn' range
    rw [hn, Option.some.injEq] at hn'
    subst hn'
    refine ⟨range.select (o.map chronicle.log), ?_, ?_⟩
    · rcases (hi.sees hn hs hw.1).entries .go range with hlisted | ⟨e, hsignal, -⟩
      · exact hlisted
      · cases hsignal
    · exact range.filter_select_congr (fun key => key ∈ o.reserved)
        (fun key hk => hmap key (by simpa using hk))
  case commits => exact fun hwrites signal => hi.commit_of_guards ho hw hg hwrites signal

-- From the moment that keys are granted to a writer until it ends, nobody else commits one of them
-- or is granted one of them. So the writer reads there what is committed, at all times, and cannot
-- lose a race if it writes nothing else.
theorem reserves_of_granted (before after : List Call) (signal : Signal) (stop : Error)
    (keys : List Bytes) (n : Nat) (o : Outlook)
    (hgranted : ((run .mvcc before).session.exec (.writeExclusive signal stop keys)).1 =
      .opened (.ok n))
    (ho : (run .mvcc (before ++ .writeExclusive signal stop keys :: after)).chronicle.outlooks[n]? =
      some o)
    (hw : o.Writing) :
    (run .mvcc (before ++ .writeExclusive signal stop keys :: after)).Reserves n o
      (run .mvcc before).chronicle.log.length keys := by
  have hguarded := guarded_run (before ++ .writeExclusive signal stop keys :: after)
  have hn : n = (run .mvcc before).chronicle.outlooks.length := by
    obtain ⟨kv, hkv, hi⟩ := isolated_run before
    have hadmits := hi.admits (.writeExclusive signal stop keys)
    rw [← hkv] at hadmits
    rcases hadmits with hok | ⟨e, herror⟩
    · rw [hgranted] at hok
      cases hok
      rfl
    · rw [hgranted] at herror
      cases herror
  have hrun : run .mvcc (before ++ .writeExclusive signal stop keys :: after) =
      after.foldl step ((run .mvcc before).step (.writeExclusive signal stop keys)) := by
    simp [run]
  have hentered : ((run .mvcc before).step (.writeExclusive signal stop keys)).chronicle =
      (run .mvcc before).chronicle.enter true keys := by
    simp only [step, hgranted, Chronicle.record]
  have hfirst :
      ((run .mvcc before).step (.writeExclusive signal stop keys)).chronicle.outlooks[n]? =
        some ⟨true, (run .mvcc before).chronicle.log.length, keys, .empty, true, []⟩ := by
    simp [hentered, Chronicle.enter, hn]
  obtain ⟨later, hl, hc⟩ := continues_steps _ after hfirst
  rw [← hrun, ho, Option.some.injEq] at hl
  subst hl
  have hreserves := hguarded.reserves ho hw
  rwa [hc.base, hc.reserved] at hreserves

-- Somebody is to write a key that another writer has reserved.
def rivalry : List Call :=
  [.write .go .cancelled, .buffer 1 [7] (some [2]), .commit 1 .go, .buffer 0 [7] (some [3])]

theorem commit_of_rivalry :
    ((run .mvcc (.writeExclusive .go .cancelled [[7]] :: rivalry)).session.exec
      (.commit 0 .go)).1 = .done (.ok ()) := by
  let o : Outlook := ⟨true, 0, [[7]], SortedMap.empty.insert [7] (some [3]), true, []⟩
  have hreserves := reserves_of_granted [] rivalry .go .cancelled [[7]] 0 o rfl rfl ⟨rfl, rfl⟩
  exact hreserves.commits (by decide) .go

end Course

end DocStore
