import DocStore.Proofs.Storage.FirstCommitter
import Mathlib.Data.Multiset.Count

-- What handles have in use is given back when they end, and not before.
namespace DocStore

-- A version stands here as often as it is held.
def TxnManager.held (m : TxnManager) : Multiset Nat :=
  (m.readers.toList.flatMap (fun reader => List.replicate reader.2 reader.1) : List Nat)

-- A handle holds its version from the moment it opens until it ends.
def Outlook.held? (o : Outlook) : Option Nat := if o.isOpen then some o.base else none

-- The versions of the handles that have not ended.
def Chronicle.inUse (c : Chronicle) : Multiset Nat :=
  (c.outlooks.filterMap Outlook.held? : List Nat)

namespace Chronicle

-- The oldest version that a handle looks at that has not ended, or the newest there is.
def oldest (c : Chronicle) : Nat := (c.outlooks.filterMap Outlook.held?).min?.getD c.log.length

variable {c : Chronicle} {version bound : Nat}

theorem mem_inUse_iff : version ∈ c.inUse ↔ ∃ o ∈ c.outlooks, o.held? = some version := by
  simp [inUse]

theorem le_oldest_iff (hpast : ∀ version ∈ c.inUse, version ≤ c.log.length) :
    bound ≤ c.oldest ↔ bound ≤ c.log.length ∧ ∀ version ∈ c.inUse, bound ≤ version := by
  unfold oldest inUse at *
  generalize c.outlooks.filterMap Outlook.held? = held at *
  cases hm : held.min? with
  | none =>
      rw [List.min?_eq_none_iff] at hm
      simp [hm]
  | some least =>
      obtain ⟨hin, -⟩ := List.min?_eq_some_iff.mp hm
      rw [Option.getD_some, List.le_min?_iff hm]
      exact ⟨fun hb => ⟨Nat.le_trans (hb least hin) (hpast least hin), hb⟩, fun hb => hb.2⟩

theorem oldest_of_idle (h : c.inUse = 0) : c.oldest = c.log.length := by
  have hnil : c.outlooks.filterMap Outlook.held? = [] := (Multiset.coe_eq_zero _).mp h
  rw [oldest, hnil]
  rfl

private theorem inUse_modify {n : Nat} {f : Outlook → Outlook}
    (hf : ∀ o, (f o).held? = some version → o.held? = some version)
    (hv : version ∈ (c.modify n f).inUse) : version ∈ c.inUse := by
  obtain ⟨o, ho, hheld⟩ := mem_inUse_iff.mp hv
  obtain ⟨i, hi⟩ := List.mem_iff_getElem?.mp ho
  simp only [modify, List.getElem?_modify] at hi
  obtain ⟨before, hb, rfl⟩ := Option.map_eq_some_iff.mp hi
  refine mem_inUse_iff.mpr ⟨before, List.mem_of_getElem? hb, ?_⟩
  split at hheld
  · exact hf before hheld
  · exact hheld

private theorem inUse_enter {isWriter : Bool} {keys : List Bytes}
    (hv : version ∈ (c.enter isWriter keys).inUse) :
    version ∈ c.inUse ∨ version = c.log.length := by
  obtain ⟨o, ho, hheld⟩ := mem_inUse_iff.mp hv
  rcases List.mem_append.mp ho with ho | ho
  · exact .inl (mem_inUse_iff.mpr ⟨o, ho, hheld⟩)
  · rw [List.mem_singleton.mp ho] at hheld
    cases hheld
    exact .inr rfl

-- A call takes nothing into use but the newest version.
theorem inUse_record {call : Call} {answer : Answer}
    (hv : version ∈ (c.record call answer).inUse) : version ∈ c.inUse ∨ version = c.log.length := by
  have hclosed (o : Outlook) (h : o.closed.held? = some version) : o.held? = some version := by
    cases h
  cases call with
  | read | write | writeExclusive =>
      rcases answer with (_ | _) | _ | _ | _ | _
      case opened.ok => exact inUse_enter hv
      all_goals exact .inl hv
  | get => exact .inl hv
  | iter n range => exact .inl (inUse_modify (f := fun o => o.expect c.log range) (fun _ h => h) hv)
  | pull n i signal =>
      cases answer
      case item item =>
        exact .inl (inUse_modify
          (f := fun o => { o with iters := o.iters.modify i (fun p => p.advance item) })
          (fun _ h => h) hv)
      all_goals exact .inl hv
  | buffer n key value =>
      refine .inl (inUse_modify (fun o h => ?_) hv)
      unfold Outlook.write at h
      split at h <;> exact h
  | commit n signal =>
      refine .inl (inUse_modify (n := n) (f := Outlook.finish) (fun o h => ?_) hv)
      unfold Outlook.finish at h
      split at h
      · exact hclosed o h
      · exact h
  | close n => exact .inl (inUse_modify hclosed hv)

end Chronicle

private theorem count_replicated {entries : List (Nat × Nat)} (h : Assoc.Ascending entries)
    (version : Nat) :
    (entries.flatMap (fun entry => List.replicate entry.2 entry.1)).count version =
      (Assoc.get? version entries).getD 0 := by
  induction entries with
  | nil => rfl
  | cons entry rest ih =>
      obtain ⟨hhead, hrest⟩ := List.pairwise_cons.mp h
      rw [List.flatMap_cons, List.count_append, List.count_replicate, ih hrest]
      by_cases heq : entry.1 = version
      · subst heq
        simp [Assoc.get?, Assoc.get?_eq_none_of_lt hhead]
      · simp [Assoc.get?, heq]

theorem TxnManager.count_held (m : TxnManager) (version : Nat) :
    m.held.count version = m.holders version := by
  rw [held, Multiset.coe_count]
  exact count_replicated m.readers.ascending version

theorem Handle.Plays.held?_eq {h : Handle} {o : Outlook} (hp : h.Plays o) :
    h.held? = o.held? := by
  match h with
  | .multiRead version closed =>
      obtain ⟨-, rfl, rfl, -⟩ := hp
      cases ho : o.isOpen <;> simp [Handle.held?, Outlook.held?, ho]
  | .multiWrite txn finished =>
      obtain ⟨-, hstart, rfl, -⟩ := hp
      cases ho : o.isOpen <;> simp [Handle.held?, Outlook.held?, ho, hstart]

-- The number of the transaction that a writer is.
def Course.number? (c : Course) (n : Nat) : Option Nat :=
  c.session.seats[n]?.bind (fun seat => seat.handle.number?)

-- The books of a manager say what the handles have in use that have not ended.
structure Course.Balanced (c : Course) (m : TxnManager) : Prop where
  -- what the handles themselves take to be theirs
  own : c.session.seats.map (fun seat => seat.handle.held?) =
    c.chronicle.outlooks.map Outlook.held?
  held : m.held = c.chronicle.inUse
  -- a version that nobody holds is not listed
  tidy : m.Tidy
  -- a key has an owner as long as a writer is at work to whom it was granted
  owner : ∀ key id, m.intents.owner? key = some id ↔
    ∃ n o, c.chronicle.outlooks[n]? = some o ∧ o.Writing ∧ key ∈ o.reserved ∧ c.number? n = some id
  -- no two writers are one transaction
  apart : ∀ n n' id, c.number? n = some id → c.number? n' = some id → n = n'

-- Once every handle has ended, the books are empty.
theorem Course.Balanced.idle {c : Course} {m : TxnManager} (h : c.Balanced m)
    (hover : ∀ o ∈ c.chronicle.outlooks, o.isOpen = false) :
    m.held = 0 ∧ ∀ key, m.intents.owner? key = none := by
  constructor
  · have hnone : ∀ o ∈ c.chronicle.outlooks, o.held? = none := by
      intro o ho
      rw [Outlook.held?, hover o ho]
      rfl
    rw [h.held, Chronicle.inUse, List.filterMap_eq_nil_iff.mpr hnone]
    rfl
  · intro key
    rw [Option.eq_none_iff_forall_ne_some]
    intro id howner
    obtain ⟨n, o, ho, hw, -⟩ := (h.owner key id).mp howner
    rw [Outlook.Writing, hover o (List.mem_of_getElem? ho)] at hw
    cases hw.1

namespace Isolated

variable {kv : MultiVersion} {seats : List Seat} {c : Chronicle}

theorem own_eq (h : Isolated kv seats c) :
    seats.map (fun seat => seat.handle.held?) = c.outlooks.map Outlook.held? := by
  rw [← List.forall₂_eq_eq_eq, List.forall₂_map_left_iff, List.forall₂_map_right_iff]
  exact h.shows.imp (fun _ _ hs => hs.plays.held?_eq)

theorem held_eq (h : Isolated kv seats c) : kv.manager.held = c.inUse := by
  have hown : (seats.map Seat.handle).filterMap Handle.held? =
      c.outlooks.filterMap Outlook.held? := by
    have hvalues := congrArg (List.filterMap id) h.own_eq
    rw [List.filterMap_map, List.filterMap_map] at hvalues
    rw [List.filterMap_map]
    exact hvalues
  refine Multiset.ext.mpr (fun version => ?_)
  rw [TxnManager.count_held, h.serves.counts, Chronicle.inUse, ← hown, Multiset.coe_count,
    List.count_filterMap]
  exact List.countP_congr (by simp)

theorem past (h : Isolated kv seats c) : ∀ version ∈ c.inUse, version ≤ c.log.length := by
  intro version hv
  obtain ⟨o, ho, hheld⟩ := Chronicle.mem_inUse_iff.mp hv
  obtain ⟨n, hn⟩ := List.mem_iff_getElem?.mp ho
  obtain ⟨seat, -, hs⟩ := forall₂_getElem? h.shows hn
  unfold Outlook.held? at hheld
  split at hheld
  · cases hheld
    exact hs.past
  · cases hheld

-- The manager knows the oldest version in use.
theorem oldest_eq (h : Isolated kv seats c) : kv.manager.oldest c.log.length = c.oldest := by
  refine eq_of_forall_le_iff (fun bound => ?_)
  rw [TxnManager.le_oldest_iff h.serves.tidy, Chronicle.le_oldest_iff h.past]
  simp only [← TxnManager.count_held, h.held_eq, Multiset.count_pos]

-- A call takes nothing into use that is older than the oldest version in use.
theorem oldest_le_record (h : Isolated kv seats c) {kv' : MultiVersion} {seats' : List Seat}
    {call : Call} {answer : Answer} (h' : Isolated kv' seats' (c.record call answer)) :
    c.oldest ≤ (c.record call answer).oldest := by
  obtain ⟨hlength, hall⟩ := (Chronicle.le_oldest_iff h.past).mp (Nat.le_refl c.oldest)
  refine (Chronicle.le_oldest_iff h'.past).mpr ⟨?_, fun version hv => ?_⟩
  · exact Nat.le_trans hlength (c.log_record call answer).length_le
  · rcases Chronicle.inUse_record hv with hv | rfl
    · exact hall version hv
    · exact hlength

theorem balanced (h : Isolated kv seats c) :
    Course.Balanced ⟨⟨.multi kv, seats⟩, c⟩ kv.manager where
  own := h.own_eq
  held := h.held_eq
  tidy := h.serves.tidy
  owner key id := by
    constructor
    · intro howner
      obtain ⟨n, seat, o, hn, hr, ho, hw, hk⟩ := h.reserved_of_owner howner
      exact ⟨n, o, ho, hw, hk, by simp [Course.number?, hn, hr.number]⟩
    · rintro ⟨n, o, ho, hw, hk, hnumber⟩
      obtain ⟨seat, txn, hn, hhandle, howner⟩ := h.owner_of_reserved ho hw
      obtain rfl : txn.id = id := by
        simpa [Course.number?, hn, hhandle, Handle.number?] using hnumber
      exact howner key hk
  apart n n' id hn hn' := by
    obtain ⟨seat, hs, hid⟩ := Option.bind_eq_some_iff.mp hn
    obtain ⟨seat', hs', hid'⟩ := Option.bind_eq_some_iff.mp hn'
    exact h.serves.distinct n n' seat.handle seat'.handle id (by simp [hs]) (by simp [hs']) hid hid'

end Isolated

-- In any run, however handles end and however often, the versions that are held are those of the
-- handles that have not ended, each as often as handles have it, and the keys that are reserved are
-- those that were granted to writers that have not ended.
theorem Course.nothing_leaks (calls : List Call) :
    ∃ kv, (run .mvcc calls).session.kv = .multi kv ∧ (run .mvcc calls).Balanced kv.manager := by
  obtain ⟨kv, hkv, h⟩ := isolated_run calls
  generalize run .mvcc calls = c at hkv h ⊢
  obtain ⟨⟨_, seats⟩, chronicle⟩ := c
  obtain rfl := hkv
  exact ⟨kv, rfl, h.balanced⟩

end DocStore
